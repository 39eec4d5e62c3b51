import Olric.Lib.Program
import Olric.Node.Locker
import Olric.Storage.Transport

namespace Olric

structure Host where
  name : Bytes
  birthdate : Int64
deriving DecidableEq

/-- A partition of the primary or of the backup table of a node. -/
structure Place where
  backup : Bool
  id : UInt64
deriving DecidableEq

/-- The address of a dmap object; its mutex, storage, locker and oplog live there. -/
abbrev Ref := Nat

/-- A goroutine. -/
abbrev Tid := Nat

inductive LogOp
  | put
  | delete
deriving DecidableEq

/-- A nil locker or oplog is `none`. -/
structure DMap where
  str : Storage
  mutex : Option Tid
  locker : Option Locker
  oplog : Option (Finmap fun _ : UInt64 => LogOp)

/-- The count is a Go `int32`. A dmap maps at least a megabyte of memory, so a partition cannot
have as many of them as the counter holds. -/
structure Partition where
  count : Int
  m : Finmap fun _ : Bytes => Ref
  mutex : Option Tid

/-- What the goroutines of one member share. `oplogs` is the registry of the snapshot, and
`syncing` are the holders of its read lock. -/
structure Node where
  partition : Place → Partition
  dmaps : Ref → Option DMap
  oplogs : UInt64 → Finmap fun _ : Bytes => Ref
  syncing : List Tid

/-- A negative count is left out: the slice of the backup owners in `putKeyValBackup` is out of
range then, and every put panics. -/
structure Config where
  this : Host
  partitionCount : UInt64
  backupCount : Int
  asyncBackup : Bool
  snapshotMode : Bool
  counted : 0 ≤ backupCount

/-- The dmapbox of a move, with the payload unmarshalled (`none` if it cannot be). -/
structure DMapBox where
  partID : UInt64
  name : Bytes
  payload : Option Transport

/-- What clients ask for, and any member passes on to the primary owner of the key. -/
inductive ClientOp
  | put (name key value : Bytes) (timeout : Int64)
  | get (name key : Bytes)
  | delete (name key : Bytes)
  | lockWithTimeout (name key : Bytes) (timeout : Int64)
  | unlock (name key : Bytes)

/-- The requests that members send each other. -/
inductive Request
  | deletePrev (name key : Bytes)
  | getPrev (name key : Bytes)
  | putBackup (name key value : Bytes) (timeout : Option Int64)
  | deleteBackup (name key : Bytes)
  | getBackup (name key : Bytes)
  | moveDMap (backup : Bool) (box : DMapBox)
  | findLock (name key : Bytes)
  | lockPrev (name key : Bytes) (timeout : Int64)
  | unlockPrev (name key : Bytes)
  | external (op : ClientOp)

/-- What `requestTo` makes of the answer. -/
inductive Response
  | ok (value : Bytes)
  | keyNotFound
  | noSuchLock
  | failed
deriving DecidableEq

/-- The goroutines that handlers start. -/
inductive Job
  | putKeyValBackup (hkey : UInt64) (name key value : Bytes) (timeout : Int64)
  | waitLockForTimeout (r : Ref) (key : Bytes) (timeout : Int64)
  | moveDMap (p : Place) (name : Bytes) (r : Ref) (owner : Host)

/-- The points at which handlers touch something shared. -/
inductive Cmd
  | load (p : Place) (name : Bytes)
  | store (p : Place) (name : Bytes) (r : Ref)
  | remove (p : Place) (name : Bytes)
  | addCount (p : Place) (delta : Int)
  | names (p : Place)
  | lockPartition (p : Place)
  | unlockPartition (p : Place)
  | newStorage
  | importStorage (tr : Transport)
  | setLocker (r : Ref)
  | lock (r : Ref)
  | unlock (r : Ref)
  | lockerLength (r : Ref)
  | lockerCheck (r : Ref) (key : Bytes)
  | lockerEnter (r : Ref) (key : Bytes)
  | lockerAcquire (r : Ref) (i : Nat)
  | lockerDec (r : Ref) (i : Nat)
  | lockerUnlock (r : Ref) (key : Bytes)
  | unlockNotifier (r : Ref) (key : Bytes)
  | waitUnlock (r : Ref) (channel : Option Nat) (timeout : Int64)
  | put (r : Ref) (hkey : UInt64) (value : VData)
  | get (r : Ref) (hkey : UInt64)
  | getRaw (r : Ref) (hkey : UInt64)
  | delete (r : Ref) (hkey : UInt64)
  | check (r : Ref) (hkey : UInt64)
  | visits (r : Ref)
  | len (r : Ref)
  | exportTable (r : Ref)
  | close (r : Ref)
  | log (r : Ref) (hkey : UInt64) (op : LogOp)
  | drain (r : Ref)
  | relog (r : Ref) (ops : List (UInt64 × LogOp))
  | register (p : Place) (name : Bytes) (r : Ref)
  | unregister (p : Place) (name : Bytes)
  | destroySnapshot (p : Place) (name : Bytes)
  | beginSync (partID : UInt64)
  | endSync
  | badger
  | owners (p : Place)
  | numMembers
  | now
  | request (dst : Host) (req : Request)
  | requestAll (dst : List Host) (req : Request)
  | go (job : Job)

@[reducible] def Cmd.Reply : Cmd → Type
  | .load .. => Option Ref
  | .names .. => List Bytes
  | .newStorage => Option Ref
  | .importStorage .. => Option Ref
  | .lockerLength .. | .lockerEnter .. => Nat
  | .lockerCheck .. | .lockerUnlock .. | .waitUnlock .. => Bool
  | .unlockNotifier .. => Option Nat
  | .put .. | .delete .. => Option StorageError
  | .get .. => Except StorageError VData
  | .getRaw .. => Except StorageError Bytes
  | .check .. => Bool
  | .visits .. => List (List (UInt64 × VData))
  | .len .. => Nat
  | .exportTable .. => Except StorageError Transport
  | .close .. => Bool
  | .drain .. => List (UInt64 × LogOp)
  | .register .. | .unregister .. | .destroySnapshot .. | .badger => Bool
  | .beginSync .. => List (Bytes × Ref)
  | .owners .. => List Host
  | .numMembers => Int
  | .now => Int64
  | .request .. => Response
  | .requestAll .. => List Response
  | _ => Unit

abbrev Prog := Program Cmd Cmd.Reply

def act (c : Cmd) : Prog c.Reply := .call c .ret

end Olric
