import Olric.Cluster.Distribution
import Olric.Cluster.Wire
import Olric.Lib.Faulty

namespace Olric

open Faulty

/-- What a serializer decodes into an empty interface, as far as the operations look at it. -/
inductive Decoded
  | int (n : Int64)
  | nil
  | other
deriving DecidableEq

/-- `none` is an error. -/
structure Serializer where
  marshal : Int64 → Option Bytes
  unmarshal : Bytes → Option Decoded

/-- A member as `New` makes it. A decoded routing table is listed in the order in which the map is gone
through. -/
structure Db where
  config : Config
  sum64 : Bytes → UInt64
  serializer : Serializer
  unmarshalRouting : Bytes → Option (List (UInt64 × Route))
  unmarshalBox : Bytes → Option DMapBox
  hasPartitions : 0 < config.partitionCount

/-- The ways in which an operation itself can panic. -/
inductive Panic
  | interfaceConversion
  | nilPartition
  | noOwners
  | nilType
deriving DecidableEq

/-- The commands of the operations: those of the handlers and what else operations do. -/
inductive OpCmd
  | node (c : Cmd)
  | awaitBootstrap
  | setOwners (p : Place) (owners : List Host)
  | bcancel
  | fsck
  | count (p : Place)
  | getMembers
  | destroyDMap (hosts : List Host) (name : Bytes)

/-- `awaitBootstrap` replies whether the member has been bootstrapped before its deadline. -/
@[reducible] def OpCmd.Reply : OpCmd → Type
  | .node c => c.Reply
  | .awaitBootstrap => Bool
  | .count .. => Int
  | .getMembers => List Host
  | .destroyDMap .. => List Response
  | _ => Unit

abbrev Operation := Faulty Panic OpCmd OpCmd.Reply

def issue (c : OpCmd) : Operation c.Reply := ask c

/-- The statuses of the responses, and the value of a successful one. -/
inductive Answer
  | response (r : Response)
  | partNotEmpty
  | backupNotEmpty
deriving DecidableEq

namespace Answer

def success : Answer := .response (.ok [])

def failure : Answer := .response .failed

/-- The answer of operations that return no value and whose errors have no status of their own. -/
def done : Response → Answer
  | .ok _ => success
  | _ => failure

def found : Response → Answer
  | .noSuchLock => failure
  | r => .response r

def released : Response → Answer
  | .noSuchLock => .response .noSuchLock
  | r => done r

end Answer

/-- The partition that a command goes to. -/
def Cmd.place : Cmd → Option Place
  | .load p _ | .store p _ _ | .remove p _ | .addCount p _ | .names p | .lockPartition p | .unlockPartition p
  | .register p _ _ | .unregister p _ | .destroySnapshot p _ | .owners p => some p
  | _ => none

/-- The command has not found a primary partition without owners. -/
def Cmd.findsOwner : (c : Cmd) → c.Reply → Bool
  | .owners p, hosts => p.backup || !hosts.isEmpty
  | _, _ => true

/-- A type assertion. -/
def assert {α : Type} : Option α → Operation α
  | some a => pure a
  | none => throw .interfaceConversion

def Extra.partID : Extra → Option UInt64
  | .isPartEmpty partID => some partID
  | _ => none

/-- Atomic operations hold the lock of their key for a minute at most. -/
def minute : Int64 := 60000000000

/-- The source has a string here, and an error for any other one. -/
inductive CounterOp
  | incr
  | decr
deriving DecidableEq

def CounterOp.apply : CounterOp → Int64 → Int64 → Int64
  | .incr, curval, delta => curval + delta
  | .decr, curval, delta => curval - delta

namespace Db

variable (db : Db)

def getHKey (name key : Bytes) : UInt64 := Olric.getHKey db.sum64 name key

/-- `partitions` or `backups` at the ID, where the partition is used at once: an ID without a partition
gives a nil pointer. -/
def lookup (backup : Bool) (partID : UInt64) : Operation Place :=
  if partID < db.config.partitionCount then pure ⟨backup, partID⟩ else throw .nilPartition

/-- A command of a handler. The owners of a primary partition are used without a check that there are any,
or with one that panics. -/
def command (c : Cmd) : Operation c.Reply := do
  if let some p := c.place then
    let _ ← db.lookup p.backup p.id
  let reply ← issue (.node c)
  if c.findsOwner reply then pure reply else throw Panic.noOwners

def perform {α : Type} (p : Prog α) : Operation α := interpret db.command p

/-- Without an owner this is an error. -/
def locateHKey (hkey : UInt64) : Operation (Option Host) := do
  if ← issue .awaitBootstrap then
    let part ← db.lookup false (hkey % db.config.partitionCount)
    let owners ← issue (.node (.owners part))
    pure owners.getLast?
  else pure none

/-- Operations of clients run on the primary owner. -/
def onOwner (hkey : UInt64) (op : ClientOp) (here : Prog Response) : Operation Response := do
  match ← db.locateHKey hkey with
  | none => pure .failed
  | some member => if member = db.config.this then db.perform here else issue (.node (.request member (.external op)))

def put (name key value : Bytes) (timeout : Int64) : Operation Response :=
  let hkey := db.getHKey name key
  db.onOwner hkey (.put name key value timeout) (db.config.putKeyVal hkey name key value timeout)

def get (name key : Bytes) : Operation Response :=
  let hkey := db.getHKey name key
  db.onOwner hkey (.get name key) (db.config.getKeyVal hkey name key)

def deleteKey (name key : Bytes) : Operation Response :=
  let hkey := db.getHKey name key
  db.onOwner hkey (.delete name key) (db.config.deleteKey hkey name key)

def lockWithTimeout (name key : Bytes) (timeout : Int64) : Operation Response :=
  let hkey := db.getHKey name key
  db.onOwner hkey (.lockWithTimeout name key timeout) (db.config.lockKey hkey name key timeout)

/-- It waits for the bootstrap on its own, before `locateHKey` does. -/
def unlock (name key : Bytes) : Operation Response := do
  if ← issue .awaitBootstrap then
    let hkey := db.getHKey name key
    db.onOwner hkey (.unlock name key) (db.config.unlockKey hkey name key)
  else pure .failed

/-- Run the body under the lock of the key. An error of the unlock is only logged. -/
def locked {α : Type} (name key : Bytes) (body : Operation (Option α)) : Operation (Option α) := do
  match ← db.lockWithTimeout name key minute with
  | .ok _ => deferred (do let _ ← db.unlock name key) body
  | _ => pure none

/-- A put that leads to the result unless it fails. -/
def putThen {α : Type} (name key value : Bytes) (result : α) : Operation (Option α) := do
  match ← db.put name key value 0 with
  | .ok _ => pure (some result)
  | _ => pure none

/-- The part of `atomicIncrDecr` after the current value is known. -/
def putCounter (name key : Bytes) (newval : Int64) : Operation (Option Int64) := do
  match db.serializer.marshal newval with
  | none => pure none
  | some nval => db.putThen name key nval newval

/-- `none` is an error. The message about a value of another type needs the name of the type, which nil
does not have. -/
def atomicIncrDecr (name key : Bytes) (opr : CounterOp) (delta : Int64) : Operation (Option Int64) :=
  db.locked name key do
    match ← db.get name key with
    | .keyNotFound => db.putCounter name key (opr.apply 0 delta)
    | .ok rawval =>
      match db.serializer.unmarshal rawval with
      | none => pure none
      | some (.int curval) => db.putCounter name key (opr.apply curval delta)
      | some .nil => throw .nilType
      | some .other => pure none
    | _ => pure none

/-- A key that is not there has no old value. -/
def getPut (name key value : Bytes) : Operation (Option Bytes) :=
  db.locked name key do
    match ← db.get name key with
    | .keyNotFound => db.putThen name key value []
    | .ok rawval => db.putThen name key value rawval
    | _ => pure none

def destroyDMap (name : Bytes) : Operation Bool := do
  if ← issue .awaitBootstrap then
    let members ← issue .getMembers
    let answers ← issue (.destroyDMap members name)
    pure (answers.all fun answer => answer matches .ok _)
  else pure false

def exPutOperation (req : Message) : Operation Answer :=
  Answer.done <$> db.put req.dmap req.key req.value 0

def exPutExOperation (req : Message) : Operation Answer := do
  let ttl ← assert (req.extra.bind Extra.putExTTL)
  Answer.done <$> db.put req.dmap req.key req.value ttl

/-- The extra is only looked at if there is one. -/
def putBackupOperation (req : Message) : Operation Answer := do
  let hkey := db.getHKey req.dmap req.key
  match ← db.perform (db.config.getDMap (db.config.place true hkey) req.dmap) with
  | none => pure .failure
  | some r =>
    let timeout ← match req.extra with
      | none => pure 0
      | some extra => assert extra.putExTTL
    let ttl ← db.perform (Config.ttlOf timeout)
    match ← db.command (.put r hkey ⟨req.key, ttl, req.value⟩) with
    | some _ => pure .failure
    | none =>
      db.perform (db.config.oplog r hkey .put)
      pure .success

def exGetOperation (req : Message) : Operation Answer := Answer.found <$> db.get req.dmap req.key

def getPrevOperation (req : Message) : Operation Answer :=
  Answer.response <$> db.perform (db.config.getPrevOperation (db.getHKey req.dmap req.key) req.dmap)

def getBackupOperation (req : Message) : Operation Answer :=
  Answer.response <$> db.perform (db.config.getBackupOperation (db.getHKey req.dmap req.key) req.dmap)

def exDeleteOperation (req : Message) : Operation Answer := Answer.done <$> db.deleteKey req.dmap req.key

def deleteBackupOperation (req : Message) : Operation Answer :=
  Answer.response <$> db.perform (db.config.deleteBackupOperation (db.getHKey req.dmap req.key) req.dmap)

def deletePrevOperation (req : Message) : Operation Answer :=
  Answer.response <$> db.perform (db.config.deletePrevOperation (db.getHKey req.dmap req.key) req.dmap)

def exLockWithTimeoutOperation (req : Message) : Operation Answer := do
  let ttl ← assert (req.extra.bind Extra.lockTTL)
  Answer.done <$> db.lockWithTimeout req.dmap req.key ttl

def exUnlockOperation (req : Message) : Operation Answer := Answer.released <$> db.unlock req.dmap req.key

def findLockOperation (req : Message) : Operation Answer :=
  Answer.response <$> db.perform (db.config.findLockOperation (db.getHKey req.dmap req.key) req.dmap req.key)

/-- The extra is looked at once the lock is held. -/
def lockPrevOperation (req : Message) : Operation Answer := do
  let hkey := db.getHKey req.dmap req.key
  match ← db.perform (db.config.getDMap (db.config.place false hkey) req.dmap) with
  | none => pure .failure
  | some r =>
    db.perform (lockerLock r req.key)
    let ttl ← assert (req.extra.bind Extra.lockTTL)
    db.command (.go (.waitLockForTimeout r req.key ttl))
    pure .success

def unlockPrevOperation (req : Message) : Operation Answer :=
  Answer.response <$> db.perform (db.config.unlockPrevOperation (db.getHKey req.dmap req.key) req.dmap req.key)

def exDestroyOperation (req : Message) : Operation Answer := do
  if ← destroyDMap req.dmap then pure .success else pure .failure

def destroyDMapOperation (req : Message) : Operation Answer :=
  Answer.response <$> db.perform (db.config.destroyDMapOperation req.dmap)

def exIncrDecrOperation (req : Message) : Operation Answer := do
  match db.serializer.unmarshal req.value with
  | none => pure .failure
  | some value =>
    let opr := if req.op = OpCode.exDecr then CounterOp.decr else .incr
    let delta ← assert (match value with | .int n => some n | _ => none)
    match ← db.atomicIncrDecr req.dmap req.key opr delta with
    | none => pure .failure
    | some newval =>
      match db.serializer.marshal newval with
      | none => pure .failure
      | some data => pure (.response (.ok data))

def exGetPutOperation (req : Message) : Operation Answer := do
  match ← db.getPut req.dmap req.key req.value with
  | none => pure .failure
  | some oldval => pure (.response (.ok oldval))

/-- The owners that come before an ID without a partition are set. -/
def setRoutes : List (UInt64 × Route) → Operation Unit
  | [] => pure ()
  | (partID, data) :: rest => do
    let part ← db.lookup false partID
    issue (.setOwners part data.owners)
    let bpart ← db.lookup true partID
    issue (.setOwners bpart data.backups)
    setRoutes rest

def updateRoutingOperation (req : Message) : Operation Answer := do
  match db.unmarshalRouting req.value with
  | none => pure .failure
  | some rt =>
    db.setRoutes rt
    issue .bcancel
    issue .fsck
    pure .success

/-- The common part of `moveDMapOperation` and `moveBackupDMapOperation`. Both panic on a partition without
owners. -/
def mergeBox (backup : Bool) (req : Message) : Operation Answer := do
  match db.unmarshalBox req.value with
  | none => pure .failure
  | some dbox =>
    let part ← db.lookup backup dbox.partID
    let owners ← issue (.node (.owners part))
    if owners.isEmpty then throw Panic.noOwners
    Answer.response <$> db.perform (Config.mergeDMaps part dbox)

def moveDMapOperation (req : Message) : Operation Answer := db.mergeBox false req

def moveBackupDMapOperation (req : Message) : Operation Answer := db.mergeBox true req

/-- The common part of `isPartEmptyOperation` and `isBackupEmptyOperation`. -/
def isEmpty (backup : Bool) (full : Answer) (req : Message) : Operation Answer := do
  let partID ← assert (req.extra.bind Extra.partID)
  let part ← db.lookup backup partID
  if (← issue (.count part)) = 0 then pure .success else pure full

def isPartEmptyOperation (req : Message) : Operation Answer := db.isEmpty false .partNotEmpty req

def isBackupEmptyOperation (req : Message) : Operation Answer := db.isEmpty true .backupNotEmpty req

def registerOperations : List (UInt8 × (Message → Operation Answer)) :=
  [(OpCode.exPut, db.exPutOperation),
    (OpCode.exPutEx, db.exPutExOperation),
    (OpCode.putBackup, db.putBackupOperation),
    (OpCode.exGet, db.exGetOperation),
    (OpCode.getPrev, db.getPrevOperation),
    (OpCode.getBackup, db.getBackupOperation),
    (OpCode.exDelete, db.exDeleteOperation),
    (OpCode.deleteBackup, db.deleteBackupOperation),
    (OpCode.deletePrev, db.deletePrevOperation),
    (OpCode.exLockWithTimeout, db.exLockWithTimeoutOperation),
    (OpCode.exUnlock, db.exUnlockOperation),
    (OpCode.findLock, db.findLockOperation),
    (OpCode.lockPrev, db.lockPrevOperation),
    (OpCode.unlockPrev, db.unlockPrevOperation),
    (OpCode.exDestroy, exDestroyOperation),
    (OpCode.destroyDMap, db.destroyDMapOperation),
    (OpCode.exIncr, db.exIncrDecrOperation),
    (OpCode.exDecr, db.exIncrDecrOperation),
    (OpCode.exGetPut, db.exGetPutOperation),
    (OpCode.updateRouting, db.updateRoutingOperation),
    (OpCode.moveDMap, db.moveDMapOperation),
    (OpCode.backupMoveDMap, db.moveBackupDMapOperation),
    (OpCode.isPartEmpty, db.isPartEmptyOperation),
    (OpCode.isBackupEmpty, db.isBackupEmptyOperation)]

end Db

end Olric
