import Olric.Node.Commands

namespace Olric

open Program

/-- `dm.Lock()` with the deferred `dm.Unlock()`. -/
def withLock {α : Type} (r : Ref) (body : Prog α) : Prog α := do
  act (.lock r)
  let a ← body
  act (.unlock r)
  pure a

/-- `part.Lock()` with the deferred `part.Unlock()`. -/
def withPartitionLock {α : Type} (p : Place) (body : Prog α) : Prog α := do
  act (.lockPartition p)
  let a ← body
  act (.unlockPartition p)
  pure a

/-- A goroutine whose result nobody waits for. -/
def answered (p : Prog Unit) : Prog Response := p.bind fun _ => .ret (.ok [])

/-- The hash function of the configuration, on name and key. -/
def getHKey (sum64 : Bytes → UInt64) (name key : Bytes) : UInt64 := sum64 (name ++ key)

/-- TTLs are in milliseconds, the clock in nanoseconds. -/
def isKeyExpired (now ttl : Int64) : Bool := if ttl = 0 then false else now / 1000000 ≥ ttl

def getTTL (now timeout : Int64) : Int64 := (timeout + now) / 1000000

namespace Config

variable (cfg : Config) {sum64 : Bytes → UInt64}

def place (backup : Bool) (hkey : UInt64) : Place := ⟨backup, hkey % cfg.partitionCount⟩

/-- A call of the snapshot, made in snapshot mode only. -/
def snapshotCall (call : Prog Bool) : Prog Bool := if cfg.snapshotMode then call else pure true

/-- The dmap of a name that is not in the partition's map yet. -/
def createFresh (p : Place) (name : Bytes) : Prog (Option Ref) := do
  match ← act .newStorage with
  | none => pure none
  | some r =>
    act (.setLocker r)
    if ← cfg.snapshotCall (act (.register p name r)) then
      act (.store p name r)
      act (.addCount p 1)
      pure (some r)
    else pure none

/-- `none` is an error of `storage.New` or of the registration. The name is looked up again under
the lock of the partition. -/
def createDMap (p : Place) (name : Bytes) : Prog (Option Ref) :=
  withPartitionLock p do
    match ← act (.load p name) with
    | some r => pure (some r)
    | none => cfg.createFresh p name

def getDMap (p : Place) (name : Bytes) : Prog (Option Ref) := do
  match ← act (.load p name) with
  | some r => pure (some r)
  | none => cfg.createDMap p name

/-- Restore a dmap whose storage has been loaded from the snapshot. -/
def restoreDMap (p : Place) (name : Bytes) (r : Ref) : Prog Bool := do
  if ← act (.register p name r) then
    act (.setLocker r)
    act (.store p name r)
    act (.addCount p 1)
    pure true
  else pure false

def oplog (r : Ref) (hkey : UInt64) (op : LogOp) : Prog Unit :=
  if cfg.snapshotMode then act (.log r hkey op) else pure ()

/-- Remove the pair on the previous owners, the latest first. Failures are only logged. -/
def purgeOldVersions (hkey : UInt64) (name key : Bytes) : Prog Unit := do
  let owners ← act (.owners (cfg.place false hkey))
  forEach (fun owner =>
    if owner = cfg.this then pure ()
    else do
      let _ ← act (.request owner (.deletePrev name key))
      pure ()) owners.dropLast.reverse

def calcMaxBackupCount (memCount : Int) : Int :=
  let backupCount := if cfg.backupCount > 3 then 3 else cfg.backupCount
  if memCount - 1 < backupCount then memCount - 1 else backupCount

theorem calcMaxBackupCount_bounds {memCount : Int} (members : 0 < memCount) :
    0 ≤ cfg.calcMaxBackupCount memCount ∧ cfg.calcMaxBackupCount memCount < memCount := by
  have counted := cfg.counted
  unfold calcMaxBackupCount
  dsimp only
  split <;> split <;> omega

/-- The backup owners that a put goes to. -/
def putBackupOwners (hkey : UInt64) : Prog (List Host) := do
  let memCount ← act .numMembers
  let backupCount := cfg.calcMaxBackupCount memCount
  let owners ← act (.owners (cfg.place true hkey))
  pure (if (owners.length : Int) > backupCount then owners.drop (owners.length - backupCount).toNat else owners)

/-- The timeout goes along only if there is one. -/
def putBackupRequest (name key value : Bytes) (timeout : Int64) : Request :=
  .putBackup name key value (if timeout = 0 then none else some timeout)

/-- One successful backup is enough. -/
def putKeyValBackup (hkey : UInt64) (name key value : Bytes) (timeout : Int64) : Prog Bool := do
  let owners ← cfg.putBackupOwners hkey
  if owners.isEmpty then pure true
  else
    let answers ← act (.requestAll owners (putBackupRequest name key value timeout))
    pure (answers.any fun answer => answer matches .ok _)

/-- The TTL of a put; no timeout is stored as 0. -/
def ttlOf (timeout : Int64) : Prog Int64 :=
  if timeout = 0 then pure 0 else do pure (getTTL (← act .now) timeout)

/-- The backups of a put, by the configured mode. The asynchronous mode does not wait for them. -/
def backUp (hkey : UInt64) (name key value : Bytes) (timeout : Int64) : Prog Bool :=
  if cfg.backupCount = 0 then pure true
  else if cfg.asyncBackup then do
    act (.go (.putKeyValBackup hkey name key value timeout))
    pure true
  else cfg.putKeyValBackup hkey name key value timeout

def putKeyVal (hkey : UInt64) (name key value : Bytes) (timeout : Int64) : Prog Response := do
  match ← cfg.getDMap (cfg.place false hkey) name with
  | none => pure .failed
  | some r => withLock r do
    if ← cfg.backUp hkey name key value timeout then
      let ttl ← ttlOf timeout
      match ← act (.put r hkey ⟨key, ttl, value⟩) with
      | some _ => pure .failed
      | none =>
        cfg.oplog r hkey .put
        cfg.purgeOldVersions hkey name key
        pure (.ok [])
    else pure .failed

/-- Ask hosts one after the other until one does not answer that the key is not there. -/
def askInTurn (req : Request) : List Host → Prog Response
  | [] => pure .keyNotFound
  | host :: hosts => do
    match ← act (.request host req) with
    | .keyNotFound => askInTurn req hosts
    | answer => pure answer

/-- The part of `getKeyVal` after a miss in the local storage: the previous owners, the latest
first, and then the backups. -/
def getFromOthers (hkey : UInt64) (name key : Bytes) : Prog Response := do
  let owners ← act (.owners (cfg.place false hkey))
  match ← askInTurn (.getPrev name key) owners.dropLast.reverse with
  | .keyNotFound => do
    let backups ← act (.owners (cfg.place true hkey))
    askInTurn (.getBackup name key) backups
  | answer => pure answer

def answerEntry (entry : VData) : Prog Response := do
  let now ← act .now
  pure (if isKeyExpired now entry.ttl then .keyNotFound else .ok entry.value)

def getKeyVal (hkey : UInt64) (name key : Bytes) : Prog Response := do
  match ← cfg.getDMap (cfg.place false hkey) name with
  | none => pure .failed
  | some r =>
    match ← act (.get r hkey) with
    | .ok entry => answerEntry entry
    | .error _ => cfg.getFromOthers hkey name key

/-- Send a request to hosts one after the other until one fails. -/
def requestEach (req : Request) : List Host → Prog Bool
  | [] => pure true
  | host :: hosts => do
    match ← act (.request host req) with
    | .ok _ => requestEach req hosts
    | _ => pure false

def deleteKeyValBackup (hkey : UInt64) (name key : Bytes) : Prog Bool := do
  let owners ← act (.owners (cfg.place true hkey))
  let answers ← act (.requestAll owners (.deleteBackup name key))
  pure (answers.all fun answer => answer matches .ok _)

def deleteBackups (hkey : UInt64) (name key : Bytes) : Prog Bool :=
  if cfg.backupCount = 0 then pure true else cfg.deleteKeyValBackup hkey name key

/-- Called with the mutex of the dmap held. -/
def delKeyVal (r : Ref) (hkey : UInt64) (name key : Bytes) : Prog Response := do
  let owners ← act (.owners (cfg.place false hkey))
  if ← requestEach (.deletePrev name key) owners.dropLast.reverse then
    if ← cfg.deleteBackups hkey name key then
      cfg.oplog r hkey .delete
      match ← act (.delete r hkey) with
      | some _ => pure .failed
      | none => pure (.ok [])
    else pure .failed
  else pure .failed

def deleteKey (hkey : UInt64) (name key : Bytes) : Prog Response := do
  match ← cfg.getDMap (cfg.place false hkey) name with
  | none => pure .failed
  | some r => withLock r (cfg.delKeyVal r hkey name key)

/-- The common part of `deletePrevOperation` and `deleteBackupOperation`. -/
def deleteLocal (p : Place) (hkey : UInt64) (name : Bytes) : Prog Response := do
  match ← cfg.getDMap p name with
  | none => pure .failed
  | some r => withLock r do
    match ← act (.delete r hkey) with
    | some _ => pure .failed
    | none =>
      cfg.oplog r hkey .delete
      pure (.ok [])

def deletePrevOperation (hkey : UInt64) (name : Bytes) : Prog Response :=
  cfg.deleteLocal (cfg.place false hkey) hkey name

def deleteBackupOperation (hkey : UInt64) (name : Bytes) : Prog Response :=
  cfg.deleteLocal (cfg.place true hkey) hkey name

/-- The answer of the two look-up operations for other members. -/
def answerGet (r : Ref) (hkey : UInt64) : Prog Response := do
  match ← act (.get r hkey) with
  | .ok entry => answerEntry entry
  | .error .keyNotFound => pure .keyNotFound
  | .error _ => pure .failed

/-- Unlike the other handlers it does not create the dmap. -/
def getPrevOperation (hkey : UInt64) (name : Bytes) : Prog Response := do
  match ← act (.load (cfg.place false hkey) name) with
  | none => pure .keyNotFound
  | some r => answerGet r hkey

def getBackupOperation (hkey : UInt64) (name : Bytes) : Prog Response := do
  match ← cfg.getDMap (cfg.place true hkey) name with
  | none => pure .failed
  | some r => answerGet r hkey

/-- The mutex of the dmap is not taken here. -/
def putBackupOperation (hkey : UInt64) (name key value : Bytes) (timeout : Option Int64) : Prog Response := do
  match ← cfg.getDMap (cfg.place true hkey) name with
  | none => pure .failed
  | some r =>
    let ttl ← ttlOf (timeout.getD 0)
    match ← act (.put r hkey ⟨key, ttl, value⟩) with
    | some _ => pure .failed
    | none =>
      cfg.oplog r hkey .put
      pure (.ok [])

end Config

end Olric
