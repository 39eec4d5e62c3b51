import Olric.Node.Locking

namespace Olric

open Program

namespace Config

variable (cfg : Config)

/-- Put the entries of an imported table that the dmap does not have, until a put fails. `merr`
is the outcome of the last put so far. -/
def mergeTableInto (r : Ref) (merr : Option StorageError) : List (UInt64 × VData) → Prog (Option StorageError)
  | [] => pure merr
  | (hkey, entry) :: entries => do
    if ← act (.check r hkey) then mergeTableInto r merr entries
    else
      match ← act (.put r hkey entry) with
      | some e => pure (some e)
      | none => mergeTableInto r none entries

/-- `Range` leaves only the table at hand when the callback gives up. -/
def mergeInto (r : Ref) (merr : Option StorageError) : List (List (UInt64 × VData)) → Prog (Option StorageError)
  | [] => pure merr
  | entries :: tables => do
    let merr ← mergeTableInto r merr entries
    mergeInto r merr tables

def newOwnerLocker (p : Place) (r : Ref) : Prog Unit := if p.backup then pure () else act (.setLocker r)

def mergeDMaps (p : Place) (box : DMapBox) : Prog Response := do
  match box.payload with
  | none => pure .failed
  | some tr =>
    match ← act (.importStorage tr) with
    | none => pure .failed
    | some fresh =>
      match ← act (.load p box.name) with
      | none =>
        newOwnerLocker p fresh
        act (.store p box.name fresh)
        pure (.ok [])
      | some r => withLock r do
        let tables ← act (.visits fresh)
        match ← mergeInto r none tables with
        | some _ => pure .failed
        | none => pure (.ok [])

/-- Locks are kept on the owners only. -/
def lockCount (p : Place) (r : Ref) : Prog Nat := if p.backup then pure 0 else act (.lockerLength r)

/-- What is left to do once the new owner has the dmap. The outcomes of `Close` and of the
snapshot are only logged. -/
def dropMoved (p : Place) (name : Bytes) (r : Ref) : Prog Unit := do
  act (.remove p name)
  act (.addCount p (-1))
  let _ ← act (.close r)
  let _ ← cfg.snapshotCall (act (.destroySnapshot p name))
  pure ()

/-- `r` is the object that the caller found under the name. -/
def moveDMap (p : Place) (name : Bytes) (r : Ref) (owner : Host) : Prog Unit :=
  withLock r do
    if (← lockCount p r) ≠ 0 then pure ()
    else
      match ← act (.exportTable r) with
      | .error _ => pure ()
      | .ok payload =>
        match ← act (.request owner (.moveDMap p.backup ⟨p.id, name, some payload⟩)) with
        | .ok _ => cfg.dropMoved p name r
        | _ => pure ()

/-- A round of `moveDMaps` or `moveBackupDMaps`, which starts a goroutine for every dmap. -/
def moveStored (p : Place) (name : Bytes) (owner : Host) : Prog Unit := do
  match ← act (.load p name) with
  | none => pure ()
  | some r => cfg.moveDMap p name r owner

/-- A goroutine for every dmap and every backup owner. `Range` looks a name up again when its turn
comes. -/
def moveBackupDMaps (p : Place) (backups : List Host) : Prog Unit :=
  forEach (fun backup => do
    let names ← act (.names p)
    forEach (fun name => do
      match ← act (.load p name) with
      | none => pure ()
      | some r => act (.go (.moveDMap p name r backup))) names) backups

/-- The closure that destroys the dmap in one partition. It takes no mutex. -/
def destroyIn (name : Bytes) (p : Place) : Prog Bool := do
  match ← act (.load p name) with
  | none => pure true
  | some r =>
    if ← act (.close r) then
      if ← cfg.snapshotCall (act (.destroySnapshot p name)) then
        act (.remove p name)
        pure true
      else pure false
    else pure false

/-- Fails early. -/
def destroyEach (name : Bytes) : List Place → Prog Response
  | [] => pure (.ok [])
  | p :: places => do
    if ← cfg.destroyIn name p then destroyEach name places else pure .failed

def destroyPlaces : List Place :=
  (List.range cfg.partitionCount.toNat).flatMap fun partID =>
    let id := UInt64.ofNat partID
    if cfg.backupCount ≠ 0 then [⟨false, id⟩, ⟨true, id⟩] else [⟨false, id⟩]

def destroyDMapOperation (name : Bytes) : Prog Response := cfg.destroyEach name cfg.destroyPlaces

/-- The callback of the janitor for one dmap. -/
def deleteStaleDMap (p : Place) (name : Bytes) (r : Ref) : Prog Unit :=
  withLock r do
    if (← act (.len r)) ≠ 0 then pure ()
    else if ← act (.close r) then
      if ← cfg.snapshotCall (act (.unregister p name)) then
        act (.remove p name)
        act (.addCount p (-1))
      else pure ()
    else pure ()

/-- `Range` looks a name up again when its turn comes. -/
def janitor (p : Place) : Prog Unit := do
  let names ← act (.names p)
  forEach (fun name => do
    match ← act (.load p name) with
    | none => pure ()
    | some r => cfg.deleteStaleDMap p name r) names

def stalePlaces : List Place :=
  (List.range cfg.partitionCount.toNat).flatMap fun partID =>
    [⟨false, UInt64.ofNat partID⟩, ⟨true, UInt64.ofNat partID⟩]

def deleteStaleDMaps : Prog Unit := forEach cfg.janitor cfg.stalePlaces

/-- The write batch of `syncDMap`: the operations that could not be added to it. -/
def syncOps (r : Ref) : List (UInt64 × LogOp) → Prog (List (UInt64 × LogOp))
  | [] => pure []
  | (hkey, .put) :: ops => do
    match ← act (.getRaw r hkey) with
    | .error .keyNotFound => syncOps r ops
    | .error _ => do pure ((hkey, .put) :: (← syncOps r ops))
    | .ok _ => do
      if ← act .badger then syncOps r ops else pure ((hkey, .put) :: (← syncOps r ops))
  | (hkey, .delete) :: ops => do
    if ← act .badger then syncOps r ops else pure ((hkey, .delete) :: (← syncOps r ops))

/-- The operations to log again after `syncDMap`. They are lost if the hkeys cannot be read. -/
def syncDMap (r : Ref) : Prog (List (UInt64 × LogOp)) := do
  let wcopy ← act (.drain r)
  if wcopy.isEmpty then pure []
  else if ← act .badger then
    let failed ← syncOps r wcopy
    if ← act .badger then pure failed else pure wcopy
  else pure []

/-- One sync round of the snapshot worker of a partition. -/
def sync (partID : UInt64) : Prog Unit := do
  let logs ← act (.beginSync partID)
  forEach (fun log : Bytes × Ref => do
    let failed ← syncDMap log.2
    act (.relog log.2 failed)) logs
  act .endSync

/-- The operation that serves a request of another member. -/
def handle (sum64 : Bytes → UInt64) : Request → Prog Response
  | .deletePrev name key => cfg.deletePrevOperation (getHKey sum64 name key) name
  | .getPrev name key => cfg.getPrevOperation (getHKey sum64 name key) name
  | .putBackup name key value timeout => cfg.putBackupOperation (getHKey sum64 name key) name key value timeout
  | .deleteBackup name key => cfg.deleteBackupOperation (getHKey sum64 name key) name
  | .getBackup name key => cfg.getBackupOperation (getHKey sum64 name key) name
  | .moveDMap backup box => mergeDMaps ⟨backup, box.partID⟩ box
  | .findLock name key => cfg.findLockOperation (getHKey sum64 name key) name key
  | .lockPrev name key timeout => cfg.lockPrevOperation (getHKey sum64 name key) name key timeout
  | .unlockPrev name key => cfg.unlockPrevOperation (getHKey sum64 name key) name key
  | .external op => cfg.clientOperation sum64 op

/-- What a goroutine does that a handler starts. Its outcome is only logged. -/
def job : Job → Prog Unit
  | .putKeyValBackup hkey name key value timeout => do
    let _ ← cfg.putKeyValBackup hkey name key value timeout
    pure ()
  | .waitLockForTimeout r key timeout => waitLockForTimeout r key timeout
  | .moveDMap p name r owner => cfg.moveDMap p name r owner

end Config

end Olric
