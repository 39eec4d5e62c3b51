import Olric.Node.Handlers

namespace Olric

open Program

/-- `locker.lock`. The goroutine is counted as a waiter until it has the mutex. -/
def lockerLock (r : Ref) (key : Bytes) : Prog Unit := do
  let i ← act (.lockerEnter r key)
  act (.lockerAcquire r i)
  act (.lockerDec r i)

/-- Wait until the lock is released or the time is over, and release it then if it still exists.
The notification comes from the channel that the lock has when the goroutine starts. -/
def waitLockForTimeout (r : Ref) (key : Bytes) (timeout : Int64) : Prog Unit := do
  let channel ← act (.unlockNotifier r key)
  if ← act (.waitUnlock r channel timeout) then pure ()
  else
    let _ ← act (.lockerUnlock r key)
    pure ()

def grantLock (r : Ref) (key : Bytes) (timeout : Int64) : Prog Response := do
  lockerLock r key
  act (.go (.waitLockForTimeout r key timeout))
  pure (.ok [])

def releaseLock (r : Ref) (key : Bytes) : Prog Response := do
  if ← act (.lockerUnlock r key) then pure (.ok []) else pure .noSuchLock

/-- The hkey that an operation of a client is about. -/
def ClientOp.hkey (sum64 : Bytes → UInt64) : ClientOp → UInt64
  | .put name key _ _ | .get name key | .delete name key | .lockWithTimeout name key _ | .unlock name key =>
    getHKey sum64 name key

namespace Config

variable (cfg : Config) (sum64 : Bytes → UInt64)

/-- The first of the hosts that has the lock, or this member. `none` is an error. -/
def findLockAmong (name key : Bytes) : List Host → Prog (Option Host)
  | [] => pure (some cfg.this)
  | owner :: owners =>
    if owner = cfg.this then findLockAmong name key owners
    else do
      match ← act (.request owner (.findLock name key)) with
      | .ok _ => pure (some owner)
      | .noSuchLock => findLockAmong name key owners
      | _ => pure none

/-- The owners are asked from the latest to the first. The read lock of the partition, which is
held meanwhile, is left out: it only makes others wait. -/
def findLockKey (hkey : UInt64) (name key : Bytes) : Prog (Option Host) := do
  let owners ← act (.owners (cfg.place false hkey))
  if owners = [cfg.this] then pure (some cfg.this) else cfg.findLockAmong name key owners.reverse

def lockKey (hkey : UInt64) (name key : Bytes) (timeout : Int64) : Prog Response := do
  match ← cfg.getDMap (cfg.place false hkey) name with
  | none => pure .failed
  | some r =>
    if ← act (.lockerCheck r key) then grantLock r key timeout
    else
      match ← cfg.findLockKey hkey name key with
      | none => pure .failed
      | some owner =>
        if owner = cfg.this then grantLock r key timeout
        else act (.request owner (.lockPrev name key timeout))

def unlockKey (hkey : UInt64) (name key : Bytes) : Prog Response := do
  match ← cfg.findLockKey hkey name key with
  | none => pure .failed
  | some owner =>
    if owner = cfg.this then
      match ← cfg.getDMap (cfg.place false hkey) name with
      | none => pure .failed
      | some r => releaseLock r key
    else act (.request owner (.unlockPrev name key))

def findLockOperation (hkey : UInt64) (name key : Bytes) : Prog Response := do
  match ← cfg.getDMap (cfg.place false hkey) name with
  | none => pure .failed
  | some r => if ← act (.lockerCheck r key) then pure (.ok []) else pure .noSuchLock

def lockPrevOperation (hkey : UInt64) (name key : Bytes) (timeout : Int64) : Prog Response := do
  match ← cfg.getDMap (cfg.place false hkey) name with
  | none => pure .failed
  | some r => grantLock r key timeout

def unlockPrevOperation (hkey : UInt64) (name key : Bytes) : Prog Response := do
  match ← cfg.getDMap (cfg.place false hkey) name with
  | none => pure .failed
  | some r => releaseLock r key

/-- The owner that clients are sent to. -/
def locateHKey (hkey : UInt64) : Prog (Option Host) := do
  let owners ← act (.owners (cfg.place false hkey))
  pure owners.getLast?

/-- Operations of clients run on the primary owner. -/
def onOwner (hkey : UInt64) (op : ClientOp) (here : Prog Response) : Prog Response := do
  match ← cfg.locateHKey hkey with
  | none => pure .failed
  | some member => if member = cfg.this then here else act (.request member (.external op))

def put (name key value : Bytes) (timeout : Int64) : Prog Response :=
  let hkey := getHKey sum64 name key
  cfg.onOwner hkey (.put name key value timeout) (cfg.putKeyVal hkey name key value timeout)

def get (name key : Bytes) : Prog Response :=
  let hkey := getHKey sum64 name key
  cfg.onOwner hkey (.get name key) (cfg.getKeyVal hkey name key)

/-- The source calls this `deleteKey`, too; the part on the owner has that name here. -/
def delete (name key : Bytes) : Prog Response :=
  let hkey := getHKey sum64 name key
  cfg.onOwner hkey (.delete name key) (cfg.deleteKey hkey name key)

def lockWithTimeout (name key : Bytes) (timeout : Int64) : Prog Response :=
  let hkey := getHKey sum64 name key
  cfg.onOwner hkey (.lockWithTimeout name key timeout) (cfg.lockKey hkey name key timeout)

def unlock (name key : Bytes) : Prog Response :=
  let hkey := getHKey sum64 name key
  cfg.onOwner hkey (.unlock name key) (cfg.unlockKey hkey name key)

/-- The `ex` operations. Errors without a status of their own are internal server errors. -/
def clientOperation : ClientOp → Prog Response
  | .put name key value timeout => do
    match ← cfg.put sum64 name key value timeout with
    | .ok _ => pure (.ok [])
    | _ => pure .failed
  | .get name key => do
    match ← cfg.get sum64 name key with
    | .noSuchLock => pure .failed
    | answer => pure answer
  | .delete name key => do
    match ← cfg.delete sum64 name key with
    | .ok _ => pure (.ok [])
    | _ => pure .failed
  | .lockWithTimeout name key timeout => do
    match ← cfg.lockWithTimeout sum64 name key timeout with
    | .ok _ => pure (.ok [])
    | _ => pure .failed
  | .unlock name key => do
    match ← cfg.unlock sum64 name key with
    | .ok _ => pure (.ok [])
    | .noSuchLock => pure .noSuchLock
    | _ => pure .failed

/-- What an operation of a client does on the owner. -/
def here : ClientOp → Prog Response
  | .put name key value timeout => cfg.putKeyVal (getHKey sum64 name key) name key value timeout
  | .get name key => cfg.getKeyVal (getHKey sum64 name key) name key
  | .delete name key => cfg.deleteKey (getHKey sum64 name key) name key
  | .lockWithTimeout name key timeout => cfg.lockKey (getHKey sum64 name key) name key timeout
  | .unlock name key => cfg.unlockKey (getHKey sum64 name key) name key

/-- Every operation finds the owner, runs there, and makes an answer of the outcome. -/
theorem clientOperation_eq (op : ClientOp) : ∃ answer : Response → Response,
    cfg.clientOperation sum64 op = (cfg.onOwner (op.hkey sum64) op (cfg.here sum64 op)).bind fun r =>
      .ret (answer r) := by
  have answers (prog : Prog Response) (rest : Response → Prog Response) (ends : ∀ r, ∃ a, rest r = .ret a) :
      ∃ answer : Response → Response, prog.bind rest = prog.bind fun r => .ret (answer r) := by
    choose answer same using ends
    exact ⟨answer, congrArg prog.bind (funext same)⟩
  cases op <;> exact answers _ _ fun r => by cases r <;> exact ⟨_, rfl⟩

end Config

end Olric
