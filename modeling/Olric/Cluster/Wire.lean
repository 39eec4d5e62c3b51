import Olric.Node.Maintenance
import Olric.Protocol.Stream

namespace Olric

/-- A message as `requestTo` completes it. -/
def requestMessage (op : UInt8) (extra : Option Extra) (dmap key value : Bytes) : Message where
  toHeader := ⟨magicReq, op, 0, 0, 0, 0, 0⟩
  extra := extra
  dmap := dmap
  key := key
  value := value

def ClientOp.message : ClientOp → Message
  | .put name key value timeout =>
    if timeout = 0 then requestMessage OpCode.exPut none name key value
    else requestMessage OpCode.exPutEx (some (.putEx timeout)) name key value
  | .get name key => requestMessage OpCode.exGet none name key []
  | .delete name key => requestMessage OpCode.exDelete none name key []
  | .lockWithTimeout name key timeout =>
    requestMessage OpCode.exLockWithTimeout (some (.lockWithTimeout timeout)) name key []
  | .unlock name key => requestMessage OpCode.exUnlock none name key []

/-- The messages of the requests about a key. -/
def Request.message : Request → Option Message
  | .deletePrev name key => some (requestMessage OpCode.deletePrev none name key [])
  | .getPrev name key => some (requestMessage OpCode.getPrev none name key [])
  | .putBackup name key value timeout =>
    some (requestMessage OpCode.putBackup (timeout.map .putEx) name key value)
  | .deleteBackup name key => some (requestMessage OpCode.deleteBackup none name key [])
  | .getBackup name key => some (requestMessage OpCode.getBackup none name key [])
  | .moveDMap _ _ => none
  | .findLock name key => some (requestMessage OpCode.findLock none name key [])
  | .lockPrev name key timeout => some (requestMessage OpCode.lockPrev (some (.lockWithTimeout timeout)) name key [])
  | .unlockPrev name key => some (requestMessage OpCode.unlockPrev none name key [])
  | .external op => some op.message

/-- The TTL in a `PutExExtra` and in a `LockWithTimeoutExtra`. -/
def Extra.putExTTL : Extra → Option Int64
  | .putEx ttl => some ttl
  | _ => none

def Extra.lockTTL : Extra → Option Int64
  | .lockWithTimeout ttl => some ttl
  | _ => none

/-- What the operation that is registered for the opcode takes from a message. An operation that
needs an extra panics without it. -/
def Message.request (m : Message) : Option Request :=
  if m.op = OpCode.exPut then some (.external (.put m.dmap m.key m.value 0))
  else if m.op = OpCode.exPutEx then
    (m.extra.bind Extra.putExTTL).map fun ttl => .external (.put m.dmap m.key m.value ttl)
  else if m.op = OpCode.exGet then some (.external (.get m.dmap m.key))
  else if m.op = OpCode.exDelete then some (.external (.delete m.dmap m.key))
  else if m.op = OpCode.exLockWithTimeout then
    (m.extra.bind Extra.lockTTL).map fun ttl => .external (.lockWithTimeout m.dmap m.key ttl)
  else if m.op = OpCode.exUnlock then some (.external (.unlock m.dmap m.key))
  else if m.op = OpCode.putBackup then some (.putBackup m.dmap m.key m.value (m.extra.bind Extra.putExTTL))
  else if m.op = OpCode.deletePrev then some (.deletePrev m.dmap m.key)
  else if m.op = OpCode.getPrev then some (.getPrev m.dmap m.key)
  else if m.op = OpCode.getBackup then some (.getBackup m.dmap m.key)
  else if m.op = OpCode.findLock then some (.findLock m.dmap m.key)
  else if m.op = OpCode.lockPrev then (m.extra.bind Extra.lockTTL).map fun ttl => .lockPrev m.dmap m.key ttl
  else if m.op = OpCode.unlockPrev then some (.unlockPrev m.dmap m.key)
  else if m.op = OpCode.deleteBackup then some (.deleteBackup m.dmap m.key)
  else none

/-- The request as it arrives after `Write` and `Read`, if the message is not refused. -/
def Message.received (maxValueSize : Int) (m : Message) : Option Request :=
  match Message.read maxValueSize m.write with
  | .ok q _ => q.request
  | _ => none

/-- The same for any request. A moved dmap is in the value, and its size is not limited here. -/
def Request.arrives (maxValueSize : Int) (req : Request) : Option Request :=
  match req.message with
  | some m => m.received maxValueSize
  | none => some req

/-- The operation that serves a request, as it arrives. -/
def Config.serve (cfg : Config) (sum64 : Bytes → UInt64) (maxValueSize : Int) (req : Request) : Prog Response :=
  match req.arrives maxValueSize with
  | some req => cfg.handle sum64 req
  | none => .ret .failed

theorem Config.serve_of_arrives {cfg : Config} {sum64 : Bytes → UInt64} {maxValueSize : Int} {req req' : Request}
    (arrives : req.arrives maxValueSize = some req') : cfg.serve sum64 maxValueSize req = cfg.handle sum64 req' := by
  rw [Config.serve, arrives]

/-- A request with everything that the reader decodes. It skips the extra of a backup put. -/
def Request.decoded : Request → Request
  | .putBackup name key value _ => .putBackup name key value none
  | req => req

theorem putBackup_read (e : Extra) : readExtra OpCode.putBackup e.encode = .ok none := by
  simp [readExtra, OpCode.putBackup, OpCode.exPutEx, OpCode.exLockWithTimeout, OpCode.lockPrev, OpCode.isPartEmpty,
    OpCode.isBackupEmpty]

/-- A message and what `Read` makes of it stand for the same request up to the decoding. -/
theorem Request.request_of_read {req : Request} {m q : Message} (message : req.message = some m)
    (own : q.op = m.op ∧ q.dmap = m.dmap ∧ q.key = m.key ∧ q.value = m.value) (extra : m.extraRead = .ok q.extra) :
    q.request = some req.decoded := by
  obtain ⟨sameOp, sameDMap, sameKey, sameValue⟩ := own
  have absent (none_ : m.extra = none) : q.extra = none := by
    rw [Message.extraRead, none_] at extra
    exact (Except.ok.inj extra).symm
  have present {e e' : Extra} (some_ : m.extra = some e) (decoded : readExtra m.op e.encode = .ok (some e')) :
      q.extra = some e' := by
    rw [Message.extraRead, some_, Option.elim_some, decoded] at extra
    exact (Except.ok.inj extra).symm
  unfold Message.request
  rw [sameOp, sameDMap, sameKey, sameValue]
  cases req with
  | putBackup name key value timeout =>
    cases message
    have nothing : q.extra = none := by
      cases timeout with
      | none => exact absent rfl
      | some ttl =>
        rw [Message.extraRead] at extra
        exact (Except.ok.inj ((putBackup_read _).symm.trans extra)).symm
    rw [nothing]
    rfl
  | lockPrev name key timeout =>
    cases message
    rw [present rfl (readExtra_belongs (.inr rfl))]
    rfl
  | external clientOp =>
    cases message
    cases clientOp with
    | put name key value timeout =>
      by_cases zero : timeout = 0
      · subst zero
        rfl
      · have ex : (ClientOp.put name key value timeout).message =
          requestMessage OpCode.exPutEx (some (.putEx timeout)) name key value := if_neg zero
        rw [ex] at present ⊢
        rw [present rfl (readExtra_belongs rfl)]
        rfl
    | lockWithTimeout name key timeout =>
      rw [present rfl (readExtra_belongs (.inl rfl))]
      rfl
    | get | delete | unlock => rfl
  | moveDMap => cases message
  | deletePrev | getPrev | deleteBackup | getBackup | findLock | unlockPrev =>
    cases message
    rfl

/-- Every request about a key arrives as it was sent, except that a backup put loses its timeout. -/
theorem Request.received_eq {req : Request} {m : Message} {maxValueSize : Int} (message : req.message = some m)
    (request : m.IsRequest) (small : m.value.length ≤ maxValueSize) (framed : m.Framed) :
    m.received maxValueSize = some req.decoded := by
  obtain ⟨q, own, extra, read⟩ := Message.read_framed request small framed
  have whole := read []
  rw [List.append_nil] at whole
  unfold Message.received
  rw [whole]
  exact Request.request_of_read message own extra

/-- The request is not refused on its way. -/
def Request.Fits (maxValueSize : Int) (req : Request) : Prop :=
  ∃ m, req.message = some m ∧ m.IsRequest ∧ m.value.length ≤ maxValueSize ∧ m.Framed

theorem Request.Fits.arrives {req : Request} {maxValueSize : Int} (fits : req.Fits maxValueSize) :
    req.arrives maxValueSize = some req.decoded := by
  obtain ⟨m, message, request, small, framed⟩ := fits
  rw [Request.arrives, message]
  exact Request.received_eq message request small framed

/-- The requests that carry a name and a key only. -/
theorem Request.fits_of_short {req : Request} {maxValueSize : Int} {op : UInt8} {name key : Bytes}
    (message : req.message = some (requestMessage op none name key [])) (nameShort : name.length < 65536)
    (keyShort : key.length < 65536) (sizes : 0 ≤ maxValueSize) : req.Fits maxValueSize := by
  refine ⟨_, message, ⟨rfl, nameShort, keyShort⟩, sizes, ?_, .inr rfl⟩
  have body : (requestMessage op none name key []).body = name ++ key := by simp [requestMessage, Message.body]
  rw [body, List.length_append]
  omega

end Olric
