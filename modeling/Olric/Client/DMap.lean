import Olric.Cluster.Wire

namespace Olric

def statusKeyNotFound : UInt8 := 2
def statusNoSuchLock : UInt8 := 3

/-- What an empty interface holds. Only an `int` is ever looked at. -/
inductive Interface (A : Type)
  | nil
  | int (n : Int64)
  | other (a : A)

/-- The type assertion to `int`. -/
def Interface.toInt {A : Type} : Interface A → Except Halt Int64
  | .int n => .ok n
  | _ => .error .panic

/-- The errors of the serializer and of the transport are passed on. -/
inductive ClientError (E : Type)
  | passed (e : E)
  | keyNotFound
  | noSuchLock

/-- A DMap of the client package. `Unmarshal` leaves something in its variable also when it fails, and
`request` is the outcome of `Request` for a message: a response, or an error of the transport. -/
structure RemoteDMap (A E : Type) where
  name : Bytes
  marshal : Interface A → Except E Bytes
  unmarshal : Bytes → Interface A × Option E
  request : Message → Except E Message

/-- The value and the error that a method returns. -/
abbrev Returned (E α : Type) := Except Halt (α × Option (ClientError E))

namespace RemoteDMap

variable {A E : Type} (d : RemoteDMap A E)

/-- The error of `Request` is returned, and its response is not looked at. -/
def errorOf (outcome : Except E Message) : Returned E Unit :=
  match outcome with
  | .error e => .ok ((), some (.passed e))
  | .ok _ => .ok ((), none)

/-- What `Get` and `GetPut` return for a value that they have got. -/
def unmarshalled (raw : Bytes) : Interface A × Option (ClientError E) :=
  match d.unmarshal raw with
  | (_, some e) => (.nil, some (.passed e))
  | (value, none) => (value, none)

def get (key : Bytes) : Returned E (Interface A) :=
  match d.request (requestMessage OpCode.exGet none d.name key []) with
  | .error e => .ok (.nil, some (.passed e))
  | .ok resp =>
    if resp.status = statusKeyNotFound then .ok (.nil, some .keyNotFound) else .ok (d.unmarshalled resp.value)

def put (key : Bytes) (value : Interface A) : Returned E Unit :=
  match d.marshal value with
  | .error e => .ok ((), some (.passed e))
  | .ok data => errorOf (d.request (requestMessage OpCode.exPut none d.name key data))

def putEx (key : Bytes) (value : Interface A) (timeout : Int64) : Returned E Unit :=
  match d.marshal value with
  | .error e => .ok ((), some (.passed e))
  | .ok data => errorOf (d.request (requestMessage OpCode.exPutEx (some (.putEx timeout)) d.name key data))

def delete (key : Bytes) : Returned E Unit := errorOf (d.request (requestMessage OpCode.exDelete none d.name key []))

def lockWithTimeout (key : Bytes) (timeout : Int64) : Returned E Unit :=
  errorOf (d.request (requestMessage OpCode.exLockWithTimeout (some (.lockWithTimeout timeout)) d.name key []))

/-- Without a response the pointer to it is nil. -/
def unlock (key : Bytes) : Returned E Unit :=
  match d.request (requestMessage OpCode.exUnlock none d.name key []) with
  | .error _ => .error .panic
  | .ok resp => if resp.status = statusNoSuchLock then .ok ((), some .noSuchLock) else .ok ((), none)

def destroy : Returned E Unit := errorOf (d.request (requestMessage OpCode.exDestroy none d.name [] []))

def incrDecr (op : UInt8) (key : Bytes) (delta : Int64) : Returned E Int64 :=
  match d.marshal (.int delta) with
  | .error e => .ok (0, some (.passed e))
  | .ok value =>
    match d.request (requestMessage op none d.name key value) with
    | .error e => .ok (0, some (.passed e))
    | .ok resp =>
      let res := d.unmarshal resp.value
      res.1.toInt.map fun n => (n, res.2.map .passed)

def incr (key : Bytes) (delta : Int64) : Returned E Int64 := d.incrDecr OpCode.exIncr key delta

def decr (key : Bytes) (delta : Int64) : Returned E Int64 := d.incrDecr OpCode.exDecr key delta

def getPut (key : Bytes) (value : Interface A) : Returned E (Interface A) :=
  match d.marshal value with
  | .error e => .ok (.nil, some (.passed e))
  | .ok data =>
    match d.request (requestMessage OpCode.exGetPut none d.name key data) with
    | .error e => .ok (.nil, some (.passed e))
    | .ok resp =>
      if resp.value.length ≠ 0 then .ok (d.unmarshalled resp.value) else .ok (.nil, none)

end RemoteDMap

/-- The calls of the methods. -/
inductive DMapCall (A : Type)
  | get (key : Bytes)
  | put (key : Bytes) (value : Interface A)
  | putEx (key : Bytes) (value : Interface A) (timeout : Int64)
  | delete (key : Bytes)
  | lockWithTimeout (key : Bytes) (timeout : Int64)
  | unlock (key : Bytes)
  | destroy
  | incr (key : Bytes) (delta : Int64)
  | decr (key : Bytes) (delta : Int64)
  | getPut (key : Bytes) (value : Interface A)

namespace RemoteDMap

variable {A E : Type} (d : RemoteDMap A E)

/-- The error that a call returns. -/
def call : DMapCall A → Except Halt (Option (ClientError E))
  | .get key => (d.get key).map Prod.snd
  | .put key value => (d.put key value).map Prod.snd
  | .putEx key value timeout => (d.putEx key value timeout).map Prod.snd
  | .delete key => (d.delete key).map Prod.snd
  | .lockWithTimeout key timeout => (d.lockWithTimeout key timeout).map Prod.snd
  | .unlock key => (d.unlock key).map Prod.snd
  | .destroy => d.destroy.map Prod.snd
  | .incr key delta => (d.incr key delta).map Prod.snd
  | .decr key delta => (d.decr key delta).map Prod.snd
  | .getPut key value => (d.getPut key value).map Prod.snd

/-- The message of a call, unless its value cannot be marshalled. -/
def message : DMapCall A → Except E Message
  | .get key => .ok (requestMessage OpCode.exGet none d.name key [])
  | .put key value => (d.marshal value).map (requestMessage OpCode.exPut none d.name key)
  | .putEx key value timeout =>
    (d.marshal value).map (requestMessage OpCode.exPutEx (some (.putEx timeout)) d.name key)
  | .delete key => .ok (requestMessage OpCode.exDelete none d.name key [])
  | .lockWithTimeout key timeout =>
    .ok (requestMessage OpCode.exLockWithTimeout (some (.lockWithTimeout timeout)) d.name key [])
  | .unlock key => .ok (requestMessage OpCode.exUnlock none d.name key [])
  | .destroy => .ok (requestMessage OpCode.exDestroy none d.name [] [])
  | .incr key delta => (d.marshal (.int delta)).map (requestMessage OpCode.exIncr none d.name key)
  | .decr key delta => (d.marshal (.int delta)).map (requestMessage OpCode.exDecr none d.name key)
  | .getPut key value => (d.marshal value).map (requestMessage OpCode.exGetPut none d.name key)

/-- The response that a call gets, or the error that keeps it from getting one. -/
def outcome (c : DMapCall A) : Except E Message := (d.message c).bind d.request

/-- The call does not panic, and returns no error only if the response has the status OK. -/
def Reports (c : DMapCall A) : Prop :=
  ∃ err, d.call c = .ok err ∧ (err = none → ∃ resp, d.outcome c = .ok resp ∧ resp.status = statusOK)

/-- The value of the response cannot be unmarshalled. -/
def Garbled (resp : Message) : Prop := (d.unmarshal resp.value).2 ≠ none

/-- The responses that a method makes the right error of, or none. -/
def Understands (c : DMapCall A) (resp : Message) : Prop :=
  match c with
  | .get _ => resp.status = statusOK ∨ resp.status = statusKeyNotFound ∨ d.Garbled resp
  | .unlock _ => resp.status = statusOK ∨ resp.status = statusNoSuchLock
  | .incr .. | .decr .. => (∃ n, (d.unmarshal resp.value).1 = .int n) ∧ (resp.status = statusOK ∨ d.Garbled resp)
  | .getPut .. => resp.status = statusOK ∨ resp.value ≠ [] ∧ d.Garbled resp
  | .put .. | .putEx .. | .delete _ | .lockWithTimeout .. | .destroy => resp.status = statusOK

/-- `Unlock` has to get a response. -/
def Covers (c : DMapCall A) : Prop :=
  match d.outcome c with
  | .error _ => ∀ key, c ≠ .unlock key
  | .ok resp => d.Understands c resp

/-- What a method makes of an outcome. -/
def conclude (c : DMapCall A) (outcome : Except E Message) : Except Halt (Option (ClientError E)) :=
  match outcome with
  | .error e =>
    match c with
    | .unlock _ => .error .panic
    | _ => .ok (some (.passed e))
  | .ok resp =>
    match c with
    | .get _ =>
      .ok (if resp.status = statusKeyNotFound then some .keyNotFound else (d.unmarshal resp.value).2.map .passed)
    | .unlock _ => .ok (if resp.status = statusNoSuchLock then some .noSuchLock else none)
    | .incr .. | .decr .. => (d.unmarshal resp.value).1.toInt.map fun _ => (d.unmarshal resp.value).2.map .passed
    | .getPut .. => .ok (if resp.value.length ≠ 0 then (d.unmarshal resp.value).2.map .passed else none)
    | _ => .ok none

theorem unmarshalled_snd (raw : Bytes) : (d.unmarshalled raw).2 = (d.unmarshal raw).2.map .passed := by
  unfold unmarshalled
  split
  · next failed => rw [failed]; rfl
  · next done => rw [done]; rfl

theorem incrDecr_snd (op : UInt8) (key : Bytes) (delta : Int64) :
    (d.incrDecr op key delta).map Prod.snd =
      d.conclude (.incr key delta) (((d.marshal (.int delta)).map (requestMessage op none d.name key)).bind
        d.request) := by
  unfold incrDecr
  cases d.marshal (.int delta) with
  | error e => rfl
  | ok value =>
    simp only [Except.map, Except.bind]
    cases d.request (requestMessage op none d.name key value) with
    | error e => rfl
    | ok resp =>
      simp only [conclude]
      cases (d.unmarshal resp.value).1 <;> rfl

/-- The methods look at nothing but the outcome of their request. -/
theorem call_eq (c : DMapCall A) : d.call c = d.conclude c (d.outcome c) := by
  cases c with
  | get key =>
    simp only [call, get, outcome, message, Except.bind]
    cases d.request (requestMessage OpCode.exGet none d.name key []) with
    | error e => rfl
    | ok resp =>
      by_cases missing : resp.status = statusKeyNotFound <;> simp [conclude, missing, Except.map, unmarshalled_snd]
  | put key value =>
    simp only [call, put, outcome, message]
    cases d.marshal value with
    | error e => rfl
    | ok data =>
      simp only [Except.map, Except.bind]
      cases d.request (requestMessage OpCode.exPut none d.name key data) <;> rfl
  | putEx key value timeout =>
    simp only [call, putEx, outcome, message]
    cases d.marshal value with
    | error e => rfl
    | ok data =>
      simp only [Except.map, Except.bind]
      cases d.request (requestMessage OpCode.exPutEx (some (.putEx timeout)) d.name key data) <;> rfl
  | delete key =>
    simp only [call, delete, outcome, message, Except.bind]
    cases d.request (requestMessage OpCode.exDelete none d.name key []) <;> rfl
  | lockWithTimeout key timeout =>
    simp only [call, lockWithTimeout, outcome, message, Except.bind]
    cases d.request (requestMessage OpCode.exLockWithTimeout (some (.lockWithTimeout timeout)) d.name key []) <;> rfl
  | unlock key =>
    simp only [call, unlock, outcome, message, Except.bind]
    cases d.request (requestMessage OpCode.exUnlock none d.name key []) with
    | error e => rfl
    | ok resp => by_cases missing : resp.status = statusNoSuchLock <;> simp [conclude, missing, Except.map]
  | destroy =>
    simp only [call, destroy, outcome, message, Except.bind]
    cases d.request (requestMessage OpCode.exDestroy none d.name [] []) <;> rfl
  | incr key delta => exact d.incrDecr_snd OpCode.exIncr key delta
  | decr key delta => exact d.incrDecr_snd OpCode.exDecr key delta
  | getPut key value =>
    simp only [call, getPut, outcome, message]
    cases d.marshal value with
    | error e => rfl
    | ok data =>
      simp only [Except.map, Except.bind]
      cases d.request (requestMessage OpCode.exGetPut none d.name key data) with
      | error e => rfl
      | ok resp => by_cases empty : resp.value = [] <;> simp [conclude, empty, unmarshalled_snd]

/-- Exactly these outcomes make a method return an error whenever the status is not OK. -/
theorem reports_iff (c : DMapCall A) : d.Reports c ↔ d.Covers c := by
  unfold Reports Covers
  rw [call_eq]
  cases d.outcome c with
  | error e => cases c <;> simp [conclude]
  | ok resp =>
    cases c with
    | put | putEx | delete | lockWithTimeout | destroy => simp [conclude, Understands]
    | unlock key =>
      by_cases missing : resp.status = statusNoSuchLock <;> simp [conclude, Understands, missing]
    | get key =>
      by_cases missing : resp.status = statusKeyNotFound <;>
        simp [conclude, Understands, Garbled, missing, or_iff_not_imp_right]
    | incr | decr =>
      cases res : (d.unmarshal resp.value).1 <;>
        simp [conclude, Understands, Garbled, res, Interface.toInt, Except.map, or_iff_not_imp_right]
    | getPut key value =>
      by_cases empty : resp.value = [] <;> simp [conclude, Understands, Garbled, empty, or_iff_not_imp_right]

/-- A server that fails to put: the error is lost in `Put` and makes `Incr` panic. Without a server
`Unlock` panics. -/
theorem failures_not_reported :
    ∃ failing unreachable : RemoteDMap Unit Unit,
      (∀ m, ∃ resp, failing.request m = .ok resp ∧ resp.status = statusInternalServerError) ∧
      (∀ m, unreachable.request m = .error ()) ∧
      failing.call (.put [107] (.int 1)) = .ok none ∧ failing.call (.incr [107] 1) = .error .panic ∧
      unreachable.call (.unlock [107]) = .error .panic := by
  refine ⟨⟨[109], fun _ => .ok [1], fun _ => (.nil, some ()),
    fun m => .ok (m.toHeader.error statusInternalServerError "failed")⟩,
    ⟨[109], fun _ => .ok [1], fun _ => (.nil, some ()), fun _ => .error ()⟩, fun m => ⟨_, rfl, rfl⟩, fun _ => rfl, ?_⟩
  exact ⟨rfl, rfl, rfl⟩

end RemoteDMap

end Olric
