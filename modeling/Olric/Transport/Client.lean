import Olric.Lib.Transitions
import Olric.Protocol.Accepted
import Olric.Protocol.Stream

namespace Olric

namespace Message

/-- `Read` needs more bytes than there are. It blocks until the server sends them. -/
def Waits (maxValueSize : Int) (conn : Bytes) : Prop :=
  conn.length < headerSize ∨
    ((header conn).magic = magicReq ∨ (header conn).magic = magicRes) ∧ valueLen (header conn) ≤ maxValueSize ∧
      (conn.drop headerSize).length < (header conn).bodyLen.toNat

instance (maxValueSize : Int) (conn : Bytes) : Decidable (Waits maxValueSize conn) :=
  inferInstanceAs (Decidable (_ ∨ (_ ∨ _) ∧ _ ∧ _))

theorem header_write (m : Message) (rest : Bytes) : header (m.write ++ rest) = m.writeHeader := by
  have taken : (m.write ++ rest).take headerSize = m.writeHeader.encode := by
    simp [write, ← m.writeHeader.encode_length]
  rw [header, taken, Header.decode_encode]

/-- With a whole message at its front, nothing is missing. -/
theorem not_waits {m : Message} (framed : m.Framed) (maxValueSize : Int) (rest : Bytes) :
    ¬ Waits maxValueSize (m.write ++ rest) := by
  have long := m.writeHeader.encode_length
  have total := (bodyLen_eq_iff m).2 framed
  have dropped : (m.write ++ rest).drop headerSize = m.body ++ rest := by simp [write, ← long]
  rintro (missing | ⟨_, _, missing⟩)
  · simp only [write, List.length_append] at missing
    omega
  · rw [header_write, dropped, total, List.length_append] at missing
    omega

end Message

/-- The client's end of a connection: what the server has sent and no one has read. A connection that is
`broken` fails in every further use. -/
structure Conn where
  unread : Bytes
  broken : Bool
deriving DecidableEq

/-- What happens between `Get` and the deferred `Close`: the whole request gets to the server, which
sends its response; an error in `Write` before anything is sent; or an error of the connection. -/
inductive Delivery
  | sent
  | notSent
  | lost
deriving DecidableEq

/-- A call of `RequestTo`, by what it meets: the outcome of dialling, should that be necessary, and the
response that the server sends if it gets the request. -/
structure ClientCall where
  dialOk : Bool
  delivery : Delivery
  response : Message

namespace Client

def newConn : Conn := ⟨[], false⟩

/-- `req.Write(conn)` and `resp.Read(conn)`. No message means an error. -/
def roundTrip (maxValueSize : Int) (call : ClientCall) (conn : Conn) : Except Halt (Option Message × Conn) :=
  if conn.broken then .ok (none, conn)
  else
    match call.delivery with
    | .notSent => .ok (none, conn)
    | .lost => .ok (none, { conn with broken := true })
    | .sent =>
      let arrived := conn.unread ++ call.response.write
      if Message.Waits maxValueSize arrived then .error .running
      else
        match Message.read maxValueSize arrived with
        | .ok resp rest => .ok (some resp, { conn with unread := rest })
        | .error _ _ rest => .ok (none, { conn with unread := rest })
        | .panic => .error .panic

/-- `Close` of a pooled connection: it goes back into the channel unless that is full. -/
def put (maxConn : Nat) (pool : List Conn) (conn : Conn) : List Conn :=
  if pool.length < maxConn then pool ++ [conn] else pool

/-- `Get` receives the connection that has been idle for the longest time, or dials. -/
def get (dialOk : Bool) : List Conn → Option (Conn × List Conn)
  | conn :: pool => some (conn, pool)
  | [] => if dialOk then some (newConn, []) else none

/-- `RequestTo`, with the idle connections to the address. The connection is closed on every path. -/
def requestTo (maxValueSize : Int) (maxConn : Nat) (call : ClientCall) (pool : List Conn) :
    Except Halt (Option Message × List Conn) :=
  match get call.dialOk pool with
  | none => .ok (none, pool)
  | some (conn, pool) => (roundTrip maxValueSize call conn).map fun r => (r.1, put maxConn pool r.2)

/-- Calls one after the other, each with what it returns. The pool begins with new connections. -/
def system (maxValueSize : Int) (maxConn : Nat) : Transitions (List Conn) (ClientCall × Option Message) where
  init pool := ∀ conn ∈ pool, conn = newConn
  step pool label pool' := requestTo maxValueSize maxConn label.1 pool = .ok (label.2, pool')

variable {maxValueSize : Int} {maxConn : Nat} {call : ClientCall} {returned : Option Message}

/-- Nothing that a later call could take for its response is left. -/
def Clean (conn : Conn) : Prop := conn.broken = true ∨ conn.unread = []

theorem roundTrip_clean {conn conn' : Conn} (sendable : call.response.Sendable maxValueSize)
    (run : roundTrip maxValueSize call conn = .ok (returned, conn')) (clean : Clean conn) :
    Clean conn' ∧ ∀ m, returned = some m → m = call.response.written := by
  unfold roundTrip at run
  split at run
  · cases run
    exact ⟨clean, by rintro _ ⟨⟩⟩
  next open_ =>
    have empty : conn.unread = [] := clean.resolve_left open_
    split at run
    · cases run
      exact ⟨clean, by rintro _ ⟨⟩⟩
    · cases run
      exact ⟨.inl rfl, by rintro _ ⟨⟩⟩
    · dsimp only at run
      split at run
      · cases run
      · have read := Message.read_sendable sendable []
        rw [List.append_nil] at read
        rw [empty, List.nil_append, read] at run
        cases run
        exact ⟨.inr rfl, fun m same => (Option.some.inj same).symm⟩

theorem requestTo_clean {pool pool' : List Conn} (sendable : call.response.Sendable maxValueSize)
    (run : requestTo maxValueSize maxConn call pool = .ok (returned, pool')) (clean : ∀ conn ∈ pool, Clean conn) :
    (∀ conn ∈ pool', Clean conn) ∧ ∀ m, returned = some m → m = call.response.written := by
  unfold requestTo at run
  cases got : get call.dialOk pool with
  | none =>
    rw [got] at run
    cases run
    exact ⟨clean, by rintro _ ⟨⟩⟩
  | some taken =>
    obtain ⟨conn, left⟩ := taken
    have before : Clean conn ∧ ∀ conn ∈ left, Clean conn := by
      unfold get at got
      split at got
      · cases got
        exact List.forall_mem_cons.1 clean
      · split at got
        · cases got
          exact ⟨.inr rfl, nofun⟩
        · cases got
    rw [got] at run
    dsimp only at run
    cases trip : roundTrip maxValueSize call conn with
    | error halt =>
      rw [trip] at run
      cases run
    | ok result =>
      rw [trip] at run
      cases run
      obtain ⟨after, own⟩ := roundTrip_clean sendable trip before.1
      refine ⟨?_, own⟩
      unfold put
      split
      · exact List.forall_mem_append.2 ⟨before.2, List.forall_mem_singleton.2 after⟩
      · exact before.2

/-- As long as every response can be read, each call that returns a response returns its own one, and
leaves nothing unread on a connection that can be used again. -/
theorem responses_own {history : List (ClientCall × Option Message)} {pool : List Conn}
    (run : (system maxValueSize maxConn).Run (fun _ label => label.1.response.Sendable maxValueSize) history pool) :
    (∀ call returned, (call, some returned) ∈ history → returned = call.response.written) ∧
      ∀ conn ∈ pool, conn.broken = true ∨ conn.unread = [] := by
  refine run.history_invariant (fun history pool => (∀ call returned, (call, some returned) ∈ history →
    returned = call.response.written) ∧ ∀ conn ∈ pool, Clean conn) ?_ ?_
  · intro pool new
    refine ⟨fun _ _ mem => absurd mem List.not_mem_nil, fun conn mem => ?_⟩
    rw [new conn mem]
    exact .inr rfl
  · rintro history pool ⟨call, result⟩ pool' ⟨own, clean⟩ sendable step
    obtain ⟨clean', ownNow⟩ := requestTo_clean sendable step clean
    refine ⟨fun call' returned mem => ?_, clean'⟩
    rcases List.mem_append.1 mem with earlier | now
    · exact own call' returned earlier
    · cases List.mem_singleton.1 now
      exact ownNow returned rfl

/-- A response with a value, as `Success` and the handlers make it. -/
def response (value : Bytes) : Message := { Header.success ⟨magicReq, OpCode.exGet, 0, 0, 0, 0, 0⟩ with value }

theorem response_sendable {value : Bytes} (small : value.length ≤ maxValueSize) (short : value.length < 2 ^ 32) :
    (response value).Sendable maxValueSize where
  magic := .inr rfl
  dmapShort := by simp [response, Header.success]
  keyShort := by simp [response, Header.success]
  small := small
  short := by simpa [Message.body, response, Header.success] using short
  extra := .inl ⟨rfl, rfl⟩

theorem response_framed {value : Bytes} (short : value.length < 2 ^ 32) : (response value).Framed :=
  ⟨by simpa [Message.body, response, Header.success] using short, .inr rfl⟩

/-- A call with a new connection, and another one with the connection that the first has put back. -/
theorem responses_own_twice : ∃ first second pool,
    (system 1048576 8).Run (fun _ label => label.1.response.Sendable 1048576)
      [(⟨true, .sent, response [1]⟩, some first), (⟨true, .sent, response [2]⟩, some second)] pool ∧
      first = (response [1]).written ∧ second = (response [2]).written := by
  have sendable (b : UInt8) : (response [b]).Sendable 1048576 := response_sendable (by simp) (by simp)
  have start : (system 1048576 8).Run (fun _ label => label.1.response.Sendable 1048576) [] [] :=
    .start (by simp [system])
  have once := start.andThenAllowed (⟨true, .sent, response [1]⟩, some (response [1]).written) (sendable 1)
    (show requestTo _ _ _ _ = .ok (_, [newConn]) by decide)
  have twice := once.andThenAllowed (⟨true, .sent, response [2]⟩, some (response [2]).written) (sendable 2)
    (show requestTo _ _ _ _ = .ok (_, [newConn]) by decide)
  have own := (responses_own twice).1
  exact ⟨_, _, _, twice, own _ _ (.head _), own _ _ (.tail _ (.head _))⟩

/-- A response whose value is too big is refused after its header has been read. Its body stays on the
connection. -/
theorem roundTrip_tooBig {value : Bytes} (big : maxValueSize < value.length) (short : value.length < 2 ^ 32) :
    roundTrip maxValueSize ⟨true, .sent, response value⟩ newConn = .ok (none, ⟨value, false⟩) := by
  have length : Message.valueLen (response value).writeHeader = value.length :=
    Message.valueLen_of_framed (response_framed short) (by simp [response, Header.success])
      (by simp [response, Header.success])
  have read : Message.read maxValueSize ((response value).write ++ []) = _ := Message.read_write_append (.inr rfl)
  rw [length, if_pos big] at read
  have goesOn := Message.not_waits (response_framed short) maxValueSize []
  have body : (response value).body ++ [] = value := List.append_nil value
  rw [body] at read
  rw [List.append_nil] at read goesOn
  simp [roundTrip, newConn, goesOn, read]

/-- What is left on a connection is read before the response. -/
theorem roundTrip_unread {value rest : Bytes} (small : value.length ≤ maxValueSize) (short : value.length < 2 ^ 32)
    (call : ClientCall) (sent : call.delivery = .sent) :
    roundTrip maxValueSize call ⟨(response value).write ++ rest, false⟩ =
      .ok (some (response value).written, ⟨rest ++ call.response.write, false⟩) := by
  have read := Message.read_sendable (response_sendable small short) (rest ++ call.response.write)
  have goesOn := Message.not_waits (response_framed short) maxValueSize (rest ++ call.response.write)
  simp [roundTrip, sent, goesOn, read]

/-- The value of the first response is too big, and there is a response in it. The second call, which reads
on where the first one stopped, returns that. -/
theorem next_call_reads_rest : ∃ first second pool,
    (system 1048576 8).AnyRun [(⟨true, .sent, first⟩, none), (⟨true, .sent, second⟩, some (response [1]).written)]
      pool ∧
      second = response [2] ∧ (response [1]).written ≠ second.written := by
  have length : ((response [1]).write ++ List.replicate 1048576 0).length = 1048589 := by
    rw [List.length_append, List.length_replicate]
    rfl
  have first : requestTo 1048576 8 ⟨true, .sent, response ((response [1]).write ++ List.replicate 1048576 0)⟩ [] =
      .ok (none, [⟨(response [1]).write ++ List.replicate 1048576 0, false⟩]) := by
    unfold requestTo
    rw [get, if_pos rfl]
    dsimp only
    rw [roundTrip_tooBig (by rw [length]; decide) (by rw [length]; decide)]
    rfl
  have second : requestTo 1048576 8 ⟨true, .sent, response [2]⟩
    [⟨(response [1]).write ++ List.replicate 1048576 0, false⟩] =
      .ok (some (response [1]).written, [⟨List.replicate 1048576 0 ++ (response [2]).write, false⟩]) := by
    unfold requestTo
    rw [get]
    dsimp only
    rw [roundTrip_unread (by decide) (by decide) _ rfl]
    rfl
  have new : (system 1048576 8).init [] := by simp [system]
  have once : (system 1048576 8).AnyRun
    ([] ++ [(⟨true, .sent, response ((response [1]).write ++ List.replicate 1048576 0)⟩, none)])
      [⟨(response [1]).write ++ List.replicate 1048576 0, false⟩] := .next (.start new) trivial first
  exact ⟨_, _, _, once.andThen (⟨true, .sent, response [2]⟩, some (response [1]).written) second, rfl, by decide⟩

end Client

end Olric
