import Olric.Protocol.Frame
import Olric.Transport.Server

namespace Olric

/-- What a sender puts on a connection. -/
def frames (ms : List Message) : Bytes := ms.flatMap Message.write

namespace Server

variable {Node : Type*} {srv : Server Node} {node : Node} {conn rest : Bytes} {m : Message}

/-- A round answers a request: its handler is run if the request is accepted on its own and has a
handler, with its own fields, and the next round starts at what was sent after it. -/
structure Answers (srv : Server Node) (m : Message) (later : Bytes) (round : Served) : Prop where
  handled_iff : ∀ q, round.handled = some q ↔
    (∃ tail, Message.read srv.maxValueSize m.write = .ok q tail) ∧ (srv.operations q.op).isSome
  own : ∀ q, round.handled = some q → q.op = m.op ∧ q.dmap = m.dmap ∧ q.key = m.key ∧ q.value = m.value
  rest : round.rest = later

/-- The rounds answer the requests one by one. -/
def AnswersAll (srv : Server Node) : List Message → List Served → Prop
  | [], [] => True
  | m :: ms, round :: rounds => srv.Answers m (frames ms) round ∧ srv.AnswersAll ms rounds
  | _, _ => False

/-- Serving the frames of the requests gives one round for each of them and then finds the
connection closed. -/
def Delivers (srv : Server Node) (node : Node) (ms : List Message) : Prop :=
  srv.AnswersAll ms (srv.handleConn node (frames ms)).1 ∧ (srv.handleConn node (frames ms)).2.2 = .closed

theorem serve_stable {fuel : Nat} (enough : conn.length < fuel) :
    srv.serve fuel node conn = srv.handleConn node conn := by
  suffices same : ∀ {fuel fuel' node conn}, conn.length < fuel → conn.length < fuel' →
      srv.serve fuel node conn = srv.serve fuel' node conn from same enough (Nat.lt_succ_self _)
  intro fuel
  induction fuel with
  | zero => intro _ _ _ impossible; omega
  | succ fuel ih =>
    intro fuel' node conn enough enough'
    obtain ⟨fuel', rfl⟩ : ∃ k, fuel' = k + 1 := ⟨fuel' - 1, by omega⟩
    unfold serve waitForRequest
    rcases Message.read_cases srv.maxValueSize conn with
      ⟨h, ended⟩ | panicked | ⟨tail, shorter, ⟨q, ok, _⟩ | ⟨e, h, failed⟩⟩
    · simp [ended]
    · simp [panicked]
    · have next : ∀ node, srv.serve fuel node tail = srv.serve fuel' node tail := fun node =>
        ih (by omega) (by omega)
      cases op : srv.operations q.op <;> simp [ok, op, next]
    · have next : ∀ node, srv.serve fuel node tail = srv.serve fuel' node tail := fun node =>
        ih (by omega) (by omega)
      simp [failed, next]

theorem handleConn_failed {e : RequestError} {h : Header} (failed : srv.waitForRequest node conn = .failed e h rest)
    (live : e ≠ .read .eof) (shorter : rest.length < conn.length) :
    srv.handleConn node conn = (⟨none, h.error statusInternalServerError e.text, rest⟩ ::
      (srv.handleConn node rest).1, (srv.handleConn node rest).2) := by
  rw [handleConn, serve, failed]
  simp [live, serve_stable shorter]

theorem handleConn_responded {req resp : Message} {node' : Node}
    (responded : srv.waitForRequest node conn = .responded req resp node' rest)
    (shorter : rest.length < conn.length) :
    srv.handleConn node conn = (⟨some req, resp, rest⟩ :: (srv.handleConn node' rest).1,
      (srv.handleConn node' rest).2) := by
  rw [handleConn, serve, responded]
  simp [serve_stable shorter]

/-- A receivable request is answered by the next round, and the rest is served after it. -/
theorem handleConn_receivable (node : Node) (rest : Bytes) (request : m.IsRequest)
    (receivable : m.Receivable srv.maxValueSize) :
    ∃ round node', srv.Answers m rest round ∧ srv.handleConn node (m.write ++ rest) =
      (round :: (srv.handleConn node' rest).1, (srv.handleConn node' rest).2) := by
  have shorter : rest.length < (m.write ++ rest).length := by
    simp only [Message.write, List.length_append, Header.encode_length, headerSize]
    omega
  rcases Message.read_receivable request receivable with ⟨q, own, ok⟩ | ⟨h, tooBig⟩
  · have alone := ok []
    rw [List.append_nil] at alone
    cases registered : srv.operations q.op with
    | none =>
      have failed : srv.waitForRequest node (m.write ++ rest) = .failed (.unknownOperation q.op) q.toHeader rest := by
        simp [waitForRequest, ok, registered]
      refine ⟨_, node, ⟨?_, by simp, rfl⟩, handleConn_failed failed (by simp) shorter⟩
      intro q'
      simp only [alone, ReadResult.ok.injEq, reduceCtorEq, false_iff, not_and]
      rintro ⟨_, rfl, _⟩
      simp [registered]
    | some opr =>
      have responded : srv.waitForRequest node (m.write ++ rest) =
          .responded q (opr q node).1 (opr q node).2 rest := by
        simp [waitForRequest, ok, registered]
      refine ⟨_, _, ⟨?_, ?_, rfl⟩, handleConn_responded responded shorter⟩
      · intro q'
        simp only [alone, ReadResult.ok.injEq, Option.some.injEq]
        constructor
        · rintro rfl
          exact ⟨⟨[], rfl, rfl⟩, by simp [registered]⟩
        · rintro ⟨⟨_, same, _⟩, _⟩
          exact same
      · rintro _ ⟨⟩
        exact own
  · have alone := tooBig []
    rw [List.append_nil] at alone
    have failed : srv.waitForRequest node (m.write ++ rest) = .failed (.read .valueTooBig) h rest := by
      simp [waitForRequest, tooBig]
    exact ⟨_, node, ⟨by simp [alone], by simp, rfl⟩, handleConn_failed failed (by simp) shorter⟩

/-- If the round for the first request ends where the request ends, the request is receivable. -/
theorem receivable_of_round {round : Served} {rounds : List Served} (request : m.IsRequest)
    (served : (srv.handleConn node (m.write ++ rest)).1 = round :: rounds) (aligned : round.rest = rest) :
    m.Receivable srv.maxValueSize := by
  subst aligned
  unfold handleConn serve waitForRequest at served
  rcases Message.read_cases srv.maxValueSize (m.write ++ round.rest) with
    ⟨h, ended⟩ | panicked | ⟨tail, _, ⟨q, ok, _⟩ | ⟨e, h, failed⟩⟩
  · simp [ended] at served
  · simp [panicked] at served
  · have left : tail = round.rest := by
      cases op : srv.operations q.op <;> simp [ok, op] at served <;> rw [← served.1]
    rw [left] at ok
    exact Message.receivable_of_read request (.inl ⟨q, ok⟩)
  · by_cases eof : e = .eof
    · simp [failed, eof] at served
    · have left : tail = round.rest := by
        simp [failed, eof] at served
        rw [← served.1]
      rw [left] at failed
      exact Message.receivable_of_read request (.inr ⟨e, h, eof, failed⟩)

/-- One answer for each request, in order and with nothing of a request read as another request,
holds exactly for connections that carry receivable requests only. -/
theorem delivers_iff_receivable (srv : Server Node) (node : Node) (ms : List Message)
    (requests : ∀ m ∈ ms, m.IsRequest) :
    srv.Delivers node ms ↔ ∀ m ∈ ms, m.Receivable srv.maxValueSize := by
  induction ms generalizing node with
  | nil =>
    simp [Delivers, AnswersAll, frames, handleConn, serve, waitForRequest, Message.read, headerSize]
  | cons m ms ih =>
    have first := requests m List.mem_cons_self
    have later : ∀ m ∈ ms, m.IsRequest := fun m mem => requests m (List.mem_cons_of_mem _ mem)
    have sent : frames (m :: ms) = m.write ++ frames ms := rfl
    have onward : m.Receivable srv.maxValueSize →
        (srv.Delivers node (m :: ms) ↔ ∀ m ∈ ms, m.Receivable srv.maxValueSize) := by
      intro receivable
      obtain ⟨round, node', answered, served⟩ := handleConn_receivable node (frames ms) first receivable
      rw [← ih node' later, Delivers, sent, served]
      constructor
      · rintro ⟨all, closed⟩
        exact ⟨all.2, closed⟩
      · rintro ⟨all, closed⟩
        exact ⟨⟨answered, all⟩, closed⟩
    constructor
    · intro delivers
      have receivable : m.Receivable srv.maxValueSize := by
        obtain ⟨all, _⟩ := delivers
        rw [sent] at all
        cases served : (srv.handleConn node (m.write ++ frames ms)).1 with
        | nil => simp [served, AnswersAll] at all
        | cons round rounds =>
          rw [served] at all
          exact receivable_of_round first served all.1.rest
      exact List.forall_mem_cons.2 ⟨receivable, (onward receivable).1 delivers⟩
    · intro all
      exact (onward (all m List.mem_cons_self)).2 fun m mem => all m (List.mem_cons_of_mem _ mem)

/-- A server that knows one operation, `OpExDestroy`, and takes values of at most 12 bytes. -/
def destroyOnly : Server (List Bytes) where
  maxValueSize := 12
  operations op :=
    if op = OpCode.exDestroy then some fun req destroyed => (req.success, destroyed ++ [req.dmap]) else none

def destroyRequest : Message := ⟨⟨magicReq, OpCode.exDestroy, 0, 0, 0, 0, 0⟩, none, [100], [], []⟩

/-- A put whose value is the frame of a destroy request. -/
def putOfDestroy : Message := ⟨⟨magicReq, OpCode.exPut, 0, 0, 0, 0, 0⟩, none, [], [], destroyRequest.write⟩

theorem destroy_then_put_delivered :
    (∀ m ∈ [destroyRequest, { destroyRequest with op := OpCode.exPut }], m.IsRequest) ∧
      destroyOnly.Delivers [] [destroyRequest, { destroyRequest with op := OpCode.exPut }] := by
  have requests : ∀ m ∈ [destroyRequest, { destroyRequest with op := OpCode.exPut }], m.IsRequest := by
    simp only [List.forall_mem_cons, List.not_mem_nil, false_implies, implies_true, and_true]
    exact ⟨⟨rfl, by decide, by decide⟩, ⟨rfl, by decide, by decide⟩⟩
  refine ⟨requests, (delivers_iff_receivable destroyOnly [] _ requests).2 ?_⟩
  simp only [List.forall_mem_cons, List.not_mem_nil, false_implies, implies_true, and_true]
  exact ⟨.inl ⟨by decide, by decide⟩, .inl ⟨by decide, by decide⟩⟩

/-- The put is refused as too big, and then its value is served as a destroy request. -/
theorem refused_body_is_served :
    (∀ m ∈ [putOfDestroy], m.IsRequest) ∧ ¬ destroyOnly.Delivers [] [putOfDestroy] ∧
      (destroyOnly.handleConn [] (frames [putOfDestroy])).1.map (fun round => round.handled.map (·.op)) =
        [none, some OpCode.exDestroy] ∧
      (destroyOnly.handleConn [] (frames [putOfDestroy])).2 = ([[100]], .closed) := by
  have rounds : (destroyOnly.handleConn [] (frames [putOfDestroy])).1.map (fun round => round.handled.map (·.op)) =
      [none, some OpCode.exDestroy] := by decide
  refine ⟨?_, ?_, rounds, by decide⟩
  · simp only [List.forall_mem_cons, List.not_mem_nil, false_implies, implies_true, and_true]
    exact ⟨rfl, by decide, by decide⟩
  · rintro ⟨all, _⟩
    cases served : (destroyOnly.handleConn [] (frames [putOfDestroy])).1 with
    | nil => simp [served] at rounds
    | cons round later =>
      cases later with
      | nil => simp [served] at rounds
      | cons => simp [served, AnswersAll] at all

end Server

end Olric
