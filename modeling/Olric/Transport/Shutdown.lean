import Mathlib.Algebra.Order.BigOperators.Group.List
import Mathlib.Algebra.Order.Ring.Int
import Olric.Lib.Transitions

namespace Olric

/-- Where the goroutine of `handleConn` is. A request that it works on has been marked before the
context was cancelled, or late. -/
inductive HandlerAt
  | started
  | reading
  | received
  | working (late : Bool)
  | failing
  | leaving
  | ended
deriving DecidableEq

/-- Where the goroutine is that closes the connection. -/
inductive CloserAt
  | absent
  | selecting
  | checking
  | polling
  | closing
  | ended
deriving DecidableEq

structure ServerConn where
  handler : HandlerAt
  closer : CloserAt
  busy : Bool
  opened : Bool

inductive AcceptorAt
  | accepting
  | handing
  | returned
deriving DecidableEq

inductive ShutdownAt
  | before
  | cancelled
  | waiting
  | drained
  | expired
deriving DecidableEq

/-- The server, with `waitForConnections`, `handleConns`, the connections and `Shutdown`. -/
structure Listening where
  cancelled : Bool
  listening : Bool
  acceptor : AcceptorAt
  dispatching : Bool
  wg : Int
  conns : List ServerConn
  shutdown : ShutdownAt

/-- What the two goroutines of a connection do, and what they add to the `WaitGroup`. -/
inductive ConnStep (cancelled : Bool) (k : ServerConn) : ServerConn → Int → Prop
  | begin : k.handler = .started → ConnStep cancelled k { k with handler := .reading, closer := .selecting } 1
  | receive : k.handler = .reading → k.opened = true → ConnStep cancelled k { k with handler := .received } 0
  | mark : k.handler = .received → ConnStep cancelled k { k with handler := .working cancelled, busy := true } 0
  | respond {late : Bool} : k.handler = .working late → k.opened = true →
      ConnStep cancelled k { k with handler := .reading, busy := false } 0
  -- the operation is unknown, or the response cannot be written
  | refuse {late : Bool} : k.handler = .working late →
      ConnStep cancelled k { k with handler := .failing, busy := false } 0
  | readError : k.handler = .reading → ConnStep cancelled k { k with handler := .failing } 0
  | report : k.handler = .failing → k.opened = true → ConnStep cancelled k { k with handler := .reading } 0
  | leave : k.handler = .reading ∨ k.handler = .failing → ConnStep cancelled k { k with handler := .leaving } 0
  | done : k.handler = .leaving → ConnStep cancelled k { k with handler := .ended } (-1)
  | wake : k.closer = .selecting → cancelled = true ∨ k.handler = .leaving ∨ k.handler = .ended →
      ConnStep cancelled k { k with closer := .checking } 0
  | check : k.closer = .checking → ConnStep cancelled k { k with closer := if k.busy then .polling else .closing } 0
  | poll : k.closer = .polling → k.busy = false → ConnStep cancelled k { k with closer := .closing } 0
  | close : k.closer = .closing → ConnStep cancelled k { k with closer := .ended, opened := false } (-1)

inductive ListeningLabel
  | accept
  | handOver
  | giveUp
  | stopDispatching
  | conn
  | cancel
  | closeListener
  | drain
  | expire

namespace Listening

inductive Step (s : Listening) : ListeningLabel → Listening → Prop
  | accept : s.acceptor = .accepting → s.listening = true → Step s .accept { s with acceptor := .handing }
  | noKeepAlive : s.acceptor = .accepting → s.listening = true → Step s .accept { s with acceptor := .returned }
  | handOver : s.acceptor = .handing → s.dispatching = true → Step s .handOver
      { s with acceptor := .accepting, wg := s.wg + 1, conns := s.conns ++ [⟨.started, .absent, false, true⟩] }
  -- an error of `Accept` is skipped before the context is cancelled
  | giveUp : s.acceptor = .accepting → s.cancelled = true → Step s .giveUp { s with acceptor := .returned }
  | stopDispatching : s.dispatching = true → s.cancelled = true →
      Step s .stopDispatching { s with dispatching := false, wg := s.wg - 1 }
  | conn {before after : List ServerConn} {k k' : ServerConn} {delta : Int} : s.conns = before ++ k :: after →
      ConnStep s.cancelled k k' delta → Step s .conn { s with conns := before ++ k' :: after, wg := s.wg + delta }
  | cancel : s.shutdown = .before → Step s .cancel { s with cancelled := true, shutdown := .cancelled }
  | closeListener : s.shutdown = .cancelled →
      Step s .closeListener { s with listening := false, shutdown := .waiting }
  | drain : s.shutdown = .waiting → s.wg = 0 → Step s .drain { s with shutdown := .drained }
  | expire : s.shutdown = .waiting → Step s .expire { s with shutdown := .expired }

def start : Listening := ⟨false, true, .accepting, true, 1, [], .before⟩

def system : Transitions Listening ListeningLabel where
  init s := s = start
  step s := Step s

end Listening

namespace ServerConn

variable {k k' : ServerConn} {cancelled : Bool} {delta : Int}

/-- The goroutines of a connection that the server has to wait for. -/
def load (k : ServerConn) : Int :=
  (if k.handler = .ended then 0 else 1) + if k.closer = .absent ∨ k.closer = .ended then 0 else 1

theorem load_nonneg (k : ServerConn) : 0 ≤ k.load := by
  unfold load
  split <;> split <;> omega

structure Sound (cancelled : Bool) (k : ServerConn) : Prop where
  marked : k.busy = true ↔ ∃ late, k.handler = .working late
  early : k.handler = .working false → k.closer = .selecting ∨ k.closer = .checking ∨ k.closer = .polling
  closed : k.closer = .ended ↔ k.opened = false
  waits : cancelled = false → k.closer ≠ .absent → k.closer ≠ .selecting → k.handler = .leaving ∨ k.handler = .ended
  absent : k.closer = .absent ↔ k.handler = .started

/-- The goroutine that closes the connection does not get past its checks while a request is marked,
and a request that is marked before the context is cancelled finds it in its select. -/
theorem Sound.step (sound : k.Sound cancelled) (step : ConnStep cancelled k k' delta) : k'.Sound cancelled := by
  obtain ⟨marked, early, closed, waits, absent⟩ := sound
  cases step with
  | leave here => rcases here with here | here <;> constructor <;> simp_all
  | wake here woken =>
    refine ⟨marked, fun _ => .inr (.inl rfl), by simp_all, fun going _ _ => ?_, by simp_all⟩
    exact woken.resolve_left (by rw [going]; exact Bool.false_ne_true)
  | check here => cases busy : k.busy <;> constructor <;> simp_all
  | _ => constructor <;> simp_all

theorem Sound.load_step (sound : k.Sound cancelled) (step : ConnStep cancelled k k' delta) :
    k'.load = k.load + delta := by
  have absent := sound.absent
  cases step with
  | leave here => rcases here with here | here <;> simp [load, here]
  | check here => cases busy : k.busy <;> simp [load, here]
  | _ => simp_all [load]

theorem load_pos (step : ConnStep cancelled k k' delta) : 0 < k.load := by
  have live : k.handler ≠ .ended ∨ ¬ (k.closer = .absent ∨ k.closer = .ended) := by
    cases step with
    | leave here => rcases here with here | here <;> simp [here]
    | _ => simp_all
  unfold load
  rcases live with live | live <;> rw [if_neg live] <;> split <;> omega

theorem Sound.cancel (sound : k.Sound cancelled) : k.Sound true :=
  ⟨sound.marked, sound.early, sound.closed, fun isTrue => (by cases isTrue), sound.absent⟩

theorem Sound.ended (sound : k.Sound cancelled) (none : k.load = 0) : k.handler = .ended ∧ k.opened = false := by
  have closed := sound.closed
  have absent := sound.absent
  unfold load at none
  split at none <;> split at none <;> simp_all

end ServerConn

namespace Listening

variable {s s' : Listening} {label : ListeningLabel}

/-- The `WaitGroup` counts `handleConns` and the goroutines of the connections. -/
structure Counted (s : Listening) : Prop where
  sound : ∀ k ∈ s.conns, k.Sound s.cancelled
  wg : s.wg = (if s.dispatching then 1 else 0) + (s.conns.map ServerConn.load).sum
  drained : s.shutdown = .drained → s.wg = 0
  cancelled : s.cancelled = true ∨ s.shutdown = .before

theorem Counted.none (counted : s.Counted) (zero : s.wg = 0) : s.dispatching = false ∧ ∀ k ∈ s.conns, k.load = 0 := by
  have nonneg : ∀ n ∈ s.conns.map ServerConn.load, 0 ≤ n := List.forall_mem_map.2 fun k _ => k.load_nonneg
  have sum := List.sum_nonneg nonneg
  have wg := counted.wg
  have idle : s.dispatching = false := by
    by_contra dispatching
    rw [if_pos (by simpa using dispatching)] at wg
    omega
  rw [idle, zero] at wg
  refine ⟨idle, fun k mem => ?_⟩
  exact List.all_zero_of_le_zero_le_of_sum_eq_zero nonneg (by simpa using wg.symm) (List.mem_map_of_mem mem)

theorem Counted.step (counted : s.Counted) (step : Step s label s') : s'.Counted := by
  have empty (drained : s.shutdown = .drained) := counted.none (counted.drained drained)
  have later {at' : ShutdownAt} (begun : s.shutdown ≠ .before) : s.cancelled = true ∨ at' = .before :=
    .inl (counted.cancelled.resolve_right begun)
  cases step with
  | accept | noKeepAlive | giveUp => exact ⟨counted.sound, counted.wg, counted.drained, counted.cancelled⟩
  | handOver handing dispatching =>
    refine ⟨fun k mem => ?_, ?_, fun drained => ?_, counted.cancelled⟩
    · rcases List.mem_append.1 mem with old | new
      · exact counted.sound k old
      · cases List.mem_singleton.1 new
        constructor <;> simp
    · simp [counted.wg, ServerConn.load, add_assoc]
    · cases dispatching.symm.trans (empty drained).1
  | stopDispatching dispatching =>
    refine ⟨counted.sound, ?_, fun drained => ?_, counted.cancelled⟩
    · simp [counted.wg, dispatching]
    · cases dispatching.symm.trans (empty drained).1
  | @conn before after k k' delta here moves =>
    have sound := counted.sound
    rw [here] at sound
    have load := (sound k (by simp)).load_step moves
    refine ⟨fun other mem => ?_, ?_, fun drained => ?_, counted.cancelled⟩
    · simp only [List.mem_append, List.mem_cons] at mem
      rcases mem with mem | rfl | mem
      · exact sound other (by simp [mem])
      · exact (sound k (by simp)).step moves
      · exact sound other (by simp [mem])
    · have wg := counted.wg
      rw [here] at wg
      simp only [List.map_append, List.map_cons, List.sum_append, List.sum_cons] at wg ⊢
      omega
    · exact absurd ((empty drained).2 k (by rw [here]; simp)) (ServerConn.load_pos moves).ne'
  | cancel =>
    exact ⟨fun k mem => (counted.sound k mem).cancel, counted.wg, fun drained => (by cases drained), .inl rfl⟩
  | closeListener before =>
    exact ⟨counted.sound, counted.wg, fun drained => (by cases drained), later (by rw [before]; simp)⟩
  | drain before zero => exact ⟨counted.sound, counted.wg, fun _ => zero, later (by rw [before]; simp)⟩
  | expire before =>
    exact ⟨counted.sound, counted.wg, fun drained => (by cases drained), later (by rw [before]; simp)⟩

theorem counted_of_run {labels : List ListeningLabel} (run : system.AnyRun labels s) : s.Counted := by
  refine run.invariant Counted (fun s started => ?_) fun s label s' counted _ step => counted.step step
  cases started
  exact ⟨fun k mem => (by cases mem), rfl, fun drained => (by cases drained), .inr rfl⟩

/-- A connection whose handler has begun. -/
theorem begun :
    ∃ labels, system.AnyRun labels { start with conns := [⟨.reading, .selecting, false, true⟩], wg := 3 } := by
  have run : system.AnyRun [] start := .start rfl
  have run := (run.andThen .accept (.accept rfl rfl)).andThen .handOver (.handOver rfl rfl)
  have run := run.andThen .conn (@Step.conn _ [] [] _ _ _ rfl (.begin rfl))
  exact ⟨_, run⟩

/-- The server is shut down while the connection is not marked: the connection is closed. -/
theorem closed_unmarked {labels : List ListeningLabel} {wg : Int} {handler : HandlerAt}
    (run : system.AnyRun labels { start with conns := [⟨handler, .selecting, false, true⟩], wg }) :
    ∃ labels, system.AnyRun labels { start with
      cancelled := true, shutdown := .cancelled, conns := [⟨handler, .ended, false, false⟩],
      wg := wg + 0 + 0 + -1 } := by
  have run := run.andThen .cancel (.cancel rfl)
  have run := run.andThen .conn (@Step.conn _ [] [] _ _ _ rfl (.wake rfl (.inl rfl)))
  have run := run.andThen .conn (@Step.conn _ [] [] _ _ _ rfl (.check rfl))
  have run := run.andThen .conn (@Step.conn _ [] [] _ _ _ rfl (.close rfl))
  exact ⟨_, run⟩

/-- A handler can be at the position when its connection has been closed. -/
def FoundClosed (position : HandlerAt) : Prop :=
  ∃ labels s, system.AnyRun labels s ∧ ∃ k ∈ s.conns, k.handler = position ∧ k.opened = false

theorem foundClosed_of_ne {position : HandlerAt} (begun_ : position ≠ .started) (other : position ≠ .working false) :
    FoundClosed position := by
  obtain ⟨_, idle⟩ := begun
  obtain ⟨_, reading⟩ := closed_unmarked idle
  obtain ⟨_, received⟩ := closed_unmarked (idle.andThen .conn (@Step.conn _ [] [] _ _ _ rfl (.receive rfl rfl)))
  have leaving := reading.andThen .conn (@Step.conn _ [] [] _ _ _ rfl (.leave (.inl rfl)))
  have found {labels : List ListeningLabel} {s : Listening} {k : ServerConn} (run : system.AnyRun labels s)
      (here : s.conns = [k]) (at_ : k.handler = position) (closed : k.opened = false) : FoundClosed position :=
    ⟨_, _, run, k, by rw [here]; exact List.mem_cons_self, at_, closed⟩
  cases position with
  | started => exact absurd rfl begun_
  | reading => exact found reading rfl rfl rfl
  | received => exact found received rfl rfl rfl
  | working late =>
    cases late with
    | false => exact absurd rfl other
    | true => exact found (received.andThen .conn (@Step.conn _ [] [] _ _ _ rfl (.mark rfl))) rfl rfl rfl
  | failing => exact found (reading.andThen .conn (@Step.conn _ [] [] _ _ _ rfl (.readError rfl))) rfl rfl rfl
  | leaving => exact found leaving rfl rfl rfl
  | ended => exact found (leaving.andThen .conn (@Step.conn _ [] [] _ _ _ rfl (.done rfl))) rfl rfl rfl

/-- The runs from a state on. -/
def onwards (s : Listening) : Transitions Listening ListeningLabel where
  init s' := s' = s
  step s := Step s

end Listening

end Olric
