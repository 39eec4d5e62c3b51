import Olric.Lib.Program
import Olric.Lib.Transitions

/-- Programs that run concurrently over a shared state. A finished thread stays. -/
structure Pool (Cmd : Type) (Reply : Cmd → Type) (α State : Type) where
  shared : State
  threads : Nat → Option (Program Cmd Reply α)

namespace Pool

variable {Cmd : Type} {Reply : Cmd → Type} {α State Ghost : Type}

/-- A thread starts, a thread performs its next command or starts another thread, or something
outside the pool changes the shared state. -/
inductive Label (Cmd : Type) (Reply : Cmd → Type) (α : Type)
  | spawn (tid : Nat) (p : Program Cmd Reply α)
  | step (tid : Nat) (c : Cmd) (reply : Reply c)
  | fork (tid : Nat) (c : Cmd) (child : Nat)
  | background

/-- The programs that threads may run, what commands do, which of them start another thread, and
what else can happen. -/
structure Rules (Cmd : Type) (Reply : Cmd → Type) (α State : Type) where
  initial : State → Prop
  starts : Program Cmd Reply α → Prop
  exec : Nat → State → (c : Cmd) → Reply c → State → Prop
  background : State → State → Prop
  forks : (c : Cmd) → Option (Reply c × Program Cmd Reply α) := fun _ => none

def setThread (pool : Pool Cmd Reply α State) (tid : Nat) (p : Program Cmd Reply α) (shared : State) :
    Pool Cmd Reply α State :=
  ⟨shared, Function.update pool.threads tid (some p)⟩

theorem setThread_threads {pool : Pool Cmd Reply α State} {tid other : Nat} {p q : Program Cmd Reply α}
    {shared : State} :
    (pool.setThread tid p shared).threads other = some q ↔
      other = tid ∧ q = p ∨ other ≠ tid ∧ pool.threads other = some q := by
  by_cases same : other = tid
  · subst same
    simp [setThread, eq_comm]
  · simp [setThread, same]

inductive Step (rules : Rules Cmd Reply α State) :
    Pool Cmd Reply α State → Label Cmd Reply α → Pool Cmd Reply α State → Prop
  | spawn {pool tid p} (free : pool.threads tid = none) (starts : rules.starts p) :
      Step rules pool (.spawn tid p) (pool.setThread tid p pool.shared)
  | step {pool tid c next reply shared} (running : pool.threads tid = some (.call c next))
      (exec : rules.exec tid pool.shared c reply shared) :
      Step rules pool (.step tid c reply) (pool.setThread tid (next reply) shared)
  | fork {pool tid c next reply child p} (running : pool.threads tid = some (.call c next))
      (forks : rules.forks c = some (reply, p)) (free : pool.threads child = none) :
      Step rules pool (.fork tid c child)
        ((pool.setThread tid (next reply) pool.shared).setThread child p pool.shared)
  | background {pool shared} (change : rules.background pool.shared shared) :
      Step rules pool .background { pool with shared := shared }

def system (rules : Rules Cmd Reply α State) :
    Transitions (Pool Cmd Reply α State) (Label Cmd Reply α) where
  init pool := rules.initial pool.shared ∧ ∀ tid, pool.threads tid = none
  step := Step rules

@[simp] theorem setThread_setThread (pool : Pool Cmd Reply α State) (tid : Nat) (p q : Program Cmd Reply α)
    (shared shared' : State) : (pool.setThread tid p shared).setThread tid q shared' =
      pool.setThread tid q shared' := by
  simp [setThread]

/-- A thread may take any number of steps without the others, if each of its commands meets the
condition of the run. -/
theorem run_alone {rules : Rules Cmd Reply α State}
    {allow : Pool Cmd Reply α State → Label Cmd Reply α → Prop} {tid : Nat} {ok : State → Cmd → Prop}
    (allowed : ∀ {pool c reply}, ok pool.shared c → allow pool (.step tid c reply)) {p q : Program Cmd Reply α}
    {shared shared' : State}
    (reaches : p.Reaches (fun s c reply s' => ok s c ∧ rules.exec tid s c reply s') shared q shared')
    {pool : Pool Cmd Reply α State} {labels : List (Label Cmd Reply α)}
    (run : (system rules).Run allow labels (pool.setThread tid p shared)) :
    ∃ more, (system rules).Run allow (labels ++ more) (pool.setThread tid q shared') := by
  induction reaches generalizing labels with
  | refl => exact ⟨[], by rwa [List.append_nil]⟩
  | @step c next s mid q s' reply now rest ih =>
    have running : (pool.setThread tid (.call c next) s).threads tid = some (.call c next) :=
      setThread_threads.2 (.inl ⟨rfl, rfl⟩)
    have moved := run.next (allowed now.1) (Step.step running now.2)
    rw [setThread_setThread] at moved
    obtain ⟨more, after⟩ := ih moved
    exact ⟨_ :: more, by rwa [List.append_assoc] at after⟩

end Pool
