import Olric.Cluster.Sequential
import Olric.Node.MapNodeSpec

namespace Olric

open Program

/-- Members that agree on the lists of owners, which do not change. A list names the members that
run. -/
structure Stable extends Members where
  memCount : Int
  members : 0 < memCount
  maxValueSize : Int
  birthdate : Bytes → Int64
  running : ∀ p, ∀ h ∈ routing p, h.birthdate = birthdate h.name
  partitionCount : UInt64
  own : ∀ host, (config host).this = host
  partitions : ∀ host, (config host).partitionCount = partitionCount
  owned : ∀ id, routing ⟨false, id⟩ ≠ []
  distinct : ∀ p, (routing p).Nodup

/-- What the members store between two requests, and the goroutines that puts have started and that
have not run yet. -/
structure Servers (σ : Type) where
  nodes : Host → σ
  jobs : List (Host × Job)

namespace Servers

variable {σ τ : Type}

def set (s : Servers σ) (host : Host) (n : σ) : Servers σ := { s with nodes := Function.update s.nodes host n }

def addJob (s : Servers σ) (host : Host) (job : Job) : Servers σ := { s with jobs := s.jobs ++ [(host, job)] }

def map (f : σ → τ) (s : Servers σ) : Servers τ := ⟨fun host => f (s.nodes host), s.jobs⟩

theorem nodes_set_self (s : Servers σ) (host : Host) (n : σ) : (s.set host n).nodes host = n :=
  Function.update_self ..

theorem nodes_set_of_ne (s : Servers σ) {host h : Host} (n : σ) (other : h ≠ host) :
    (s.set host n).nodes h = s.nodes h :=
  Function.update_of_ne other ..

theorem set_nodes (s : Servers σ) (host : Host) : s.set host (s.nodes host) = s := by
  unfold set
  rw [Function.update_eq_self]

theorem map_set (f : σ → τ) (s : Servers σ) (host : Host) (n : σ) :
    (s.set host n).map f = (s.map f).set host (f n) := by
  unfold map set
  congr 1
  funext h
  by_cases here : h = host
  · subst here
    simp
  · simp [here]

end Servers

/-- The puts, gets and deletes of clients, without a timeout. -/
inductive MapOp
  | put (name key value : Bytes)
  | get (name key : Bytes)
  | delete (name key : Bytes)

def MapOp.client : MapOp → ClientOp
  | .put name key value => .put name key value 0
  | .get name key => .get name key
  | .delete name key => .delete name key

inductive Event
  | request (host : Host) (op : MapOp) (answer : Response)
  | job (host : Host) (job : Job)

namespace Stable

variable (w : Stable) {σ : Type} (exec : σ → (c : Cmd) → c.Reply → σ → Prop)

/-- What the members know of each other. -/
def Replies : (c : Cmd) → c.Reply → Prop
  | .owners p, reply => reply = w.routing p
  | .numMembers, reply => reply = w.memCount
  | _, _ => True

/-- What a command does, on behalf of a member. -/
abbrev Does (σ : Type) := Host → Servers σ → (c : Cmd) → c.Reply → Servers σ → Prop

/-- Who has the address of a host. It is the name only. -/
def member (dst : Host) : Host := ⟨dst.name, w.birthdate dst.name⟩

/-- No message is lost, and every member answers what has arrived. -/
def answer (serve : Does σ) (req : Request) (dst : Host) (s : Servers σ) (reply : Response) (s' : Servers σ) : Prop :=
  ((w.config (w.member dst)).serve w.sum64 w.maxValueSize req).Runs (serve (w.member dst)) s reply s'

/-- The answers of several members. They do not get into each other's way, so that their order does
not matter. -/
def answers (serve : Does σ) (req : Request) : List Host → Servers σ → List Response → Servers σ → Prop
  | [], s, [], s' => s' = s
  | dst :: dsts, s, reply :: replies, s' =>
    ∃ mid, w.answer serve req dst s reply mid ∧ answers serve req dsts mid replies s'
  | _, _, _, _ => False

/-- A goroutine that is started waits until it is its turn. -/
def step (serve : Does σ) (host : Host) (s : Servers σ) : (c : Cmd) → c.Reply → Servers σ → Prop
  | .request dst req, reply, s' => w.answer serve req dst s reply s'
  | .requestAll dsts req, replies, s' => w.answers serve req dsts s replies s'
  | .go job, _, s' => s' = s.addJob host job
  | c, reply, s' => w.Replies c reply ∧ ∃ n, exec (s.nodes host) c reply n ∧ s' = s.set host n

/-- Nobody acts but the operation and those who serve it. `depth` bounds how requests nest. -/
def serve : Nat → Does σ
  | 0 => w.step exec fun _ _ _ _ _ => False
  | depth + 1 => w.step exec (serve depth)

/-- The members serve one request after the other, wherever it is issued. Goroutines run between
two of them. -/
inductive Acts : Servers σ → Event → Servers σ → Prop
  | request {s host op answer s'} (depth : Nat)
      (run : ((w.config host).clientOperation w.sum64 op.client).Runs (w.serve exec depth host) s answer s') :
      Acts s (.request host op answer) s'
  | job {s host job before after s'} (depth : Nat) (waiting : s.jobs = before ++ (host, job) :: after)
      (run : ((w.config host).job job).Runs (w.serve exec depth host) { s with jobs := before ++ after } () s') :
      Acts s (.job host job) s'

def system (start : Servers σ) : Transitions (Servers σ) Event where
  init s := s = start
  step := w.Acts exec

variable {w exec} {τ : Type} {exec' : τ → (c : Cmd) → c.Reply → τ → Prop} {f : σ → τ} {Inv : σ → Prop} {host : Host}
  {s s' : Servers σ} {depth : Nat}

theorem member_eq {p : Place} {dst : Host} (listed : dst ∈ w.routing p) : w.member dst = dst := by
  unfold member
  rw [← w.running p dst listed]

/-- A command about the member itself is the same at every depth. -/
theorem serve_here {c : Cmd} {reply : c.Reply} (here : c.Local) : w.serve exec depth host s c reply s' ↔
    w.Replies c reply ∧ ∃ n, exec (s.nodes host) c reply n ∧ s' = s.set host n := by
  have same (serve : Does σ) : w.step exec serve host s c reply s' ↔
      w.Replies c reply ∧ ∃ n, exec (s.nodes host) c reply n ∧ s' = s.set host n := by
    cases c
    case request => exact absurd here.1 nofun
    case requestAll => exact absurd here.1 nofun
    case go job => exact absurd rfl (here.2 job)
    all_goals exact Iff.rfl
  cases depth with
  | zero => exact same _
  | succ depth => exact same _

theorem serve_go {job : Job} {reply : Unit} :
    w.serve exec depth host s (.go job) reply s' ↔ s' = s.addJob host job := by
  cases depth <;> exact Iff.rfl

section Simulation

/-- What one level lets members do, a simpler one does, too. -/
def Simulates (f : σ → τ) (Inv : σ → Prop) (serve : Does σ) (serve' : Does τ) : Prop :=
  ∀ host s c reply s', (∀ h, Inv (s.nodes h)) → serve host s c reply s' →
    serve' host (s.map f) c reply (s'.map f) ∧ ∀ h, Inv (s'.nodes h)

theorem Simulates.runs {serve : Does σ} {serve' : Does τ} (simulates : Simulates f Inv serve serve') {α : Type}
    {p : Prog α} {a : α} (inv : ∀ h, Inv (s.nodes h)) (run : p.Runs (serve host) s a s') :
    p.Runs (serve' host) (s.map f) a (s'.map f) ∧ ∀ h, Inv (s'.nodes h) := by
  induction p generalizing s with
  | ret b =>
    obtain ⟨rfl, rfl⟩ := run
    exact ⟨⟨rfl, rfl⟩, inv⟩
  | call c next ih =>
    obtain ⟨reply, mid, now, rest⟩ := run
    obtain ⟨now', inv'⟩ := simulates _ _ _ _ _ inv now
    obtain ⟨rest', inv''⟩ := ih reply inv' rest
    exact ⟨⟨reply, _, now', rest'⟩, inv''⟩

theorem Simulates.answers {serve : Does σ} {serve' : Does τ} (simulates : Simulates f Inv serve serve')
    {req : Request} {dsts : List Host} {replies : List Response} (inv : ∀ h, Inv (s.nodes h))
    (run : w.answers serve req dsts s replies s') :
    w.answers serve' req dsts (s.map f) replies (s'.map f) ∧ ∀ h, Inv (s'.nodes h) := by
  induction dsts generalizing s replies with
  | nil =>
    cases replies with
    | nil =>
      obtain rfl := run
      exact ⟨rfl, inv⟩
    | cons => exact run.elim
  | cons dst dsts ih =>
    cases replies with
    | nil => exact run.elim
    | cons reply replies =>
      obtain ⟨mid, first, rest⟩ := run
      obtain ⟨first', inv'⟩ := simulates.runs inv first
      obtain ⟨rest', inv''⟩ := ih inv' rest
      exact ⟨⟨_, first', rest'⟩, inv''⟩

variable (each : ∀ n c reply n', Inv n → exec n c reply n' → exec' (f n) c reply (f n') ∧ Inv n')

include each

theorem Simulates.step {serve : Does σ} {serve' : Does τ} (simulates : Simulates f Inv serve serve') :
    Simulates f Inv (w.step exec serve) (w.step exec' serve') := by
  intro host s c reply s' inv run
  have here (run : w.Replies c reply ∧ ∃ n, exec (s.nodes host) c reply n ∧ s' = s.set host n) :
      (w.Replies c reply ∧ ∃ n, exec' ((s.map f).nodes host) c reply n ∧ s'.map f = (s.map f).set host n) ∧
        ∀ h, Inv (s'.nodes h) := by
    obtain ⟨known, n, now, rfl⟩ := run
    obtain ⟨now', inv'⟩ := each _ _ _ _ (inv host) now
    refine ⟨⟨known, f n, now', s.map_set f host n⟩, fun h => ?_⟩
    by_cases same : h = host
    · subst same
      rwa [Servers.nodes_set_self]
    · rw [Servers.nodes_set_of_ne _ _ same]
      exact inv h
  cases c
  case request => exact simulates.runs inv run
  case requestAll => exact simulates.answers inv run
  case go =>
    obtain rfl := run
    exact ⟨rfl, inv⟩
  all_goals exact here run

theorem serve_simulates : Simulates f Inv (w.serve exec depth) (w.serve exec' depth) := by
  induction depth with
  | zero => exact Simulates.step each fun _ _ _ _ _ _ => False.elim
  | succ depth ih => exact Simulates.step each ih

/-- A run of the members is one of the members as `f` shows them. -/
theorem run_simulates {start : Servers σ} {allow : Servers τ → Event → Prop} {events : List Event}
    (inv : ∀ h, Inv (start.nodes h)) (run : (w.system exec start).Run (fun s event => allow (s.map f) event) events
      s) :
    (w.system exec' (start.map f)).Run allow events (s.map f) ∧ ∀ h, Inv (s.nodes h) := by
  induction run with
  | start started =>
    obtain rfl := started
    exact ⟨.start rfl, inv⟩
  | @next _ s _ _ _ allowed acts ih =>
    obtain ⟨run, inv'⟩ := ih
    cases acts with
    | request depth serves =>
      obtain ⟨serves', inv''⟩ := (serve_simulates each).runs inv' serves
      exact ⟨run.next allowed (.request depth serves'), inv''⟩
    | @job _ _ before after _ depth waiting works =>
      have inv₁ : ∀ h, Inv ({ s with jobs := before ++ after : Servers σ }.nodes h) := inv'
      obtain ⟨works', inv''⟩ := (serve_simulates each).runs inv₁ works
      exact ⟨run.next allowed (.job depth waiting works'), inv''⟩

end Simulation

end Stable

end Olric
