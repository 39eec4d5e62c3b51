import Olric.Lib.Program
import Olric.Lib.Transitions

/-- How far a request has got: it is on its way, a handler works on it, or the answer is there. -/
inductive CallState (Resp : Type)
  | sent
  | serving (handler : Nat)
  | answered (resp : Resp)

structure RemoteCall (Host Req Resp : Type) where
  dst : Host
  req : Req
  state : CallState Resp

/-- A thread of a network: where it runs, what it has to do, the requests it waits for, and the
thread whose request it serves. -/
structure Activity (Cmd : Type) (Reply : Cmd → Type) (Host Req Resp : Type) where
  host : Host
  prog : Program Cmd Reply Resp
  calls : Option (List (RemoteCall Host Req Resp))
  caller : Option Nat

/-- Hosts with a state each, and the threads that run on them. -/
structure Network (Cmd : Type) (Reply : Cmd → Type) (Host Req Resp Node : Type) where
  nodes : Host → Node
  threads : Nat → Option (Activity Cmd Reply Host Req Resp)

namespace Network

variable {Cmd : Type} {Reply : Cmd → Type} {Host Req Resp Node : Type}

inductive Label (Cmd : Type) (Reply : Cmd → Type) (Host Resp : Type)
  | spawn (tid : Nat) (host : Host) (p : Program Cmd Reply Resp)
  | perform (tid : Nat) (c : Cmd) (reply : Reply c)
  | fork (tid : Nat) (c : Cmd) (child : Nat)
  | send (tid : Nat)
  | deliver (tid i handler : Nat)
  | answer (tid i handler : Nat)
  | receive (tid : Nat)

/-- What threads may start, which commands are requests to other hosts, how requests are served,
what the other commands do, and which of them start another thread. -/
structure Rules (Cmd : Type) (Reply : Cmd → Type) (Host Req Resp Node : Type) where
  initial : (Host → Node) → Prop
  starts : Host → Program Cmd Reply Resp → Prop
  outgoing : Cmd → Option (List (Host × Req))
  collect : (c : Cmd) → List Resp → Option (Reply c)
  handle : Host → Req → Program Cmd Reply Resp
  exec : Host → Nat → Node → (c : Cmd) → Reply c → Node → Prop
  forks : Host → (c : Cmd) → Option (Reply c × Program Cmd Reply Resp) := fun _ _ => none

def setThread (net : Network Cmd Reply Host Req Resp Node) (tid : Nat) (a : Activity Cmd Reply Host Req Resp) :
    Network Cmd Reply Host Req Resp Node :=
  { net with threads := Function.update net.threads tid (some a) }

def setNode [DecidableEq Host] (net : Network Cmd Reply Host Req Resp Node) (host : Host) (node : Node) :
    Network Cmd Reply Host Req Resp Node :=
  { net with nodes := Function.update net.nodes host node }

theorem setThread_threads {net : Network Cmd Reply Host Req Resp Node} {tid other : Nat}
    {a b : Activity Cmd Reply Host Req Resp} :
    (net.setThread tid a).threads other = some b ↔ other = tid ∧ b = a ∨ other ≠ tid ∧
      net.threads other = some b := by
  by_cases same : other = tid
  · subst same
    simp [setThread, eq_comm]
  · simp [setThread, same]

theorem setThread_threads_none {net : Network Cmd Reply Host Req Resp Node} {tid other : Nat}
    {a : Activity Cmd Reply Host Req Resp} :
    (net.setThread tid a).threads other = none ↔ other ≠ tid ∧ net.threads other = none := by
  by_cases same : other = tid
  · subst same
    simp [setThread]
  · simp [setThread, same]

/-- Where a thread runs and whose request it serves. -/
def Activity.Alike (a b : Activity Cmd Reply Host Req Resp) : Prop := b.host = a.host ∧ b.caller = a.caller

theorem setThread_kept_of_free {net : Network Cmd Reply Host Req Resp Node} {tid other : Nat}
    {a c : Activity Cmd Reply Host Req Resp} (found : net.threads tid = some a) (free : net.threads other = none) :
    (net.setThread other c).threads tid = some a := by
  refine setThread_threads.2 (.inr ⟨?_, found⟩)
  rintro rfl
  rw [free] at found
  cases found

@[simp] theorem setThread_nodes {net : Network Cmd Reply Host Req Resp Node} {tid : Nat}
    {a : Activity Cmd Reply Host Req Resp} : (net.setThread tid a).nodes = net.nodes := rfl

variable [DecidableEq Host]

inductive Step (rules : Rules Cmd Reply Host Req Resp Node) : Network Cmd Reply Host Req Resp Node →
    Label Cmd Reply Host Resp → Network Cmd Reply Host Req Resp Node → Prop
  | spawn {net tid host p} (free : net.threads tid = none) (starts : rules.starts host p) :
      Step rules net (.spawn tid host p) (net.setThread tid ⟨host, p, none, none⟩)
  | perform {net tid host c next caller reply node}
      (running : net.threads tid = some ⟨host, .call c next, none, caller⟩) (here : rules.outgoing c = none)
      (exec : rules.exec host tid (net.nodes host) c reply node) :
      Step rules net (.perform tid c reply) ((net.setThread tid ⟨host, next reply, none, caller⟩).setNode host node)
  | fork {net tid host c next caller reply child p}
      (running : net.threads tid = some ⟨host, .call c next, none, caller⟩)
      (forks : rules.forks host c = some (reply, p)) (free : net.threads child = none) :
      Step rules net (.fork tid c child)
        ((net.setThread tid ⟨host, next reply, none, caller⟩).setThread child ⟨host, p, none, none⟩)
  | send {net tid host c next caller requests}
      (running : net.threads tid = some ⟨host, .call c next, none, caller⟩)
          (away : rules.outgoing c = some requests) :
      Step rules net (.send tid) (net.setThread tid
        ⟨host, .call c next, some (requests.map fun out => ⟨out.1, out.2, .sent⟩), caller⟩)
  | deliver {net tid host p calls caller i dst req handler}
      (waiting : net.threads tid = some ⟨host, p, some calls, caller⟩) (call : calls[i]? = some ⟨dst, req, .sent⟩)
      (free : net.threads handler = none) :
      Step rules net (.deliver tid i handler)
        ((net.setThread tid ⟨host, p, some (calls.set i ⟨dst, req, .serving handler⟩), caller⟩).setThread handler
          ⟨dst, rules.handle dst req, none, some tid⟩)
  | answer {net tid host p calls caller i dst req handler resp there}
      (waiting : net.threads tid = some ⟨host, p, some calls, caller⟩)
      (call : calls[i]? = some ⟨dst, req, .serving handler⟩)
      (done : net.threads handler = some ⟨there, .ret resp, none, some tid⟩) :
      Step rules net (.answer tid i handler)
        (net.setThread tid ⟨host, p, some (calls.set i ⟨dst, req, .answered resp⟩), caller⟩)
  | receive {net tid host c next calls caller resps reply}
      (waiting : net.threads tid = some ⟨host, .call c next, some calls, caller⟩)
      (answered : calls.map (·.state) = resps.map .answered) (collected : rules.collect c resps = some reply) :
      Step rules net (.receive tid) (net.setThread tid ⟨host, next reply, none, caller⟩)

def system (rules : Rules Cmd Reply Host Req Resp Node) :
    Transitions (Network Cmd Reply Host Req Resp Node) (Label Cmd Reply Host Resp) where
  init net := rules.initial net.nodes ∧ ∀ tid, net.threads tid = none
  step := Step rules

variable {net : Network Cmd Reply Host Req Resp Node}

theorem setNode_nodes {host there : Host} {node : Node} :
    (net.setNode host node).nodes there = if there = host then node else net.nodes there := by
  by_cases same : there = host
  · subst same
    simp [setNode]
  · simp [setNode, same]

/-- What a step does to a thread: nothing, or the step is one of the thread. -/
inductive Moves (rules : Rules Cmd Reply Host Req Resp Node) (net net' : Network Cmd Reply Host Req Resp Node)
    (tid : Nat) : Label Cmd Reply Host Resp → Activity Cmd Reply Host Req Resp →
        Activity Cmd Reply Host Req Resp → Prop
  | stays {label a} : Moves rules net net' tid label a a
  | performs {host c next caller reply} (here : rules.outgoing c = none)
      (exec : rules.exec host tid (net.nodes host) c reply (net'.nodes host)) :
      Moves rules net net' tid (.perform tid c reply) ⟨host, .call c next, none, caller⟩ ⟨host, next reply,
          none, caller⟩
  | forks {host c next caller reply child p} (forks : rules.forks host c = some (reply, p)) :
      Moves rules net net' tid (.fork tid c child) ⟨host, .call c next, none, caller⟩ ⟨host, next reply, none, caller⟩
  | sends {host c next caller requests} (away : rules.outgoing c = some requests) :
      Moves rules net net' tid (.send tid) ⟨host, .call c next, none, caller⟩
        ⟨host, .call c next, some (requests.map fun out => ⟨out.1, out.2, .sent⟩), caller⟩
  | delivers {host p calls caller i dst req handler} (call : calls[i]? = some ⟨dst, req, .sent⟩)
      (serves : net'.threads handler = some ⟨dst, rules.handle dst req, none, some tid⟩) :
      Moves rules net net' tid (.deliver tid i handler) ⟨host, p, some calls, caller⟩
        ⟨host, p, some (calls.set i ⟨dst, req, .serving handler⟩), caller⟩
  | answers {host p calls caller i dst req handler resp there} (call : calls[i]? = some ⟨dst, req, .serving handler⟩)
      (done : net.threads handler = some ⟨there, .ret resp, none, some tid⟩) :
      Moves rules net net' tid (.answer tid i handler) ⟨host, p, some calls, caller⟩
        ⟨host, p, some (calls.set i ⟨dst, req, .answered resp⟩), caller⟩
  | receives {host c next calls caller resps reply} (answered : calls.map (·.state) = resps.map .answered)
      (collected : rules.collect c resps = some reply) :
      Moves rules net net' tid (.receive tid) ⟨host, .call c next, some calls, caller⟩ ⟨host, next reply,
          none, caller⟩

section

variable {rules : Rules Cmd Reply Host Req Resp Node} {net' : Network Cmd Reply Host Req Resp Node}
  {label : Label Cmd Reply Host Resp}

theorem Step.moves (step : Step rules net label net') {tid : Nat} {a : Activity Cmd Reply Host Req Resp}
    (found : net.threads tid = some a) : ∃ a', net'.threads tid = some a' ∧ Moves rules net net' tid label a a' := by
  cases step with
  | spawn free => exact ⟨a, setThread_kept_of_free found free, .stays⟩
  | @fork tid' host c next caller reply child p running forks free =>
    have other : tid ≠ child := by
      rintro rfl
      rw [free] at found
      cases found
    by_cases same : tid = tid'
    · subst same
      cases found.symm.trans running
      exact ⟨_, setThread_threads.2 (.inr ⟨other, setThread_threads.2 (.inl ⟨rfl, rfl⟩)⟩), .forks forks⟩
    · exact ⟨a, setThread_threads.2 (.inr ⟨other, setThread_threads.2 (.inr ⟨same, found⟩)⟩), .stays⟩
  | @perform tid' host c next caller reply node running here exec =>
    by_cases same : tid = tid'
    · subst same
      cases found.symm.trans running
      refine ⟨_, setThread_threads.2 (.inl ⟨rfl, rfl⟩), .performs here ?_⟩
      simpa [setNode_nodes] using exec
    · exact ⟨a, setThread_threads.2 (.inr ⟨same, found⟩), .stays⟩
  | @send tid' host c next caller requests running away =>
    by_cases same : tid = tid'
    · subst same
      cases found.symm.trans running
      exact ⟨_, setThread_threads.2 (.inl ⟨rfl, rfl⟩), .sends away⟩
    · exact ⟨a, setThread_threads.2 (.inr ⟨same, found⟩), .stays⟩
  | @deliver tid' host p calls caller i dst req handler waiting call free =>
    have other {t : Nat} {b : Activity Cmd Reply Host Req Resp} (known : net.threads t = some b) : t ≠ handler := by
      rintro rfl
      rw [free] at known
      cases known
    by_cases same : tid = tid'
    · subst same
      cases found.symm.trans waiting
      exact ⟨_, setThread_threads.2 (.inr ⟨other waiting, setThread_threads.2 (.inl ⟨rfl, rfl⟩)⟩),
        .delivers call (setThread_threads.2 (.inl ⟨rfl, rfl⟩))⟩
    · exact ⟨a, setThread_threads.2 (.inr ⟨other found, setThread_threads.2 (.inr ⟨same, found⟩)⟩), .stays⟩
  | @answer tid' host p calls caller i dst req handler resp there waiting call done =>
    by_cases same : tid = tid'
    · subst same
      cases found.symm.trans waiting
      exact ⟨_, setThread_threads.2 (.inl ⟨rfl, rfl⟩), .answers call done⟩
    · exact ⟨a, setThread_threads.2 (.inr ⟨same, found⟩), .stays⟩
  | @receive tid' host c next calls caller resps reply waiting answered collected =>
    by_cases same : tid = tid'
    · subst same
      cases found.symm.trans waiting
      exact ⟨_, setThread_threads.2 (.inl ⟨rfl, rfl⟩), .receives answered collected⟩
    · exact ⟨a, setThread_threads.2 (.inr ⟨same, found⟩), .stays⟩

/-- A thread stays on its host, for its caller. -/
theorem Step.thread_kept (step : Step rules net label net') {tid : Nat} {a : Activity Cmd Reply Host Req Resp}
    (found : net.threads tid = some a) : ∃ a', net'.threads tid = some a' ∧ Activity.Alike a a' := by
  obtain ⟨a', found', moves⟩ := step.moves found
  refine ⟨a', found', ?_⟩
  cases moves <;> exact ⟨rfl, rfl⟩

/-- Hosts change by the commands of their own threads. -/
theorem Step.node_cases (step : Step rules net label net') (host : Host) :
    net'.nodes host = net.nodes host ∨ ∃ tid c next caller reply, label = .perform tid c reply ∧
      net.threads tid = some ⟨host, .call c next, none, caller⟩ ∧
      rules.exec host tid (net.nodes host) c reply (net'.nodes host) := by
  cases step with
  | @perform tid there c next caller reply node running here exec =>
    by_cases same : host = there
    · subst same
      refine .inr ⟨tid, c, next, caller, reply, rfl, running, ?_⟩
      simpa [setNode_nodes] using exec
    · exact .inl (by simp [setNode_nodes, same])
  | spawn | fork | send | deliver | answer | receive => exact .inl rfl

/-- Every thread issues only commands that are fine on its host, and its requests are fine there. -/
def Only (ok : Host → Cmd → Prop) (fits : Host → Req → Prop) (net : Network Cmd Reply Host Req Resp Node) : Prop :=
  ∀ tid a, net.threads tid = some a → a.prog.Only (ok a.host) ∧
    ∀ calls, a.calls = some calls → ∀ call ∈ calls, fits call.dst call.req

theorem Step.only {ok : Host → Cmd → Prop} {fits : Host → Req → Prop}
    (starts : ∀ host p, rules.starts host p → p.Only (ok host))
    (handle : ∀ host req, fits host req → (rules.handle host req).Only (ok host))
    (outgoing : ∀ host c requests, ok host c → rules.outgoing c = some requests → ∀ out ∈ requests, fits out.1 out.2)
    (forks : ∀ host c reply p, ok host c → rules.forks host c = some (reply, p) → p.Only (ok host))
    (only : net.Only ok fits) (step : Step rules net label net') : net'.Only ok fits := by
  cases step with
  | @spawn tid host p free started =>
    intro t a found
    rcases setThread_threads.1 found with ⟨_, rfl⟩ | ⟨_, before⟩
    · exact ⟨starts host p started, nofun⟩
    · exact only t a before
  | perform running here exec =>
    intro t a found
    rcases setThread_threads.1 found with ⟨_, rfl⟩ | ⟨_, before⟩
    · exact ⟨(only _ _ running).1.2 _, nofun⟩
    · exact only t a before
  | @fork tid host c next caller reply child p running forked free =>
    have follows := (only _ _ running).1
    intro t a found
    rcases setThread_threads.1 found with ⟨_, rfl⟩ | ⟨_, found⟩
    · exact ⟨forks host c reply p follows.1 forked, nofun⟩
    · rcases setThread_threads.1 found with ⟨_, rfl⟩ | ⟨_, before⟩
      · exact ⟨follows.2 _, nofun⟩
      · exact only t a before
  | @send tid host c next caller requests running away =>
    intro t a found
    rcases setThread_threads.1 found with ⟨_, rfl⟩ | ⟨_, before⟩
    · have follows := (only _ _ running).1
      refine ⟨follows, ?_⟩
      rintro calls ⟨⟩ call mem
      obtain ⟨out, listed, rfl⟩ := List.mem_map.1 mem
      exact outgoing host c requests follows.1 away out listed
    · exact only t a before
  | @deliver tid host p calls caller i dst req handler waiting sent free =>
    have fine := (only _ _ waiting).2 calls rfl
    have known : fits dst req := fine _ (List.mem_of_getElem? sent)
    intro t a found
    rcases setThread_threads.1 found with ⟨_, rfl⟩ | ⟨_, found⟩
    · exact ⟨handle dst req known, nofun⟩
    · rcases setThread_threads.1 found with ⟨_, rfl⟩ | ⟨_, before⟩
      · refine ⟨(only _ _ waiting).1, ?_⟩
        rintro calls' ⟨⟩ call mem
        rcases List.mem_or_eq_of_mem_set mem with mem | rfl
        · exact fine call mem
        · exact known
      · exact only t a before
  | @answer tid host p calls caller i dst req handler resp there waiting serving done =>
    have fine := (only _ _ waiting).2 calls rfl
    have known : fits dst req := fine _ (List.mem_of_getElem? serving)
    intro t a found
    rcases setThread_threads.1 found with ⟨_, rfl⟩ | ⟨_, before⟩
    · refine ⟨(only _ _ waiting).1, ?_⟩
      rintro calls' ⟨⟩ call mem
      rcases List.mem_or_eq_of_mem_set mem with mem | rfl
      · exact fine call mem
      · exact known
    · exact only t a before
  | receive waiting answered collected =>
    intro t a found
    rcases setThread_threads.1 found with ⟨_, rfl⟩ | ⟨_, before⟩
    · exact ⟨(only _ _ waiting).1.2 _, nofun⟩
    · exact only t a before

end

/-- What is closed under allowed steps is closed under any number of allowed commands of one thread. -/
theorem alone_closed {rules : Rules Cmd Reply Host Req Resp Node}
    {Reach : Network Cmd Reply Host Req Resp Node → Prop}
    {allow : Network Cmd Reply Host Req Resp Node → Label Cmd Reply Host Resp → Prop}
    (closed : ∀ {net label net'}, Reach net → allow net label → Step rules net label net' → Reach net')
    (reach : Reach net) (tid : Nat) {host : Host} {caller : Option Nat} {p q : Program Cmd Reply Resp}
    {nodes : Host → Node} {node node' : Node}
    (running : net.threads tid = some ⟨host, p, none, caller⟩) (here : net.nodes = Function.update nodes host node)
    (reaches : p.Reaches (fun s c reply s' =>
      (∀ net', net'.nodes = Function.update nodes host s → allow net' (.perform tid c reply)) ∧
        rules.outgoing c = none ∧ rules.exec host tid s c reply s') node q node') :
    Reach ((net.setThread tid ⟨host, q, none, caller⟩).setNode host node') := by
  induction reaches generalizing net with
  | @refl p node =>
    have same : (net.setThread tid ⟨host, p, none, caller⟩).setNode host node = net := by
      obtain ⟨nodes', threads⟩ := net
      cases here
      simp [setThread, setNode, ← running]
    rwa [same]
  | @step c next s mid q s' reply now rest ih =>
    have exec : rules.exec host tid (net.nodes host) c reply mid := by
      rw [here, Function.update_self]
      exact now.2.2
    have moved := closed reach (now.1 net here) (Step.perform running now.2.1 exec)
    have onward : ((net.setThread tid ⟨host, next reply, none, caller⟩).setNode host mid).threads tid =
        some ⟨host, next reply, none, caller⟩ := setThread_threads.2 (.inl ⟨rfl, rfl⟩)
    have there : ((net.setThread tid ⟨host, next reply, none, caller⟩).setNode host mid).nodes =
        Function.update nodes host mid := by simp [setNode, here]
    simpa [setThread, setNode] using ih moved onward there

section

variable {rules : Rules Cmd Reply Host Req Resp Node} (reach : (system rules).Reachable net) (tid : Nat)
include reach

theorem reachable_spawn {host : Host} {p : Program Cmd Reply Resp} (free : net.threads tid = none)
    (starts : rules.starts host p) : (system rules).Reachable (net.setThread tid ⟨host, p, none, none⟩) :=
  reach.next (Step.spawn free starts)

theorem reachable_send {host : Host} {c : Cmd} {next : Reply c → Program Cmd Reply Resp} {caller : Option Nat}
    {requests : List (Host × Req)} (running : net.threads tid = some ⟨host, .call c next, none, caller⟩)
    (away : rules.outgoing c = some requests) : (system rules).Reachable (net.setThread tid
      ⟨host, .call c next, some (requests.map fun out => ⟨out.1, out.2, .sent⟩), caller⟩) :=
  reach.next (Step.send running away)

theorem reachable_deliver (handler : Nat) {host dst : Host} {p : Program Cmd Reply Resp} {caller : Option Nat}
    {calls : List (RemoteCall Host Req Resp)} {i : Nat} {req : Req}
    (waiting : net.threads tid = some ⟨host, p, some calls, caller⟩) (call : calls[i]? = some ⟨dst, req, .sent⟩)
    (free : net.threads handler = none) : (system rules).Reachable
      ((net.setThread tid ⟨host, p, some (calls.set i ⟨dst, req, .serving handler⟩), caller⟩).setThread handler
        ⟨dst, rules.handle dst req, none, some tid⟩) :=
  reach.next (Step.deliver waiting call free)

theorem reachable_fork (child : Nat) {host : Host} {c : Cmd} {next : Reply c → Program Cmd Reply Resp}
    {caller : Option Nat} {reply : Reply c} {p : Program Cmd Reply Resp}
    (running : net.threads tid = some ⟨host, .call c next, none, caller⟩)
    (forks : rules.forks host c = some (reply, p)) (free : net.threads child = none) : (system rules).Reachable
      ((net.setThread tid ⟨host, next reply, none, caller⟩).setThread child ⟨host, p, none, none⟩) :=
  reach.next (Step.fork running forks free)

theorem reachable_answer (i handler : Nat) {host dst there : Host} {p : Program Cmd Reply Resp} {caller : Option Nat}
    {calls : List (RemoteCall Host Req Resp)} {req : Req} {resp : Resp}
    (waiting : net.threads tid = some ⟨host, p, some calls, caller⟩)
    (call : calls[i]? = some ⟨dst, req, .serving handler⟩)
    (done : net.threads handler = some ⟨there, .ret resp, none, some tid⟩) : (system rules).Reachable
      (net.setThread tid ⟨host, p, some (calls.set i ⟨dst, req, .answered resp⟩), caller⟩) :=
  reach.next (Step.answer waiting call done)

theorem reachable_receive (resps : List Resp) {host : Host} {c : Cmd} {next : Reply c → Program Cmd Reply Resp}
    {caller : Option Nat} {calls : List (RemoteCall Host Req Resp)} {reply : Reply c}
    (waiting : net.threads tid = some ⟨host, .call c next, some calls, caller⟩)
    (answered : calls.map (·.state) = resps.map .answered) (collected : rules.collect c resps = some reply) :
    (system rules).Reachable (net.setThread tid ⟨host, next reply, none, caller⟩) :=
  reach.next (Step.receive waiting answered collected)

/-- A thread may act on its own host any number of times without the others. -/
theorem reachable_alone {host : Host} {caller : Option Nat} {p q : Program Cmd Reply Resp} {node node' : Node}
    (running : net.threads tid = some ⟨host, p, none, caller⟩) (here : net.nodes host = node)
    (reaches : p.Reaches (fun s c reply s' => rules.outgoing c = none ∧ rules.exec host tid s c reply s')
      node q node') :
    (system rules).Reachable ((net.setThread tid ⟨host, q, none, caller⟩).setNode host node') := by
  subst here
  exact alone_closed (fun reach (_ : True) step => reach.next step) reach tid running
    (Function.update_eq_self _ _).symm (reaches.mono fun now => ⟨fun _ _ => trivial, now⟩)

end

end Network
