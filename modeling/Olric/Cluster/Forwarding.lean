import Olric.Cluster.Sequential
import Olric.Lib.Outline

namespace Olric

open Program

/-- The request is one of those that the command sends. -/
def Cmd.Sends (c : Cmd) (dst : Host) (req : Request) : Prop :=
  ∃ requests, c.outgoing = some requests ∧ (dst, req) ∈ requests

/-- The command passes no operation of a client on. -/
def Cmd.Inward (c : Cmd) : Prop := ∀ dst op, ¬ c.Sends dst (.external op)

/-- Members that all have a routing table of their own. A member is reached by its name. -/
structure Routes where
  config : Bytes → Config
  sum64 : Bytes → UInt64
  maxValueSize : Int
  tables : Bytes → Place → List Host
  own : ∀ addr, (config addr).this.name = addr

abbrev RoutedNetwork := Network Cmd Cmd.Reply Bytes Request Response Node

namespace Routes

variable (w : Routes)

/-- A list of owners may be empty here. -/
def exec (addr : Bytes) (tid : Tid) (s : Node) : (c : Cmd) → c.Reply → Node → Prop
  | .owners p, reply, s' => reply = w.tables addr p ∧ s' = s
  | c, reply, s' => s.exec tid c reply s'

/-- Clients send their operations to any member. Whatever else runs there passes on none of them.
Requests go to the names of the members. -/
def rules : Network.Rules Cmd Cmd.Reply Bytes Request Response Node where
  initial _ := True
  starts addr p := (∃ op, p = (w.config addr).clientOperation w.sum64 op) ∨ p.Only Cmd.Inward
  outgoing c := c.outgoing.map (List.map fun out => (out.1.name, out.2))
  collect := Cmd.collect
  handle addr := (w.config addr).serve w.sum64 w.maxValueSize
  exec addr tid s c reply s' := c.job = none ∧ w.exec addr tid s c reply s'
  forks addr := (w.config addr).forks

/-- The operation that a member gets when another one passes `op` on to it. -/
def passedOn (op : ClientOp) : Option ClientOp :=
  match (Request.external op).arrives w.maxValueSize with
  | some (.external op) => some op
  | _ => none

/-- The goroutine works on an operation that a client has sent to `entry` as `op` and that has been
passed on `n` times since. -/
inductive Passed (net : RoutedNetwork) (op : ClientOp) (entry : Bytes) : Nat → ClientOp → Nat → Prop
  | entered {tid p calls} : net.threads tid = some ⟨entry, p, calls, none⟩ → Passed net op entry tid op 0
  | passed {tid op₁ op₂ n i dst handler} : Passed net op entry tid op₁ n →
      net.HasCall tid i ⟨dst, .external op₁, .serving handler⟩ → w.passedOn op₁ = some op₂ →
      Passed net op entry handler op₂ (n + 1)

/-- No run passes the operation on more often than the bound says. -/
def PassesFinitely (op : ClientOp) (entry : Bytes) : Prop :=
  ∃ bound, ∀ net tid op' n, (Network.system w.rules).Reachable net → w.Passed net op entry tid op' n → n ≤ bound

/-- Where a member sends an operation if it does not take itself for the primary owner. It compares the
birthdates, too, so the name may be its own. -/
def forward (op : ClientOp) (addr : Bytes) : Option Bytes :=
  ((w.tables addr ((w.config addr).place false (op.hkey w.sum64))).getLast?.filter
    fun member => member ≠ (w.config addr).this).map Host.name

/-- One step of an operation. -/
def hop (at' : ClientOp × Bytes) : Option (ClientOp × Bytes) :=
  (w.forward at'.1 at'.2).bind fun dst => (w.passedOn at'.1).map fun op => (op, dst)

/-- The operation and the member that it is at after `n` steps. -/
def trail (op : ClientOp) (entry : Bytes) : Nat → Option (ClientOp × Bytes)
  | 0 => some (op, entry)
  | n + 1 => (trail op entry n).bind w.hop

end Routes

section Inward

variable {cfg : Config} {p : Place} {name key value : Bytes} {hkey : UInt64} {r : Ref} {timeout : Int64}

theorem inward_request {dst : Host} {req : Request} (inside : ∀ op, req ≠ .external op) :
    (Cmd.request dst req).Inward := by
  rintro dst' op ⟨_, ⟨⟩, mem⟩
  cases List.mem_singleton.1 mem
  exact inside op rfl

theorem inward_requestAll {dsts : List Host} {req : Request} (inside : ∀ op, req ≠ .external op) :
    (Cmd.requestAll dsts req).Inward := by
  rintro dst' op ⟨_, ⟨⟩, mem⟩
  obtain ⟨_, _, same⟩ := List.mem_map.1 mem
  cases same
  exact inside op rfl

theorem inward_here {c : Cmd} (here : c.outgoing = none) : c.Inward := by
  rintro dst op ⟨requests, away, _⟩
  rw [here] at away
  cases away

theorem inward_of_local {α : Type} {prog : Prog α} (here : prog.Only Cmd.Local) : prog.Only Cmd.Inward :=
  Follows.only here fun _ _ ok => inward_here ok.1

theorem inward_of_object (c : Cmd) (object : c.OnObject) : c.Inward := by
  cases c <;> first | exact object.elim | exact inward_here rfl

theorem getDMap_inward : (cfg.getDMap p name).Only Cmd.Inward := inward_of_local getDMap_local

theorem putKeyValBackup_inward : (cfg.putKeyValBackup hkey name key value timeout).Only Cmd.Inward :=
  Config.putKeyValBackup_only (inward_here rfl) (inward_here rfl) fun _ => inward_requestAll fun _ => nofun

theorem putKeyVal_inward : (cfg.putKeyVal hkey name key value timeout).Only Cmd.Inward :=
  Config.putKeyVal_only inward_of_object getDMap_inward
    (Config.backUp_only (inward_here rfl) (inward_here rfl) (fun _ => inward_requestAll fun _ => nofun)
      (inward_here rfl))
    (fun _ _ => inward_here rfl) (Config.purgeOldVersions_only (inward_here rfl) fun _ =>
      inward_request fun _ => nofun)

theorem getKeyVal_inward : (cfg.getKeyVal hkey name key).Only Cmd.Inward :=
  Config.getKeyVal_only inward_of_object getDMap_inward (Config.getFromOthers_only (fun _ => inward_here rfl)
    (fun _ => inward_request fun _ => nofun) fun _ => inward_request fun _ => nofun)

theorem deleteKey_inward : (cfg.deleteKey hkey name key).Only Cmd.Inward :=
  Config.deleteKey_only inward_of_object getDMap_inward (inward_here rfl) (fun _ => inward_request fun _ => nofun)
    (Config.deleteBackups_only (inward_here rfl) fun _ => inward_requestAll fun _ => nofun)

theorem findLockKey_inward : (cfg.findLockKey hkey name key).Only Cmd.Inward :=
  Config.findLockKey_only (inward_here rfl) fun _ => inward_request fun _ => nofun

theorem lockKey_inward : (cfg.lockKey hkey name key timeout).Only Cmd.Inward :=
  Config.lockKey_only inward_of_object getDMap_inward findLockKey_inward (fun _ => inward_here rfl)
    fun _ => inward_request fun _ => nofun

theorem unlockKey_inward : (cfg.unlockKey hkey name key).Only Cmd.Inward :=
  Config.unlockKey_only inward_of_object getDMap_inward findLockKey_inward fun _ => inward_request fun _ => nofun

/-- Only operations of clients are passed on. -/
theorem handle_inward {sum64 : Bytes → UInt64} {req : Request} (inside : ∀ op, req ≠ .external op) :
    (cfg.handle sum64 req).Only Cmd.Inward := by
  cases req with
  | deletePrev | deleteBackup => exact inward_of_local deleteLocal_local
  | getPrev => exact inward_of_local getPrevOperation_local
  | putBackup => exact inward_of_local putBackupOperation_local
  | getBackup => exact inward_of_local getBackupOperation_local
  | moveDMap =>
    exact Config.mergeDMaps_only inward_of_object (inward_here rfl) (fun _ => inward_here rfl) fun _ _ _ =>
      inward_here rfl
  | findLock => exact Config.findLockOperation_only inward_of_object getDMap_inward
  | lockPrev => exact Config.lockPrevOperation_only inward_of_object getDMap_inward fun _ => inward_here rfl
  | unlockPrev => exact Config.unlockPrevOperation_only inward_of_object getDMap_inward
  | external op => exact absurd rfl (inside op)

theorem moveDMap_inward {owner : Host} : (cfg.moveDMap p name r owner).Only Cmd.Inward :=
  Config.moveDMap_only inward_of_object (fun _ => inward_request fun _ => nofun) (inward_here rfl) (inward_here rfl)
    (inward_here rfl)

theorem job_inward (job : Job) : (cfg.job job).Only Cmd.Inward := by
  cases job with
  | putKeyValBackup => exact putKeyValBackup_inward.bind fun _ => .ret _
  | waitLockForTimeout r key timeout =>
    refine .call (inward_here rfl) fun channel => .call (inward_here rfl) fun heard => ?_
    cases heard with
    | true => exact .ret _
    | false => exact .call (inward_here rfl) fun _ => .ret _
  | moveDMap => exact moveDMap_inward

end Inward

/-- The owners that the goroutine has been told last. -/
def Cmd.located : (c : Cmd) → c.Reply → Option (Place × List Host) → Option (Place × List Host)
  | .owners p, reply, _ => some (p, reply)
  | _, _, told => told

namespace Routes

variable {w : Routes} {op : ClientOp} {addr entry : Bytes}

/-- Operations of clients are passed on to the last of the owners. -/
def passing (w : Routes) (addr : Bytes) : Discipline Cmd Cmd.Reply (Option (Place × List Host)) where
  allows told c := ∀ dst op, c.Sends dst (.external op) → ∃ owners,
    told = some ((w.config addr).place false (op.hkey w.sum64), owners) ∧ owners.getLast? = some dst ∧
      dst ≠ (w.config addr).this
  after told c reply := c.located reply told

theorem passing_of_inward {α : Type} {p : Prog α} (only : p.Only Cmd.Inward) (told : Option (Place × List Host)) :
    p.Follows (w.passing addr) told fun _ _ => True := by
  induction p generalizing told with
  | ret a => trivial
  | call c next ih => exact ⟨fun dst op sends => absurd sends (only.1 dst op), fun reply => ih reply (only.2 reply) _⟩

theorem onOwner_passing {here : Prog Response} (inside : here.Only Cmd.Inward) (told : Option (Place × List Host)) :
    ((w.config addr).onOwner (op.hkey w.sum64) op here).Follows (w.passing addr) told fun _ _ => True := by
  refine ⟨fun dst op sends => absurd sends (inward_here rfl dst op), fun owners => ?_⟩
  dsimp only [ret_bind, pure_eq]
  cases last : owners.getLast? with
  | none => trivial
  | some member =>
    dsimp only
    split
    · exact passing_of_inward inside _
    · next other =>
      refine ⟨?_, fun _ => trivial⟩
      rintro dst op' ⟨_, ⟨⟩, mem⟩
      cases List.mem_singleton.1 mem
      exact ⟨owners, rfl, last, other⟩

theorem here_inward (cfg : Config) (sum64 : Bytes → UInt64) (op : ClientOp) :
    (cfg.here sum64 op).Only Cmd.Inward := by
  cases op with
  | put => exact putKeyVal_inward
  | get => exact getKeyVal_inward
  | delete => exact deleteKey_inward
  | lockWithTimeout => exact lockKey_inward
  | unlock => exact unlockKey_inward

theorem clientOperation_passing (op : ClientOp) (told : Option (Place × List Host)) :
    ((w.config addr).clientOperation w.sum64 op).Follows (w.passing addr) told fun _ _ => True := by
  obtain ⟨_, same⟩ := (w.config addr).clientOperation_eq w.sum64 op
  rw [same]
  exact (onOwner_passing (here_inward _ _ op) told).bind fun _ _ _ => trivial

theorem serve_passing (req : Request) (told : Option (Place × List Host)) :
    ((w.config addr).serve w.sum64 w.maxValueSize req).Follows (w.passing addr) told fun _ _ => True := by
  unfold Config.serve
  split
  next arrived _ =>
    by_cases external : ∃ op, arrived = .external op
    · obtain ⟨op, rfl⟩ := external
      exact clientOperation_passing op told
    · exact passing_of_inward (handle_inward fun op same => external ⟨op, same⟩) told
  · trivial

abbrev Told := Points (Origin Bytes Request × Option (Place × List Host))

/-- What goroutines have been told is what the table of their member says. -/
def Truthful (w : Routes) (points : Told) : Prop :=
  ∀ {tid origin p owners}, points tid = some (origin, some (p, owners)) → owners = w.tables origin.host p

theorem Truthful.set {points : Told} {tid : Nat} {origin : Origin Bytes Request} {told : Option (Place × List Host)}
    (truthful : w.Truthful points) (here : ∀ p owners, told = some (p, owners) → owners = w.tables origin.host p) :
    w.Truthful (points.set tid (origin, told)) := by
  intro other origin' p owners known
  rcases Points.set_eq_some.1 known with ⟨_, same⟩ | ⟨_, before⟩
  · cases same
    exact here p owners rfl
  · exact truthful before

theorem located_of_outgoing {c : Cmd} {requests : List (Bytes × Request)} (away : w.rules.outgoing c = some requests)
    (reply : c.Reply) (told : Option (Place × List Host)) : c.located reply told = told := by
  cases c
  case owners => exact absurd away nofun
  all_goals rfl

theorem located_of_exec {c : Cmd} {reply : c.Reply} {tid : Tid} {s s' : Node} {told : Option (Place × List Host)}
    (run : w.exec addr tid s c reply s') (before : ∀ p owners, told = some (p, owners) → owners = w.tables addr p)
    (p : Place) (owners : List Host) (after : c.located reply told = some (p, owners)) :
    owners = w.tables addr p := by
  cases c
  case owners p' =>
    cases after
    exact run.1
  all_goals exact before p owners after

theorem outline (w : Routes) : Network.Outline w.rules (fun _ _ => True) (fun origin => w.passing origin.host)
    (fun _ _ _ => True) (fun _ _ points => w.Truthful points) where
  initial _ _ := nofun
  spawn {labels net points tid addr p} truthful _ _ _ starts := by
    refine ⟨none, ?_, truthful.set (by rintro _ _ ⟨⟩)⟩
    rcases starts with ⟨op, rfl⟩ | inward
    · exact clientOperation_passing op none
    · exact passing_of_inward inward none
  perform truthful _ known _ _ _ run :=
    truthful.set (located_of_exec run.2 fun p owners same => truthful (known.trans (by rw [same])))
  fork {labels net points tid origin g c reply child p} truthful _ known _ _ forks _ := by
    cases c with
    | go job =>
      cases forks
      refine ⟨none, passing_of_inward ((job_inward job).bind fun _ => .ret _) none,
        Truthful.set ?_ (by rintro _ _ ⟨⟩)⟩
      exact truthful.set fun p owners same => truthful (known.trans (by rw [← same]; rfl))
    | _ => cases forks
  silent truthful _ := truthful
  deliver truthful _ _ _ _ _ _ _ := ⟨none, serve_passing _ none, truthful.set (by rintro _ _ ⟨⟩)⟩
  receive truthful _ known _ away _ _ _ _ := by
    refine truthful.set fun p owners same => truthful (known.trans ?_)
    rw [← same]
    exact congrArg (fun told => some (_, told)) (located_of_outgoing away _ _).symm

/-- A request that is passed on goes where the table of the member says. -/
theorem forward_of_call {net : RoutedNetwork} (reach : (Network.system w.rules).Reachable net)
    {tid i handler : Nat} {dst : Bytes} (call : net.HasCall tid i ⟨dst, .external op, .serving handler⟩) :
    ∃ a b, net.threads tid = some a ∧ net.threads handler = some b ∧ b.host = dst ∧
      w.forward op a.host = some dst := by
  obtain ⟨labels, run⟩ := reach
  obtain ⟨points, truthful, outlined⟩ := w.outline.run run
  obtain ⟨told', known'⟩ := outlined.serving call
  obtain ⟨b, serving, there, _⟩ := outlined.thread known'
  obtain ⟨a, calls, running, waits, at'⟩ := call
  obtain ⟨origin, told, known, here, _, follows⟩ := outlined.follows running
  obtain ⟨c, next, calling, away⟩ := outlined.waits running calls waits
  rw [calling] at follows
  -- the request is one of those that the command sends, to a member of that name
  obtain ⟨requests, outgoing, same⟩ := Option.map_eq_some_iff.1 away
  have listed : (dst, Request.external op) ∈ requests.map fun out => (out.1.name, out.2) := by
    rw [same]
    exact List.mem_map.2 ⟨_, List.mem_of_getElem? at', rfl⟩
  obtain ⟨⟨member, req⟩, mem, sent⟩ := List.mem_map.1 listed
  cases sent
  obtain ⟨owners, rfl, last, other⟩ := follows.1 member op ⟨requests, outgoing, mem⟩
  have table := truthful known
  rw [here] at other table
  refine ⟨a, b, running, serving, there.symm, ?_⟩
  rw [forward, ← table]
  simp [last, other]

/-- An operation is where the tables lead it. -/
theorem Passed.trail {net : RoutedNetwork} (reach : (Network.system w.rules).Reachable net) {tid n : Nat}
    {op' : ClientOp} (passed : w.Passed net op entry tid op' n) :
    ∃ a, net.threads tid = some a ∧ w.trail op entry n = some (op', a.host) := by
  induction passed with
  | entered running => exact ⟨_, running, rfl⟩
  | passed _ call arrived ih =>
    obtain ⟨a, running, trail⟩ := ih
    obtain ⟨a', b, running', serving, there, forward⟩ := forward_of_call reach call
    cases running.symm.trans running'
    refine ⟨b, serving, ?_⟩
    rw [Routes.trail, trail, there]
    simp [hop, forward, arrived]

theorem Passed.mono {net net' : RoutedNetwork} {tid n : Nat} {op' : ClientOp}
    (keeps : ∀ {tid a}, net.threads tid = some a → ∃ b, net'.threads tid = some b ∧ b.host = a.host ∧
      b.caller = a.caller)
    (calls : ∀ {tid i dst req handler}, net.HasCall tid i ⟨dst, req, .serving handler⟩ →
      net'.HasCall tid i ⟨dst, req, .serving handler⟩)
    (passed : w.Passed net op entry tid op' n) : w.Passed net' op entry tid op' n := by
  induction passed with
  | entered running =>
    obtain ⟨⟨addr, p, calls, caller⟩, running', here, own⟩ := keeps running
    cases here
    cases own
    exact .entered running'
  | passed _ call arrived ih => exact .passed ih (calls call) arrived

/-- The first steps of an operation on a member that passes it on. -/
theorem clientOperation_forwards {dst : Bytes} (forward : w.forward op addr = some dst) :
    ∃ member next next', member.name = dst ∧ (w.config addr).clientOperation w.sum64 op =
      .call (.owners ((w.config addr).place false (op.hkey w.sum64))) next ∧
      next (w.tables addr ((w.config addr).place false (op.hkey w.sum64))) =
        .call (.request member (.external op)) next' := by
  obtain ⟨answer, same⟩ := (w.config addr).clientOperation_eq w.sum64 op
  obtain ⟨member, found, named⟩ := Option.map_eq_some_iff.1 forward
  obtain ⟨last, other⟩ := Option.filter_eq_some_iff.1 found
  have other : member ≠ (w.config addr).this := by simpa using other
  rw [same]
  refine ⟨member, _, fun r => .ret (answer r), named, rfl, ?_⟩
  dsimp only [ret_bind, pure_eq]
  rw [last]
  dsimp only
  rw [if_neg other]
  rfl

theorem serve_passedOn {op' : ClientOp} (arrived : w.passedOn op = some op') :
    (w.config addr).serve w.sum64 w.maxValueSize (.external op) = (w.config addr).clientOperation w.sum64 op' := by
  unfold passedOn at arrived
  split at arrived
  next same =>
    cases arrived
    exact Config.serve_of_arrives same
  · cases arrived

/-- The member asks the next one, whose handler has the operation as it arrives. -/
theorem forward_arrives {net : RoutedNetwork} (reach : (Network.system w.rules).Reachable net) {tid handler : Nat}
    {caller : Option Nat} {dst : Bytes} {op₁ op₂ : ClientOp}
    (running : net.threads tid = some ⟨addr, (w.config addr).clientOperation w.sum64 op₁, none, caller⟩)
    (forward : w.forward op₁ addr = some dst) (arrived : w.passedOn op₁ = some op₂)
    (free : net.threads handler = none) :
    ∃ p, ∃ net' : RoutedNetwork, (Network.system w.rules).Reachable net' ∧ ∀ other, net'.threads other =
      if other = handler then some ⟨dst, (w.config dst).clientOperation w.sum64 op₂, none, some tid⟩
      else if other = tid then some ⟨addr, p, some [⟨dst, .external op₁, .serving handler⟩], caller⟩
      else net.threads other := by
  obtain ⟨member, next, next', named, located, requested⟩ := clientOperation_forwards forward
  have differs : handler ≠ tid := by
    rintro rfl
    rw [free] at running
    cases running
  have asks : ((w.config addr).clientOperation w.sum64 op₁).Reaches
      (fun s c reply s' => w.rules.outgoing c = none ∧ w.rules.exec addr tid s c reply s') (net.nodes addr)
      (.call (.request member (.external op₁)) next') (net.nodes addr) := by
    rw [located, ← requested]
    exact .step _ ⟨rfl, rfl, rfl, rfl⟩ .refl
  have asked := Network.reachable_alone reach tid running rfl asks
  have away : w.rules.outgoing (.request member (.external op₁)) = some [(dst, .external op₁)] := by
    rw [← named]
    rfl
  have sent := Network.reachable_send asked tid (Network.setThread_threads.2 (.inl ⟨rfl, rfl⟩)) away
  refine ⟨.call (.request member (.external op₁)) next', _, Network.reachable_deliver sent tid handler (i := 0)
    (Network.setThread_threads.2 (.inl ⟨rfl, rfl⟩)) rfl
    (by simpa [Network.setThread, Network.setNode, differs] using free), fun other => ?_⟩
  by_cases new : other = handler
  · rw [if_pos new, new, ← serve_passedOn arrived]
    exact Network.setThread_threads.2 (.inl ⟨rfl, rfl⟩)
  · rw [if_neg new]
    refine (Function.update_of_ne new _ _).trans ?_
    by_cases same : other = tid
    · rw [if_pos same, same]
      exact Network.setThread_threads.2 (.inl ⟨rfl, rfl⟩)
    · simp [Network.setThread, Network.setNode, same]

/-- One more member passes the operation on. -/
theorem passes_once {net : RoutedNetwork} (reach : (Network.system w.rules).Reachable net) {tid n : Nat}
    {caller : Option Nat} {dst : Bytes} {op₁ op₂ : ClientOp} (passed : w.Passed net op entry tid op₁ n)
    (running : net.threads tid = some ⟨addr, (w.config addr).clientOperation w.sum64 op₁, none, caller⟩)
    (hop : w.hop (op₁, addr) = some (op₂, dst)) {handler : Nat} (free : net.threads handler = none) :
    ∃ net', (Network.system w.rules).Reachable net' ∧ w.Passed net' op entry handler op₂ (n + 1) ∧
      net'.threads handler = some ⟨dst, (w.config dst).clientOperation w.sum64 op₂, none, some tid⟩ ∧
      ∀ other, other ≠ tid → other ≠ handler → net'.threads other = net.threads other := by
  obtain ⟨dst', forward, arrives⟩ := Option.bind_eq_some_iff.1 hop
  obtain ⟨op₂', arrived, same⟩ := Option.map_eq_some_iff.1 arrives
  cases same
  obtain ⟨p, net', served, threads⟩ := forward_arrives reach running forward arrived free
  have differs : tid ≠ handler := by
    rintro rfl
    rw [free] at running
    cases running
  have waits : net'.HasCall tid 0 ⟨dst, .external op₁, .serving handler⟩ :=
    ⟨_, _, by rw [threads, if_neg differs, if_pos rfl], rfl, rfl⟩
  refine ⟨net', served, .passed (passed.mono ?_ ?_) waits arrived, by rw [threads, if_pos rfl], ?_⟩
  · intro other a found
    rw [threads]
    split
    · next new =>
      rw [new, free] at found
      cases found
    · split
      · next same =>
        rw [same, running] at found
        cases found
        exact ⟨_, rfl, rfl, rfl⟩
      · exact ⟨a, found, rfl, rfl⟩
  · rintro other i dst' req handler' ⟨a, calls, found, waits, at'⟩
    refine ⟨a, calls, ?_, waits, at'⟩
    rw [threads]
    split
    · next new =>
      rw [new, free] at found
      cases found
    · split
      · next same =>
        rw [same, running] at found
        cases found
        cases waits
      · exact found
  · intro other apart apart'
    rw [threads, if_neg apart', if_neg apart]

theorem passes_on (n : Nat) {op' : ClientOp} {addr : Bytes} (trail : w.trail op entry n = some (op', addr)) :
    ∃ net caller, (Network.system w.rules).Reachable net ∧ w.Passed net op entry n op' n ∧
      net.threads n = some ⟨addr, (w.config addr).clientOperation w.sum64 op', none, caller⟩ ∧
      ∀ other, n < other → net.threads other = none := by
  induction n generalizing op' addr with
  | zero =>
    cases trail
    have start : (Network.system w.rules).Reachable ⟨fun _ => emptyNode, fun _ => none⟩ :=
      .start ⟨trivial, fun _ => rfl⟩
    have spawned := Network.reachable_spawn start 0 rfl (.inl ⟨op, rfl⟩ : w.rules.starts entry _)
    refine ⟨_, none, spawned, .entered rfl, rfl, fun other later => ?_⟩
    exact Function.update_of_ne (by omega) _ _
  | succ n ih =>
    obtain ⟨⟨op₁, before⟩, at', hop⟩ := Option.bind_eq_some_iff.1 trail
    obtain ⟨net, caller, reach, passed, running, free⟩ := ih at'
    obtain ⟨net', reach', passed', running', others⟩ :=
      passes_once reach passed running hop (free (n + 1) (Nat.lt_succ_self n))
    refine ⟨net', some n, reach', passed', running', fun other later => ?_⟩
    rw [others other (by omega) (by omega)]
    exact free other (by omega)

/-- Operations are passed on finitely often exactly if the tables do not lead in a circle. -/
theorem passesFinitely_iff (w : Routes) (op : ClientOp) (entry : Bytes) :
    w.PassesFinitely op entry ↔ ∃ n, w.trail op entry n = none := by
  constructor
  · rintro ⟨bound, limit⟩
    refine ⟨bound + 1, ?_⟩
    by_contra goes
    obtain ⟨⟨op', addr⟩, trail⟩ := Option.ne_none_iff_exists'.1 goes
    obtain ⟨net, caller, reach, passed, _⟩ := passes_on (bound + 1) trail
    have within := limit net _ _ _ reach passed
    omega
  · rintro ⟨n, ends⟩
    have beyond (k : Nat) : w.trail op entry (n + k) = none := by
      induction k with
      | zero => exact ends
      | succ k ih => rw [← Nat.add_assoc, Routes.trail, ih]; rfl
    refine ⟨n, fun net tid op' k reach passed => ?_⟩
    obtain ⟨a, _, trail⟩ := passed.trail reach
    by_contra more
    have none := beyond (k - n)
    rw [Nat.add_sub_cancel' (by omega), trail] at none
    cases none

end Routes

/-- The table with the second member as the new primary owner has been made by the first, and the
second still has the table that it is about to replace. -/
def halfPushed : Routes where
  config addr := { soloConfig with this := ⟨addr, 0⟩ }
  sum64 _ := 7
  maxValueSize := 1048576
  tables addr _ := if addr = [80] then [⟨[80], 0⟩, ⟨[78], 0⟩] else [⟨[80], 0⟩]
  own _ := rfl

/-- Two members take each other for the primary owner. -/
theorem halfPushed_passes_on : ¬ halfPushed.PassesFinitely (.get [100] [107]) [80] := by
  have arrives : halfPushed.passedOn (.get [100] [107]) = some (.get [100] [107]) := rfl
  have there : halfPushed.forward (.get [100] [107]) [80] = some [78] := by decide
  have back : halfPushed.forward (.get [100] [107]) [78] = some [80] := by decide
  have around (n : Nat) : halfPushed.trail (.get [100] [107]) [80] n = some (.get [100] [107], [80]) ∨
      halfPushed.trail (.get [100] [107]) [80] n = some (.get [100] [107], [78]) := by
    induction n with
    | zero => exact .inl rfl
    | succ n ih =>
      rcases ih with first | second
      · right
        rw [Routes.trail, first]
        simp [Routes.hop, arrives, there]
      · left
        rw [Routes.trail, second]
        simp [Routes.hop, arrives, back]
  rintro ⟨bound, limit⟩
  obtain ⟨⟨op, addr⟩, trail⟩ : ∃ at', halfPushed.trail (.get [100] [107]) [80] (bound + 1) = some at' := by
    rcases around (bound + 1) with first | second
    · exact ⟨_, first⟩
    · exact ⟨_, second⟩
  obtain ⟨net, caller, reach, passed, _⟩ := Routes.passes_on (bound + 1) trail
  have within := limit net _ _ _ reach passed
  omega

end Olric
