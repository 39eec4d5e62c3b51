import Olric.Cluster.Operations
import Olric.Lib.Transitions

namespace Olric

/-- The owners of all partitions and of their backups, as a member has them. -/
abbrev Owners := Place → List Host

def OwnerLists.all (lists : OwnerLists) : Owners :=
  fun p => if p.backup then lists.backups p.id else lists.owners p.id

/-- What `updateRoutingOperation` sets, in the order in which it meets the entries of the table. -/
def settings (order : List (UInt64 × Route)) : List (Place × List Host) :=
  order.flatMap fun e => [(⟨false, e.1⟩, e.2.owners), (⟨true, e.1⟩, e.2.backups)]

/-- What the operation does with a table of partitions that there are. -/
theorem Db.setRoutes_eq (db : Db) {order : List (UInt64 × Route)}
    (inside : ∀ e ∈ order, e.1 < db.config.partitionCount) :
    db.setRoutes order = (settings order).forM fun e => issue (.setOwners e.1 e.2) := by
  induction order with
  | nil => rfl
  | cons e order ih =>
    obtain ⟨id, route⟩ := e
    have here : id < db.config.partitionCount := inside (id, route) List.mem_cons_self
    rw [setRoutes, ih fun e mem => inside e (List.mem_cons_of_mem _ mem)]
    simp only [lookup, if_pos here]
    rfl

namespace RoutingTable

/-- The entries of the table in an order in which a loop may meet them. -/
structure Iterates (rt : RoutingTable) (order : List (UInt64 × Route)) : Prop where
  nodup : (order.map Prod.fst).Nodup
  entries : ∀ id route, (id, route) ∈ order ↔ rt id = some route

/-- The list that the table has for a partition. -/
def look (rt : RoutingTable) (p : Place) : List Host :=
  let route := (rt p.id).getD ⟨[], []⟩
  if p.backup then route.backups else route.owners

variable {rt : RoutingTable} {order : List (UInt64 × Route)}

theorem Iterates.value (iterates : rt.Iterates order) {e : Place × List Host} (mem : e ∈ settings order) :
    e.2 = rt.look e.1 := by
  obtain ⟨⟨id, route⟩, inside, here⟩ := List.mem_flatMap.1 mem
  have found := (iterates.entries id route).1 inside
  simp only [List.mem_cons, List.not_mem_nil, or_false] at here
  rcases here with rfl | rfl <;> simp [look, found]

theorem Iterates.mem_settings (iterates : rt.Iterates order) {p : Place} (routed : rt p.id ≠ none) :
    p ∈ (settings order).map Prod.fst := by
  obtain ⟨route, found⟩ := Option.ne_none_iff_exists'.1 routed
  obtain ⟨backup, id⟩ := p
  have inside := (iterates.entries id route).2 found
  rw [settings, List.map_flatMap, List.mem_flatMap]
  refine ⟨_, inside, ?_⟩
  cases backup <;> simp

end RoutingTable

/-- A round of `updateRouting` that finds the same members in the ring and in the memberlist: the lists
that the members have had before it, and the lists and the table that the coordinator has made of its
own. The events that change the ring come after the memberlist has changed, and a round between the
two is none of these. -/
structure PushRound (cfg : Config) where
  round : Round
  before : Host → Owners
  lists : OwnerLists
  rt : RoutingTable
  made : cfg.distributePartitions round ⟨fun id => before cfg.this ⟨false, id⟩, fun id => before cfg.this ⟨true, id⟩⟩
      = .ok (lists, rt)

/-- A goroutine in `updateRoutingOperation`, with what it still has to set. -/
structure Installer where
  number : Nat
  todo : List (Place × List Host)

/-- The lists of all members, the last round of the coordinator, the members that it waits for, and the goroutines
that set lists. -/
structure Routing (cfg : Config) where
  lists : Host → Owners
  number : Nat
  last : Option (PushRound cfg)
  busy : Bool
  waiting : List Host
  installers : Host → List Installer

inductive RoutingLabel (cfg : Config)
  | push (r : PushRound cfg) (orders : Host → List (UInt64 × Route))
  | install (member : Host)
  | answer (member : Host)
  | lose (member : Host)
  | finish

variable {cfg : Config}

/-- `updateRoutingOnCluster` sends the table to everybody else in the ring. -/
def PushRound.targets (r : PushRound cfg) : List Host := r.round.live.filter (· ≠ cfg.this)

namespace Routing

def send (s : Routing cfg) (r : PushRound cfg) (orders : Host → List (UInt64 × Route)) : Routing cfg where
  lists := Function.update s.lists cfg.this r.lists.all
  number := s.number + 1
  last := some r
  busy := true
  waiting := r.targets
  installers member :=
    if member ∈ r.targets then s.installers member ++ [⟨s.number + 1, settings (orders member)⟩]
    else s.installers member

/-- The coordinator has `routingMx` until all requests of a round have ended. A request that is lost
ends for the coordinator, and what it has started at the member goes on. -/
inductive Step : Routing cfg → RoutingLabel cfg → Routing cfg → Prop
  | push {s : Routing cfg} {r : PushRound cfg} {orders : Host → List (UInt64 × Route)} :
      s.busy = false → r.before = s.lists → (∀ member, r.rt.Iterates (orders member)) →
          Step s (.push r orders) (s.send r orders)
  | install {s : Routing cfg} {member : Host} {before after : List Installer} {number : Nat} {p : Place}
      {hosts : List Host}
      {todo : List (Place × List Host)} : s.installers member = before ++ ⟨number, (p, hosts) :: todo⟩ :: after →
      Step s (.install member)
        { s with
          lists := Function.update s.lists member (Function.update (s.lists member) p hosts)
          installers := Function.update s.installers member (before ++ ⟨number, todo⟩ :: after) }
  | answer {s : Routing cfg} {member : Host} {before after : List Installer} {number : Nat} :
      s.installers member = before ++ ⟨number, []⟩ :: after →
      Step s (.answer member)
        { s with
          waiting := if number = s.number then s.waiting.erase member else s.waiting
          installers := Function.update s.installers member (before ++ after) }
  | lose {s : Routing cfg} {member : Host} : member ∈ s.waiting →
      Step s (.lose member) { s with waiting := s.waiting.erase member }
  | finish {s : Routing cfg} : s.busy = true → s.waiting = [] → Step s .finish { s with busy := false }

/-- A member becomes the coordinator. The members have any lists. -/
def system (cfg : Config) : Transitions (Routing cfg) (RoutingLabel cfg) where
  init s := s.last = none ∧ s.busy = false ∧ s.waiting = [] ∧ ∀ member, s.installers member = []
  step := Step

end Routing

/-- The table is being installed: what is not set yet is still to be set, and what a list has is of
this table or as before. -/
structure Installing (rt : RoutingTable) (before lists : Owners) (todo : List (Place × List Host)) : Prop where
  values : ∀ e ∈ todo, e.2 = rt.look e.1
  rest : ∀ p, rt p.id ≠ none → p ∈ todo.map Prod.fst ∨ lists p = rt.look p
  mixed : ∀ p, lists p = rt.look p ∨ lists p = before p

theorem RoutingTable.Iterates.installing {rt : RoutingTable} {order : List (UInt64 × Route)}
    (iterates : rt.Iterates order) (lists : Owners) : Installing rt lists lists (settings order) :=
  ⟨fun _ mem => iterates.value mem, fun _ routed => .inl (iterates.mem_settings routed), fun _ => .inr rfl⟩

theorem Installing.next {rt : RoutingTable} {before lists : Owners} {p : Place} {hosts : List Host}
    {todo : List (Place × List Host)} (installing : Installing rt before lists ((p, hosts) :: todo)) :
    Installing rt before (Function.update lists p hosts) todo := by
  have value : hosts = rt.look p := installing.values _ List.mem_cons_self
  refine ⟨fun e mem => installing.values e (List.mem_cons_of_mem _ mem), fun q routed => ?_, fun q => ?_⟩
  all_goals rcases Function.update_cases lists p hosts q with ⟨rfl, here⟩ | ⟨differs, here⟩ <;> rw [here]
  · exact .inr value
  · rcases installing.rest q routed with first | set
    · rw [List.map_cons, List.mem_cons] at first
      exact .inl (first.resolve_left differs)
    · exact .inr set
  · exact .inl value
  · exact installing.mixed q

namespace PushRound

variable {r : PushRound cfg} {member : Host}

theorem mem_targets : member ∈ r.targets ↔ member ∈ r.round.live ∧ member ≠ cfg.this := by
  rw [targets, List.mem_filter, decide_eq_true_eq]

theorem nodup_targets (r : PushRound cfg) : r.targets.Nodup := (r.round.names.of_map).filter _

theorem routed (r : PushRound cfg) {id : UInt64} (mem : id ∈ cfg.partIDs) :
    ∃ route, r.rt id = some route ∧ route.owners ⊆ r.round.live ∧ r.lists.owners id = route.owners ∧
      (cfg.Distributes r.round.toRing → r.lists.backups id = route.backups) := by
  obtain ⟨after, run, done, _⟩ :=
    Config.distribute_returns r.round cfg.partIDs Config.partIDs_nodup (⟨_, _⟩, fun _ => none)
  cases r.made.symm.trans run
  exact ⟨_, (done id mem).table, (done id mem).owners, rfl, fun distributes => (if_pos distributes).symm⟩

theorem look_of_routed {rt : RoutingTable} {id : UInt64} {route : Route} (routed : rt id = some route)
    (backup : Bool) : rt.look ⟨backup, id⟩ = if backup then route.backups else route.owners := by
  rw [RoutingTable.look, routed]
  rfl

/-- How far a member of the ring is with the table. -/
structure Reached (r : PushRound cfg) (member : Host) (lists : Owners) (todo : List (Place × List Host)) : Prop where
  target : member ∈ r.targets → Installing r.rt (r.before member) lists todo
  this : member = cfg.this → lists = r.lists.all

/-- A member that has nothing left to do has the lists of the table. The coordinator does not touch
its backups if it does not distribute any, and sends none. -/
theorem Reached.lists {lists : Owners} (reached : r.Reached member lists [])
    (live : member ∈ r.round.live) {id : UInt64} (mem : id ∈ cfg.partIDs) :
    ∃ route, r.rt id = some route ∧ route.owners ⊆ r.round.live ∧ lists ⟨false, id⟩ = route.owners ∧
      ((member = cfg.this → cfg.Distributes r.round.toRing) → lists ⟨true, id⟩ = route.backups) := by
  obtain ⟨route, routed, alive, owners, backups⟩ := r.routed mem
  refine ⟨route, routed, alive, ?_⟩
  by_cases this : member = cfg.this
  · rw [reached.this this]
    exact ⟨owners, fun distributes => backups (distributes this)⟩
  · have installed := reached.target (mem_targets.2 ⟨live, this⟩)
    have has (backup : Bool) : lists ⟨backup, id⟩ = if backup then route.backups else route.owners := by
      rw [← look_of_routed routed]
      rcases installed.rest ⟨backup, id⟩ (by rw [routed]; exact Option.some_ne_none _) with todo | set
      · cases todo
      · exact set
    exact ⟨has false, fun _ => has true⟩

end PushRound

namespace Routing

/-- A member whose requests are never lost has a goroutine that works for the round exactly as long
as the coordinator waits for it. -/
structure Steady (member : Host) (s : Routing cfg) : Prop where
  idle : s.busy = false → s.waiting = []
  nodup : s.waiting.Nodup
  working : member ∈ s.waiting → ∃ todo, s.installers member = [⟨s.number, todo⟩]
  resting : member ∉ s.waiting → s.installers member = []
  targets : ∀ r, s.last = some r → s.waiting ⊆ r.targets
  reached : ∀ r, s.last = some r → r.Reached member (s.lists member) ((s.installers member).flatMap Installer.todo)

variable {member : Host} {s s' : Routing cfg} {label : RoutingLabel cfg}

/-- The goroutine that takes a step is the only one of the member. -/
theorem Steady.only (steady : Steady member s) {before after : List Installer} {installer : Installer}
    (here : s.installers member = before ++ installer :: after) :
    member ∈ s.waiting ∧ before = [] ∧ after = [] ∧ installer.number = s.number := by
  by_cases waits : member ∈ s.waiting
  · obtain ⟨todo, one⟩ := steady.working waits
    rw [one] at here
    cases before with
    | nil =>
      cases here
      exact ⟨waits, rfl, rfl, rfl⟩
    | cons first before =>
      have length := congrArg List.length here
      simp at length
  · rw [steady.resting waits] at here
    simp at here

theorem installers_send {r : PushRound cfg} {orders : Host → List (UInt64 × Route)} (target : member ∈ r.targets) :
    (s.send r orders).installers member = s.installers member ++ [⟨s.number + 1, settings (orders member)⟩] :=
  if_pos target

theorem Steady.push {r : PushRound cfg} {orders : Host → List (UInt64 × Route)} (steady : Steady member s)
    (free : s.busy = false) (before : r.before = s.lists) (iterates : ∀ member, r.rt.Iterates (orders member)) :
    Steady member (s.send r orders) := by
  have resting : s.installers member = [] := steady.resting (by rw [steady.idle free]; exact List.not_mem_nil)
  have now (target : member ∈ r.targets) : (s.send r orders).installers member =
      [⟨s.number + 1, settings (orders member)⟩] := by
    rw [installers_send target, resting, List.nil_append]
  refine ⟨fun idle => (by cases idle), r.nodup_targets, fun target => ⟨_, now target⟩, fun other => ?_,
    fun r' last => ?_, fun r' last => ?_⟩
  · rw [send]
    dsimp only
    rw [if_neg (show member ∉ r.targets from other), resting]
  · cases last
    exact List.Subset.refl _
  · cases last
    refine ⟨fun target => ?_, fun this => ?_⟩
    · rw [now target, List.flatMap_singleton, before]
      have same : (s.send r orders).lists member = s.lists member :=
        Function.update_of_ne (PushRound.mem_targets.1 target).2 ..
      rw [same]
      exact (iterates member).installing _
    · subst this
      exact Function.update_self ..

theorem Steady.step (steady : Steady member s) (step : Step s label s') (kept : label ≠ .lose member) :
    Steady member s' := by
  cases step with
  | push free before iterates => exact steady.push free before iterates
  | @install other before after number p hosts todo here =>
    by_cases same : member = other
    · subst same
      obtain ⟨waits, rfl, rfl, rfl⟩ := steady.only here
      refine ⟨steady.idle, steady.nodup, fun _ => ⟨todo, Function.update_self ..⟩, fun away => absurd waits away,
        steady.targets, fun r last => ?_⟩
      have reached := steady.reached r last
      rw [here] at reached
      dsimp only
      rw [Function.update_self, Function.update_self]
      refine ⟨fun target => (reached.target target).next, fun this => ?_⟩
      exact absurd this (PushRound.mem_targets.1 (steady.targets r last waits)).2
    · refine ⟨steady.idle, steady.nodup, ?_, ?_, steady.targets, ?_⟩ <;> dsimp only <;>
        simp only [Function.update_of_ne same]
      · exact steady.working
      · exact steady.resting
      · exact steady.reached
  | @answer other before after number here =>
    by_cases same : member = other
    · subst same
      obtain ⟨waits, rfl, rfl, current⟩ := steady.only here
      have current : number = s.number := current
      rw [if_pos current]
      refine ⟨fun free => ?_, steady.nodup.erase member, fun again => absurd again steady.nodup.not_mem_erase,
        fun _ => ?_, fun r last h mem => steady.targets r last (List.mem_of_mem_erase mem), fun r last => ?_⟩
      · rw [steady.idle free, List.erase_nil]
      · exact Function.update_self ..
      · have reached := steady.reached r last
        rw [here] at reached
        dsimp only
        rw [Function.update_self]
        exact reached
    · have others : (if number = s.number then s.waiting.erase other else s.waiting).Sublist s.waiting := by
        split
        · exact List.erase_sublist ..
        · exact List.Sublist.refl _
      have waits : (member ∈ if number = s.number then s.waiting.erase other else s.waiting) ↔
          member ∈ s.waiting := by
        split
        · exact List.mem_erase_of_ne same
        · rfl
      refine ⟨fun free => ?_, steady.nodup.sublist others, ?_, ?_, fun r last h mem =>
        steady.targets r last (others.subset mem), ?_⟩
      · rw [steady.idle free, List.erase_nil, ite_self]
      all_goals dsimp only; simp only [Function.update_of_ne same, waits]
      · exact steady.working
      · exact steady.resting
      · exact steady.reached
  | @lose other waits =>
    have differs : member ≠ other := fun same => kept (same ▸ rfl)
    have waits : member ∈ s.waiting.erase other ↔ member ∈ s.waiting := List.mem_erase_of_ne differs
    refine ⟨fun free => ?_, steady.nodup.erase other, fun mem => steady.working (waits.1 mem),
      fun away => steady.resting fun mem => away (waits.2 mem),
      fun r last h mem => steady.targets r last (List.mem_of_mem_erase mem), steady.reached⟩
    rw [steady.idle free, List.erase_nil]
  | finish busy waiting =>
    exact ⟨fun _ => waiting, steady.nodup, steady.working, steady.resting, steady.targets, steady.reached⟩

theorem steady_of_run {labels : List (RoutingLabel cfg)} {allow : Routing cfg → RoutingLabel cfg → Prop}
    (run : (system cfg).Run allow labels s) (kept : ∀ s label, allow s label → label ≠ .lose member) :
    Steady member s := by
  refine run.invariant (Steady member) ?_ fun s label s' steady allowed step =>
    steady.step step (kept s label allowed)
  intro s ⟨last, _, waiting, installers⟩
  refine ⟨fun _ => waiting, by rw [waiting]; exact List.nodup_nil, fun mem => ?_, fun _ => installers member, ?_, ?_⟩
  · rw [waiting] at mem
    cases mem
  all_goals
    intro r some
    rw [last] at some
    cases some

/-- No goroutine is left when the round is over. -/
theorem Steady.settled (steady : Steady member s) (idle : s.busy = false) {r : PushRound cfg}
    (last : s.last = some r) : r.Reached member (s.lists member) [] := by
  have resting := steady.resting (by rw [steady.idle idle]; exact List.not_mem_nil)
  have reached := steady.reached r last
  rw [resting] at reached
  exact reached

/-- The entry that the coordinator sends. -/
def sentRoute : Route := ⟨[coordinatorHost], [leavingHost]⟩

end Routing

end Olric
