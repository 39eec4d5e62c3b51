import Olric.Cluster.Rules

namespace Olric

/-- Writes to a dmap of a partition on its primary owner, and moves of the dmap from a previous
owner to the primary. -/
inductive Members.WriteOrMove (members : Members) (partID : UInt64) (name : Bytes) (previous primary : Host) :
    Host → Prog Response → Prop
  | put (key value : Bytes) (timeout : Int64)
      (here : (members.config primary).place false (getHKey members.sum64 name key) = ⟨false, partID⟩) :
      WriteOrMove members partID name previous primary primary
        ((members.config primary).putKeyVal (getHKey members.sum64 name key) name key value timeout)
  | delete (key : Bytes)
      (here : (members.config primary).place false (getHKey members.sum64 name key) = ⟨false, partID⟩) :
      WriteOrMove members partID name previous primary primary
        ((members.config primary).deleteKey (getHKey members.sum64 name key) name key)
  | move : WriteOrMove members partID name previous primary previous
      (answered ((members.config previous).moveStored ⟨false, partID⟩ name primary))

/-- An operation on `host` that holds a dmap mutex there and waits for `other`, whose handler
waits for the mutex `there`. -/
def Waits (net : Cluster) (host other : Host) (tid : Tid) (mutex there : Ref) : Prop :=
  ∃ p calls req handler next dm, net.threads tid = some ⟨host, p, some calls, none⟩ ∧
    (net.nodes host).dmaps mutex = some dm ∧ dm.mutex = some tid ∧ ⟨other, req, .serving handler⟩ ∈ calls ∧
    net.threads handler = some ⟨other, .call (.lock there) next, none, some tid⟩

/-- Two operations on two members, each holding the mutex that the other's handler waits for. -/
def Deadlocked (net : Cluster) (previous primary : Host) : Prop :=
  ∃ writer mover r r', Waits net primary previous writer r r' ∧ Waits net previous primary mover r' r

/-- An operation that was started on the host, not a handler, holds a dmap mutex. -/
def HoldsMutex (net : Cluster) (host : Host) : Prop :=
  ∃ tid a r dm, net.threads tid = some a ∧ a.host = host ∧ a.caller = none ∧
    (net.nodes host).dmaps r = some dm ∧ dm.mutex = some tid

/-- An operation that was started on the host has a request to `other` that is not answered. -/
def Asks (net : Cluster) (host other : Host) : Prop :=
  ∃ tid a calls call, net.threads tid = some a ∧ a.host = host ∧ a.caller = none ∧ a.calls = some calls ∧
    call ∈ calls ∧ call.dst = other ∧ ∀ resp, call.state ≠ .answered resp

/-- A write on the primary owner does not send a request to the previous owner while a move there
holds the mutex, and a move does not take the mutex while such a request is unanswered. -/
def ApartFromMoves (previous primary : Host) (net : Cluster) : ClusterLabel → Prop
  | .send tid => ∀ c next requests req, net.threads tid = some ⟨primary, .call c next, none, none⟩ →
      c.outgoing = some requests → (previous, req) ∈ requests → ¬ HoldsMutex net previous
  | .perform tid (.lock _) _ => ∀ p, net.threads tid = some ⟨previous, p, none, none⟩ → ¬ Asks net primary previous
  | _ => True

/-- A command leaves the mutexes of dmaps as they were, unlocks one, or locks one for its goroutine. -/
theorem Node.exec_mutex {tid holder : Tid} {s s' : Node} {c : Cmd} {reply : c.Reply} {r : Ref} {dm' : DMap}
    (run : s.exec tid c reply s') (found : s'.dmaps r = some dm') (held : dm'.mutex = some holder) :
    (∃ dm, s.dmaps r = some dm ∧ dm.mutex = some holder) ∨ (c = .lock r ∧ holder = tid) := by
  rcases Node.exec_origin run found with ⟨dm, before, change⟩ | ⟨_, str, rfl, _⟩
  · cases change with
    | lock =>
      cases held
      exact .inr ⟨rfl, rfl⟩
    | unlock => cases held
    | other | put | delete | close | setLocker | enter | acquire | dec | release | oplog =>
      exact .inl ⟨_, before, held⟩
  · cases held

section

variable {members : Members} {starts : Host → Prog Response → Prop} {previous primary : Host} {net net' : Cluster}
  {label : ClusterLabel}

/-- Every locked mutex has been locked by a goroutine of the host. -/
def MutexesOwned (net : Cluster) : Prop :=
  ∀ host r dm tid, (net.nodes host).dmaps r = some dm → dm.mutex = some tid → ∃ a, net.threads tid = some a

theorem asks_of_step {host other : Host} (step : Network.Step (members.rules starts) net label net')
    (asks : Asks net' host other) : Asks net host other ∨ ∃ tid c next requests req, label = .send tid ∧
      net.threads tid = some ⟨host, .call c next, none, none⟩ ∧ c.outgoing = some requests ∧
        (other, req) ∈ requests := by
  obtain ⟨t, a, calls, call, found, rfl, own, waits, mem, rfl, unanswered⟩ := asks
  have old (before : net.threads t = some a) : Asks net a.host call.dst :=
    ⟨t, a, calls, call, before, rfl, own, waits, mem, rfl, unanswered⟩
  cases step with
  | spawn free starts =>
    rcases Network.setThread_threads.1 found with ⟨_, rfl⟩ | ⟨_, before⟩
    · cases waits
    · exact .inl (old before)
  | perform running here exec =>
    rcases Network.setThread_threads.1 found with ⟨_, rfl⟩ | ⟨_, before⟩
    · cases waits
    · exact .inl (old before)
  | fork _ forks => cases forks
  | @send tid host c next caller requests running away =>
    rcases Network.setThread_threads.1 found with ⟨_, rfl⟩ | ⟨_, before⟩
    · cases own
      cases waits
      obtain ⟨⟨dst, req⟩, listed, rfl⟩ := List.mem_map.1 mem
      exact .inr ⟨tid, c, next, requests, req, rfl, running, away, listed⟩
    · exact .inl (old before)
  | @deliver tid host p before caller i dst req handler waiting sent free =>
    rcases Network.setThread_threads.1 found with ⟨_, rfl⟩ | ⟨_, found⟩
    · cases waits
    · rcases Network.setThread_threads.1 found with ⟨rfl, rfl⟩ | ⟨_, before⟩
      · cases waits
        rcases List.mem_or_eq_of_mem_set mem with mem | rfl
        · exact .inl ⟨t, _, before, call, waiting, rfl, own, rfl, mem, rfl, unanswered⟩
        · exact .inl ⟨t, _, before, _, waiting, rfl, own, rfl, List.mem_of_getElem? sent, rfl, nofun⟩
      · exact .inl (old before)
  | @answer tid host p before caller i dst req handler resp there waiting serving done =>
    rcases Network.setThread_threads.1 found with ⟨rfl, rfl⟩ | ⟨_, before⟩
    · cases waits
      rcases List.mem_or_eq_of_mem_set mem with mem | rfl
      · exact .inl ⟨t, _, before, call, waiting, rfl, own, rfl, mem, rfl, unanswered⟩
      · exact absurd rfl (unanswered resp)
    · exact .inl (old before)
  | receive waiting answered collected =>
    rcases Network.setThread_threads.1 found with ⟨_, rfl⟩ | ⟨_, before⟩
    · cases waits
    · exact .inl (old before)

/-- The holder of a mutex after a step held it before, or has taken it in the step. -/
theorem mutex_of_step {host : Host} {r : Ref} {dm : DMap} {tid : Tid}
    (step : Network.Step (members.rules starts) net label net') (found : (net'.nodes host).dmaps r = some dm)
    (held : dm.mutex = some tid) : (∃ dm, (net.nodes host).dmaps r = some dm ∧ dm.mutex = some tid) ∨
      ∃ p caller, label = .perform tid (.lock r) () ∧ net.threads tid = some ⟨host, p, none, caller⟩ := by
  cases step with
  | @perform tid' there c next caller reply node running here exec =>
    rw [Network.setNode_nodes] at found
    split at found
    next same =>
      subst same
      rcases Node.exec_mutex exec.1 found held with before | ⟨rfl, rfl⟩
      · exact .inl before
      · exact .inr ⟨_, caller, rfl, running⟩
    next => exact .inl ⟨dm, found, held⟩
  | spawn | fork | send | deliver | answer | receive => exact .inl ⟨dm, found, held⟩

theorem MutexesOwned.step (owned : MutexesOwned net) (step : Network.Step (members.rules starts) net label net') :
    MutexesOwned net' := by
  intro host r dm tid found held
  have known : ∃ a, net.threads tid = some a := by
    rcases mutex_of_step step found held with ⟨dm, before, held⟩ | ⟨p, caller, _, running⟩
    · exact owned host r dm tid before held
    · exact ⟨_, running⟩
  obtain ⟨a, known⟩ := known
  obtain ⟨a', kept, _⟩ := step.thread_kept known
  exact ⟨a', kept⟩

theorem holdsMutex_of_step {host : Host} (owned : MutexesOwned net)
    (step : Network.Step (members.rules starts) net label net') (holds : HoldsMutex net' host) :
    HoldsMutex net host ∨ ∃ tid r p, label = .perform tid (.lock r) () ∧
      net.threads tid = some ⟨host, p, none, none⟩ := by
  obtain ⟨t, a, r, dm, found, rfl, own, mutex, held⟩ := holds
  have same {b} (before : net.threads t = some b) : b.host = a.host ∧ b.caller = none := by
    obtain ⟨a', now, host, caller⟩ := step.thread_kept before
    cases now.symm.trans found
    exact ⟨host.symm, caller.symm.trans own⟩
  rcases mutex_of_step step mutex held with ⟨dm, before, held⟩ | ⟨p, caller, taken, running⟩
  · obtain ⟨b, known⟩ := owned a.host r dm t before held
    obtain ⟨host, caller⟩ := same known
    exact .inl ⟨t, b, r, dm, known, host, caller, before, held⟩
  · obtain ⟨_, caller⟩ := same running
    dsimp only at caller
    subst caller
    exact .inr ⟨t, r, p, taken, running⟩

/-- Whatever operations are started: where the two kinds keep apart, none of them asks the previous
owner while another one holds a mutex there. -/
theorem apart_of_run {labels : List ClusterLabel}
    (run : (Network.system (members.rules starts)).Run (ApartFromMoves previous primary) labels net) :
    MutexesOwned net ∧ ¬ (Asks net primary previous ∧ HoldsMutex net previous) := by
  refine run.invariant
    (fun net => MutexesOwned net ∧ ¬ (Asks net primary previous ∧ HoldsMutex net previous)) ?_ ?_
  · rintro net ⟨idle, none⟩
    constructor
    · intro host r dm tid found held
      rw [(idle host r dm found).1] at held
      cases held
    · rintro ⟨⟨tid, a, _, _, found, _⟩, _⟩
      rw [none tid] at found
      cases found
  · rintro net label net' ⟨owned, apart⟩ allowed step
    refine ⟨owned.step step, ?_⟩
    rintro ⟨asks, holds⟩
    rcases holdsMutex_of_step owned step holds with held | ⟨tid, r, p, rfl, running⟩
    · rcases asks_of_step step asks with asked | ⟨tid, c, next, requests, req, rfl, running, away, listed⟩
      · exact apart ⟨asked, held⟩
      · exact allowed c next requests req running away listed held
    · rcases asks_of_step step asks with asked | ⟨_, _, _, _, _, sends, _⟩
      · exact allowed p running asked
      · cases sends

/-- If writes on the primary owner and moves on the previous owner keep apart, no run comes to a
deadlock of the two. -/
theorem apart_not_deadlocked {partID : UInt64} {name : Bytes} {labels : List ClusterLabel}
    (run : (Network.system (members.rules (members.WriteOrMove partID name previous primary))).Run
      (ApartFromMoves previous primary) labels net) : ¬ Deadlocked net previous primary := by
  rintro ⟨writer, mover, r, r', ⟨p, calls, req, handler, next, dm, found, _, _, mem, _⟩,
    ⟨p', calls', req', handler', next', dm', found', mutex, held, _⟩⟩
  exact (apart_of_run run).2 ⟨⟨writer, _, calls, _, found, rfl, rfl, rfl, mem, rfl, nofun⟩,
    ⟨mover, _, r', dm', found', rfl, rfl, mutex, held⟩⟩

end

open Program

/-- The dmap of `restoredNode`, locked. -/
def lockedDMap (tid : Tid) : DMap :=
  ⟨⟨[⟨∅, .zeroed 1048576, 0, 1048576, 0, 0⟩], false, false⟩, some tid, some newLocker, none⟩

theorem restoredNode_idle (r : Ref) (dm : DMap) (found : restoredNode.dmaps r = some dm) : dm.Idle := by
  simp only [restoredNode] at found
  split at found
  · cases found
    exact ⟨rfl, rfl⟩
  · cases found

theorem delete_reaches_request : ∃ next, ((twoMembers.config primaryHost).deleteKey 7 [100] [107]).Reaches
    (twoMembers.Acts 0) restoredNode
    (.call (.request previousHost (.deletePrev [100] [107])) next) (restoredNode.setDMap 0 (lockedDMap 0)) := by
  dsimp only [Config.deleteKey, Config.getDMap, withLock, Config.delKeyVal, bind_eq, act, call_bind,
    ret_bind, pure_eq]
  exact ⟨_, .step (some 0) ⟨rfl, ⟨restoredNode_lookup.symm, rfl⟩, trivial⟩
    (.step () ⟨rfl, ⟨_, rfl, rfl, rfl⟩, trivial⟩
    (.step [previousHost, primaryHost] ⟨rfl, ⟨by simp, rfl⟩, rfl⟩ .refl))⟩

theorem move_reaches_request : ∃ payload next,
    (answered ((twoMembers.config previousHost).moveStored ⟨false, 0⟩ [100] primaryHost)).Reaches (twoMembers.Acts 1)
      restoredNode (.call (.request primaryHost (.moveDMap false ⟨0, [100], some payload⟩)) next)
      (restoredNode.setDMap 0 (lockedDMap 1)) := by
  dsimp only [answered, Config.moveStored, Config.moveDMap, withLock, Config.lockCount, bind_eq, act,
    call_bind, ret_bind, pure_eq]
  exact ⟨_, _, .step (some 0) ⟨rfl, ⟨restoredNode_lookup.symm, rfl⟩, trivial⟩ (.step ()
    ⟨rfl, ⟨_, rfl, rfl, rfl⟩, trivial⟩
      (.step (0 : Nat) ⟨rfl, ⟨_, newLocker, rfl, rfl, rfl, rfl⟩, trivial⟩ (.step (.ok _)
    ⟨rfl, ⟨_, rfl, rfl, rfl⟩, trivial⟩ .refl)))⟩

theorem deletePrev_reaches_lock {s : Node} (tid : Tid) (stored : (s.partition ⟨false, 0⟩).m.lookup [100] = some 0) :
    ∃ next, ((twoMembers.config previousHost).handle twoMembers.sum64 (.deletePrev [100] [107])).Reaches
      (twoMembers.Acts tid) s
      (.call (.lock 0) next) s := by
  dsimp only [Config.handle, Config.deletePrevOperation, Config.deleteLocal, Config.getDMap, withLock, bind_eq, act,
    call_bind, ret_bind, pure_eq]
  exact ⟨_, .step (some 0) ⟨rfl, ⟨stored.symm, rfl⟩, trivial⟩ .refl⟩

theorem merge_reaches_lock {s : Node} (tid : Tid) (payload : Transport) (free : s.dmaps 1 = none)
    (stored : (s.partition ⟨false, 0⟩).m.lookup [100] = some 0) : ∃ next str,
      ((twoMembers.config primaryHost).handle twoMembers.sum64 (.moveDMap false ⟨0, [100], some payload⟩)).Reaches
      (twoMembers.Acts tid) s
      (.call (.lock 0) next) (s.setDMap 1 ⟨str, none, none, none⟩) := by
  dsimp only [Config.handle, Config.mergeDMaps, withLock, bind_eq, act, call_bind, ret_bind, pure_eq]
  exact ⟨_, _, .step (some 1) ⟨rfl, ⟨free, _, rfl, rfl⟩, trivial⟩ (.step (some 0)
    ⟨rfl, ⟨stored.symm, rfl⟩, trivial⟩ .refl)⟩

theorem delete_and_move_deadlock : ∃ labels net, (Network.system (twoMembers.rules
    (twoMembers.WriteOrMove 0 [100] previousHost primaryHost))).AnyRun labels net ∧
      Deadlocked net previousHost primaryHost := by
  obtain ⟨next₀, deletes⟩ := delete_reaches_request
  obtain ⟨payload, next₁, moves⟩ := move_reaches_request
  have start : (Network.system (twoMembers.rules (twoMembers.WriteOrMove 0 [100] previousHost primaryHost))).Reachable
      ⟨fun _ => restoredNode, fun _ => none⟩ := by
    exact .start ⟨fun _ => restoredNode_idle, fun _ => rfl⟩
  have spawned₀ := Network.reachable_spawn start 0 rfl (.inl (.delete [107] rfl))
  have asked₀ := Network.reachable_send (Network.reachable_alone spawned₀ 0 rfl rfl deletes) 0 rfl rfl
  have spawned₁ := Network.reachable_spawn asked₀ 1 rfl (.inl .move)
  have asked₁ := Network.reachable_send (Network.reachable_alone spawned₁ 1 rfl rfl moves) 1 rfl rfl
  have served₀ := Network.reachable_deliver asked₁ 0 2 rfl (i := 0) rfl rfl
  have served₁ := Network.reachable_deliver served₀ 1 3 rfl (i := 0) rfl rfl
  obtain ⟨next₂, locks₂⟩ := deletePrev_reaches_lock (s := restoredNode.setDMap 0 (lockedDMap 1)) 2 restoredNode_lookup
  obtain ⟨next₃, str, locks₃⟩ := merge_reaches_lock (s := restoredNode.setDMap 0 (lockedDMap 0)) 3 payload rfl
    restoredNode_lookup
  have waiting₀ := Network.reachable_alone served₁ 2 rfl rfl locks₂
  obtain ⟨labels, waiting₁⟩ := Network.reachable_alone waiting₀ 3 rfl rfl locks₃
  exact ⟨labels, _, waiting₁, 0, 1, 0, 0,
    ⟨_, _, _, 2, next₂, lockedDMap 0, rfl, rfl, rfl, .head _, rfl⟩,
    ⟨_, _, _, 3, next₃, lockedDMap 1, rfl, rfl, rfl, .head _, rfl⟩⟩

/-- The delete's request is on its way when no move holds the mutex. -/
theorem delete_apart_from_moves : ∃ labels net, (Network.system (twoMembers.rules
    (twoMembers.WriteOrMove 0 [100] previousHost primaryHost))).Run (ApartFromMoves previousHost primaryHost)
      labels net ∧
      Asks net primaryHost previousHost ∧ ¬ Deadlocked net previousHost primaryHost := by
  have start : (Network.system (twoMembers.rules (twoMembers.WriteOrMove 0 [100] previousHost primaryHost))).Run
      (ApartFromMoves previousHost primaryHost) [] ⟨fun _ => restoredNode, fun _ => none⟩ :=
    .start ⟨fun _ => restoredNode_idle, fun _ => rfl⟩
  have spawned :=
    start.andThenAllowed (.spawn 0 primaryHost ((twoMembers.config primaryHost).deleteKey 7 [100] [107]))
    trivial (.spawn rfl (.inl (.delete [107] rfl)))
  have loaded := spawned.andThenAllowed (.perform 0 (.load ⟨false, 0⟩ [100]) (some 0)) trivial
    (.perform rfl rfl ⟨⟨restoredNode_lookup.symm, rfl⟩, trivial⟩)
  have locked := loaded.andThenAllowed (.perform 0 (.lock 0) ()) (by rintro p ⟨⟩)
    (.perform rfl rfl ⟨⟨_, rfl, rfl, rfl⟩, trivial⟩)
  have listed := locked.andThenAllowed (.perform 0 (.owners ⟨false, 0⟩) [previousHost, primaryHost]) trivial
    (.perform rfl rfl ⟨⟨by simp, rfl⟩, rfl⟩)
  have run := listed.andThenAllowed (.send 0) (by
    rintro c next requests req _ _ _ ⟨tid, a, r, dm, _, _, _, found, held⟩
    rw [(restoredNode_idle r dm found).1] at held
    cases held) (.send rfl rfl)
  exact ⟨_, _, run, ⟨0, _, _, _, rfl, rfl, rfl, rfl, .head _, rfl, nofun⟩, apart_not_deadlocked run⟩

end Olric
