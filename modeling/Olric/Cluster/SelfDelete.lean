import Olric.Cluster.Deadlock
import Olric.Node.Eviction

namespace Olric

open Program

/-- The routing table gives one of the known owners lists for a primary partition. -/
def Cmd.OwnersAmong (known : List Host → Prop) : (c : Cmd) → c.Reply → Prop
  | .owners p, reply => p.backup = false → known reply
  | _, _ => True

/-- A command of a goroutine, after whatever the others have done. -/
def Node.Amid (known : List Host → Prop) (tid : Tid) (_ : Node) (c : Cmd) (reply : c.Reply) (s' : Node) : Prop :=
  (∃ mid : Node, mid.exec tid c reply s') ∧ c.OwnersAmong known reply

/-- A request that goes to the address of the member itself, for an operation that takes the mutex
of the dmap. -/
def Config.AsksItself (cfg : Config) : Cmd → Prop
  | .request dst (.deletePrev ..) => dst.name = cfg.this.name
  | _ => False

/-- The goroutines that call `delKeyVal`. -/
inductive Config.Deleting (cfg : Config) : Prog Response → Prop
  | deleteKey (hkey : UInt64) (name key : Bytes) : Deleting cfg (cfg.deleteKey hkey name key)
  | eviction (name : Bytes) (r : Ref) (passes : Nat) : Deleting cfg (answered (cfg.scanDMapForEviction name r passes))

namespace SelfDelete

variable {cfg : Config} {known : List Host → Prop} {tid : Tid} {s : Node} {r : Ref} {hkey : UInt64} {name key : Bytes}

/-- No command of the program asks the member itself. -/
def Keeps {α : Type} (cfg : Config) (known : List Host → Prop) (tid : Tid) (p : Prog α) (s : Node) : Prop :=
  p.Safe (Node.Amid known tid) (fun _ c => ¬ cfg.AsksItself c) s fun _ _ => True

theorem keeps_of_only {α : Type} {p : Prog α} (only : p.Only fun c => ¬ cfg.AsksItself c) : Keeps cfg known tid p s :=
  Safe.only (fun _ => True) (fun _ _ fine _ => fine) (fun _ _ _ _ _ _ _ => trivial) only trivial

theorem getDMap_keeps {p : Place} : Keeps cfg known tid (cfg.getDMap p name) s :=
  keeps_of_only (Config.getDMap_only nofun nofun nofun nofun nofun nofun nofun nofun)

section

variable (apart : ∀ owners, known owners → ∀ owner ∈ owners.dropLast, owner.name ≠ cfg.this.name)
include apart

theorem delKeyVal_keeps : Keeps cfg known tid (cfg.delKeyVal r hkey name key) s := by
  refine ⟨nofun, fun owners s₁ run => ?_⟩
  have others : ∀ owner ∈ owners.dropLast.reverse, owner.name ≠ cfg.this.name := fun owner mem =>
    apart owners (run.2 rfl) owner (List.mem_reverse.1 mem)
  refine keeps_of_only ((Config.requestEach_only others).bind fun asked => ?_)
  split
  · refine (Config.deleteBackups_only nofun fun _ => nofun).bind fun deleted => ?_
    split
    · refine (Config.oplog_only nofun).bind fun _ => .call nofun fun err => ?_
      cases err <;> exact .ret _
    · exact .ret _
  · exact .ret _

theorem evictEntry_keeps (n : EvictionCount) (e : UInt64 × VData) :
    Keeps cfg known tid (cfg.evictEntry r name n e) s := by
  unfold Config.evictEntry
  dsimp only
  split
  · trivial
  · refine ⟨nofun, fun now s₁ _ => ?_⟩
    dsimp only [ret_bind]
    split
    · exact (delKeyVal_keeps apart).bind fun answer _ _ => by cases answer <;> trivial
    · trivial

theorem evictTables_keeps {n : EvictionCount} (tables : List (List (UInt64 × VData))) :
    Keeps cfg known tid (cfg.evictTables r name n tables) s := by
  induction tables generalizing n s with
  | nil => trivial
  | cons entries tables ih =>
    refine Safe.bind (Q := fun _ _ => True) ?_ fun _ _ _ => ih
    exact Safe.iterate (fun _ _ _ => True) (fun n e _ _ _ => (evictEntry_keeps apart n e).mono fun _ _ _ => by simp)
      [] trivial

theorem evictionPasses_keeps (passes : Nat) : Keeps cfg known tid (cfg.evictionPasses r name passes) s := by
  induction passes generalizing s with
  | zero => trivial
  | succ passes ih =>
    refine Safe.bind (Q := fun _ _ => True) ?_ fun again _ _ => ?_
    · exact ⟨nofun, fun tables _ _ => (evictTables_keeps apart tables).bind fun _ _ _ => trivial⟩
    · cases again with
      | true => exact ih
      | false => trivial

theorem deleting_keeps {p : Prog Response} (deleting : cfg.Deleting p) : Keeps cfg known tid p s := by
  cases deleting with
  | deleteKey hkey name key =>
    refine getDMap_keeps.bind fun dm _ _ => ?_
    cases dm with
    | none => trivial
    | some r =>
      exact ⟨nofun, fun _ _ _ => (delKeyVal_keeps apart).bind fun _ _ _ => ⟨nofun, fun _ _ _ => trivial⟩⟩
  | eviction name r passes =>
    refine Safe.bind (Q := fun _ _ => True) ?_ fun _ _ _ => trivial
    exact ⟨nofun, fun _ _ _ => (evictionPasses_keeps apart passes).bind fun _ _ _ => ⟨nofun, fun _ _ _ => trivial⟩⟩

end

/-- If the later ones answer, the loop gets to every host. -/
theorem requestEach_reaches {host : Host} {hosts : List Host} {req : Request} (mem : host ∈ hosts) :
    ∃ next, (Config.requestEach req hosts).Reaches (Node.Amid known tid) s (.call (.request host req) next) s := by
  induction hosts with
  | nil => cases mem
  | cons first hosts ih =>
    rcases List.mem_cons.1 mem with rfl | mem
    · exact ⟨_, .refl⟩
    · obtain ⟨next, reaches⟩ := ih mem
      exact ⟨next, .step (.ok []) ⟨⟨s, rfl⟩, trivial⟩ reaches⟩

theorem deleteKey_reaches {owners : List Host} {owner : Host} (listed : known owners)
    (earlier : owner ∈ owners.dropLast) :
    ∃ next s s', (cfg.deleteKey 0 [100] []).Reaches (Node.Amid known tid) s
      (.call (.request owner (.deletePrev [100] [])) next) s' := by
  have nonempty : owners ≠ [] := by
    rintro rfl
    cases earlier
  let stored : Node := { restoredNode with partition := fun _ => ⟨1, Finmap.singleton [100] 0, none⟩ }
  have found : (stored.partition (cfg.place false 0)).m.lookup [100] = some 0 := Finmap.lookup_singleton_eq
  let locked := stored.setDMap 0 (lockedDMap tid)
  obtain ⟨next, asks⟩ : ∃ next, (Config.requestEach (.deletePrev [100] []) owners.dropLast.reverse).Reaches
      (Node.Amid known tid) locked (.call (.request owner (.deletePrev [100] [])) next) locked :=
    requestEach_reaches (List.mem_reverse.2 earlier)
  exact ⟨_, stored, _, .step (some 0) ⟨⟨stored, found.symm, rfl⟩, trivial⟩
    (.step () ⟨⟨stored, _, rfl, rfl, rfl⟩, trivial⟩
      (.step owners ⟨⟨_, fun _ => nonempty, rfl⟩, fun _ => listed⟩ (asks.bind.bind)))⟩

end SelfDelete

/-- A delete, for a client or by the eviction, asks the member that it runs on to delete the key if,
and only if, the member is in the owners list before the last position. -/
theorem delete_to_self_iff (cfg : Config) (known : List Host → Prop) :
    (∀ p, cfg.Deleting p → ∀ tid s c next s', p.Reaches (Node.Amid known tid) s (.call c next) s' →
      ¬ cfg.AsksItself c) ↔
      ∀ owners, known owners → ∀ owner ∈ owners.dropLast, owner.name ≠ cfg.this.name := by
  constructor
  · intro never owners listed owner earlier same
    obtain ⟨next, s, s', reaches⟩ := @SelfDelete.deleteKey_reaches cfg known 0 owners owner listed earlier
    exact never _ (.deleteKey 0 [100] []) _ _ _ _ _ reaches same
  · intro apart p deleting tid s c next s' reaches
    exact (SelfDelete.deleting_keeps apart deleting).reaches reaches

/-- A pass of the eviction on a previous owner that has an expired entry. -/
theorem eviction_reaches_request {str : Storage} {key value value' : Bytes} {other : UInt64}
    (nonempty : str.tables ≠ []) (visited : str.Visits [[(7, ⟨key, 1, value⟩), (other, ⟨[], 0, value'⟩)]]) :
    ∃ next, (answered ((twoMembers.config previousHost).scanDMapForEviction [100] 0 1)).Reaches
      (twoMembers.Acts 0) str.onNode
      (.call (.request previousHost (.deletePrev [100] key)) next)
      (str.onNode.setDMap 0 ⟨str, some 0, some newLocker, none⟩) := by
  have locked : (str.onNode.setDMap 0 ⟨str, some 0, some newLocker, none⟩).dmaps 0 =
      some ⟨str, some 0, some newLocker, none⟩ := setDMap_found.2 (.inl ⟨rfl, rfl⟩)
  exact ⟨_, .step () ⟨rfl, ⟨_, Eviction.onNode_found, rfl, rfl⟩, trivial⟩
    (.step _ ⟨rfl, ⟨_, locked, nonempty, visited, rfl⟩, trivial⟩
      (.step (1000000 : Int64) ⟨rfl, rfl, trivial⟩
        (.step [previousHost, primaryHost] ⟨rfl, ⟨by simp, rfl⟩, rfl⟩ .refl)))⟩

/-- A previous owner of the partition evicts an expired key and asks the previous owners, which is
itself: it waits for a handler that waits for its mutex. -/
theorem eviction_waits_for_itself : ∃ labels net tid,
    (Network.system (twoMembers.rules fun host => (twoMembers.config host).Deleting)).AnyRun labels net ∧
      Waits net previousHost previousHost tid 0 0 := by
  obtain ⟨t, _, _, get, _⟩ := @Storage.two_entries 7 8 ⟨[107], 1, []⟩ ⟨[], 0, []⟩ (by decide) (by decide) (by decide)
  have visited : Storage.Visits ⟨[t], false, false⟩ [[(7, ⟨[107], 1, []⟩), (8, ⟨[], 0, []⟩)]] :=
    .cons (Storage.visit_two (by decide) get) .nil
  obtain ⟨next, evicts⟩ := eviction_reaches_request (List.cons_ne_nil _ _) visited
  have start : (Network.system (twoMembers.rules fun host => (twoMembers.config host).Deleting)).Reachable
      ⟨fun _ => Storage.onNode ⟨[t], false, false⟩, fun _ => none⟩ := by
    refine .start ⟨fun _ r dm found => ?_, fun _ => rfl⟩
    rcases setDMap_found.1 found with ⟨_, rfl⟩ | ⟨_, found⟩
    · exact ⟨rfl, rfl⟩
    · cases found
  have starts : (twoMembers.rules fun host => (twoMembers.config host).Deleting).starts previousHost _ :=
    .inl (.eviction [100] 0 1)
  have spawned := Network.reachable_spawn start 0 rfl starts
  have asked := Network.reachable_send (Network.reachable_alone spawned 0 rfl rfl evicts) 0 rfl rfl
  have served := Network.reachable_deliver asked 0 1 rfl (i := 0) rfl rfl
  have stored : ((Storage.onNode ⟨[t], false, false⟩).partition ⟨false, 0⟩).m.lookup [100] = some 0 := by
    simp [Storage.onNode, Node.setPartition, Node.setDMap]
  obtain ⟨next', locks⟩ := deletePrev_reaches_lock
    (s := (Storage.onNode ⟨[t], false, false⟩).setDMap 0 ⟨⟨[t], false, false⟩, some 0, some newLocker, none⟩) 1 stored
  obtain ⟨labels, run⟩ := Network.reachable_alone served 1 rfl rfl locks
  exact ⟨labels, _, 0, run, _, _, _, 1, next', _, rfl, rfl, rfl, .head _, rfl⟩

end Olric
