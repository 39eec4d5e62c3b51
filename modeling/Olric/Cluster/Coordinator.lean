import Mathlib.Data.List.Sort
import Olric.Cluster.Distribution

namespace Olric

/-- `getMembers`: the members that the memberlist has, sorted by their birthdates. The sort is not
stable, and the memberlist is in no order. -/
structure SortedMembers (live members : List Host) : Prop where
  perm : members.Perm live
  sorted : members.Pairwise fun a b => a.birthdate ≤ b.birthdate

/-- `getCoordinator` panics on an empty list; the memberlist has the member itself at least. -/
def getCoordinator (members : List Host) : Option Host := members.head?

/-- `isCoordinator` compares names. -/
def isCoordinator (members : List Host) (this : Host) : Bool :=
  (getCoordinator members).map Host.name = some this.name

/-- Nobody is older. -/
def Oldest (live : List Host) (host : Host) : Prop := host ∈ live ∧ ∀ other ∈ live, host.birthdate ≤ other.birthdate

variable {live members : List Host}

theorem SortedMembers.oldest {first : Host} {rest : List Host} (sorted : SortedMembers live (first :: rest)) :
    Oldest live first := by
  refine ⟨sorted.perm.mem_iff.1 List.mem_cons_self, fun other mem => ?_⟩
  rcases List.mem_cons.1 (sorted.perm.mem_iff.2 mem) with rfl | later
  · exact Int64.le_refl _
  · exact (List.pairwise_cons.1 sorted.sorted).1 other later

theorem exists_sorted (live : List Host) : ∃ members, SortedMembers live members := by
  have total : Std.Total fun a b : Host => a.birthdate ≤ b.birthdate :=
    ⟨fun a b => Int64.le_total a.birthdate b.birthdate⟩
  have trans : IsTrans Host fun a b => a.birthdate ≤ b.birthdate := ⟨fun _ _ _ => Int64.le_trans⟩
  exact ⟨live.insertionSort fun a b => a.birthdate ≤ b.birthdate, List.perm_insertionSort _ _,
    List.pairwise_insertionSort _ _⟩

/-- Any of the oldest members may come first. -/
theorem Oldest.exists_first {host : Host} (oldest : Oldest live host) :
    ∃ rest, SortedMembers live (host :: rest) := by
  obtain ⟨rest, perm, sorted⟩ := exists_sorted (live.erase host)
  refine ⟨rest, (perm.cons host).trans (List.perm_cons_erase oldest.1).symm,
    List.pairwise_cons.2 ⟨fun other mem => ?_, sorted⟩⟩
  exact oldest.2 other (List.mem_of_mem_erase (perm.mem_iff.1 mem))

theorem isCoordinator_cons {first this : Host} {rest : List Host} :
    isCoordinator (first :: rest) this = true ↔ first.name = this.name := by
  simp [isCoordinator, getCoordinator]

/-- Members that have the same memberlist agree on one coordinator, in whatever order they have it,
exactly if one of them is older than all others. -/
theorem one_coordinator_iff (names : (live.map Host.name).Nodup) (nonempty : live ≠ []) :
    (∀ view : Host → List Host, (∀ member ∈ live, SortedMembers live (view member)) →
      ∃! member, member ∈ live ∧ isCoordinator (view member) member = true) ↔ ∃! member, Oldest live member := by
  constructor
  · intro agree
    obtain ⟨members, sorted⟩ := exists_sorted live
    obtain ⟨first, rest, rfl⟩ : ∃ first rest, members = first :: rest := by
      refine List.exists_cons_of_ne_nil fun none => nonempty ?_
      rw [none] at sorted
      exact sorted.perm.symm.eq_nil
    refine ⟨first, sorted.oldest, fun other oldest => ?_⟩
    obtain ⟨rest', sorted'⟩ := oldest.exists_first
    by_contra differs
    -- the other one takes itself for the coordinator, as does the first
    obtain ⟨_, _, unique⟩ :=
      agree (fun member => if member = other then other :: rest' else first :: rest) fun member _ => by
      split
      · exact sorted'
      · exact sorted
    have one := unique other ⟨oldest.1, by rw [if_pos rfl]; exact isCoordinator_cons.2 rfl⟩
    have two := unique first ⟨sorted.oldest.1, by rw [if_neg (Ne.symm differs)]; exact isCoordinator_cons.2 rfl⟩
    exact differs (one.trans two.symm)
  · intro ⟨oldest, is, unique⟩ view sorted
    have coordinates (member : Host) (mem : member ∈ live) : isCoordinator (view member) member = true ↔
        member = oldest := by
      have here := sorted member mem
      cases same : view member with
      | nil =>
        rw [same] at here
        exact absurd here.perm.symm.eq_nil nonempty
      | cons first rest =>
        rw [same] at here
        rw [isCoordinator_cons, unique first here.oldest]
        constructor
        · exact fun equal => List.inj_on_of_nodup_map names mem is.1 equal.symm
        · exact fun equal => by rw [equal]
    exact ⟨oldest, ⟨is.1, (coordinates oldest is.1).2 rfl⟩, fun member ⟨mem, is'⟩ => (coordinates member mem).1 is'⟩

theorem one_coordinator_two : (∃! member, Oldest bothAlive.live member) ∧
    ∀ view : Host → List Host, (∀ member ∈ bothAlive.live, SortedMembers bothAlive.live (view member)) →
      ∃! member, member ∈ bothAlive.live ∧ isCoordinator (view member) member = true := by
  have oldest : ∃! member, Oldest bothAlive.live member := by
    refine ⟨coordinatorHost, ⟨by decide, by decide⟩, fun member oldest => ?_⟩
    have among : member = coordinatorHost ∨ member = leavingHost := by simpa [bothAlive] using oldest.1
    rcases among with rfl | rfl
    · rfl
    · exact absurd (oldest.2 coordinatorHost (by decide)) (by decide)
  exact ⟨oldest, (one_coordinator_iff bothAlive.names (by decide)).2 oldest⟩

/-- Two members that are as old as each other may both take themselves for the coordinator, and it may be that
nobody does. -/
theorem two_coordinators_or_none {first second : Host} (names : (live.map Host.name).Nodup) (differ : first ≠ second)
    (oldest : Oldest live first) (oldest' : Oldest live second) :
    (∃ view : Host → List Host, (∀ member, SortedMembers live (view member)) ∧
      isCoordinator (view first) first = true ∧ isCoordinator (view second) second = true) ∧
    ∃ view : Host → List Host, (∀ member, SortedMembers live (view member)) ∧
      ∀ member ∈ live, isCoordinator (view member) member = false := by
  obtain ⟨rest, sorted⟩ := oldest.exists_first
  obtain ⟨rest', sorted'⟩ := oldest'.exists_first
  have other {member leader : Host} (mem : member ∈ live) (leads : leader ∈ live) (apart : leader ≠ member)
      (rest : List Host) :
      isCoordinator (leader :: rest) member = false := by
    by_contra same
    exact apart (List.inj_on_of_nodup_map names leads mem (isCoordinator_cons.1 (by simpa using same)))
  have either (p : Prop) [Decidable p] : SortedMembers live (if p then second :: rest' else first :: rest) := by
    split
    · exact sorted'
    · exact sorted
  refine ⟨⟨fun member => if member = second then second :: rest' else first :: rest, fun _ => either _, ?_, ?_⟩,
    fun member => if member = first then second :: rest' else first :: rest, fun _ => either _, fun member mem => ?_⟩
  · dsimp only
    rw [if_neg differ]
    exact isCoordinator_cons.2 rfl
  · dsimp only
    rw [if_pos rfl]
    exact isCoordinator_cons.2 rfl
  · dsimp only
    split
    next same =>
      subst same
      exact other mem oldest'.1 (Ne.symm differ) rest'
    next apart => exact other mem oldest.1 (Ne.symm apart) rest

end Olric
