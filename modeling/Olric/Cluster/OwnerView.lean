import Mathlib.Data.Finset.Card
import Olric.Node.Handlers
import Olric.Node.Semantics

namespace Olric

/-- The host is taken out of its position, if it has one, and becomes the last. -/
def appendAgain (owners : List Host) (owner : Host) : List Host := owners.erase owner ++ [owner]

/-- What the coordinator goes by when it sets the owners of partitions: the members that the memberlist
has, and the hosts that the consistent-hash ring chooses, which gets to know of joins and leaves later.
An empty ring has no owner, and fewer than `count` other members are an error. -/
structure ClusterView where
  members : List Host
  owner : UInt64 → Option Host
  closest : UInt64 → Int → Option (List Host)
  count : Place → Int
  empty : Place → Host → Bool

namespace ClusterView

variable (view : ClusterView) (this : Host)

def findMember (name : Bytes) : Option Host := view.members.find? fun member => member.name = name

def pruneDead (owners : List Host) : List Host :=
  owners.filterMap fun own => (view.findMember own.name).filter fun cur => own = cur

/-- The host has said that it has no dmap of the partition. A request that fails says nothing. -/
def answersEmpty (p : Place) (own : Host) : Bool := if this = own then decide (view.count p = 0) else view.empty p own

def pruneEmpty (p : Place) (hosts : List Host) : List Host := hosts.filter fun own => !view.answersEmpty this p own

/-- `owner.(host)` panics for an owner that is nil, and so do the slices of an empty `tmp`. -/
def distributePrimaryCopies (partID : UInt64) (owners : List Host) : Except Halt (List Host) :=
  match view.owner partID with
  | none => .error .panic
  | some owner =>
    if owners = [] then .ok [owner]
    else
      let tmp := view.pruneDead (appendAgain owners owner)
      match tmp.getLast? with
      | none => .error .panic
      | some last => .ok (view.pruneEmpty this ⟨false, partID⟩ tmp.dropLast ++ [last])

/-- An error of the ring is logged, and the list stays as it is. -/
def distributeBackups (partID : UInt64) (backupCount : Int) (owners : List Host) : Except Halt (List Host) :=
  match view.closest partID backupCount with
  | none => .ok owners
  | some backups =>
    if owners = [] then .ok backups
    else
      let tmp := view.pruneDead (backups.foldl appendAgain owners)
      if backupCount < 0 ∨ tmp.length < backupCount then .error .panic
      else
        let current := (tmp.length - backupCount).toNat
        .ok (view.pruneEmpty this ⟨true, partID⟩ (tmp.take current) ++ tmp.drop current)

/-- The host is in the memberlist, and has not joined again since. -/
def Alive (host : Host) : Prop := view.findMember host.name = some host

instance (host : Host) : Decidable (view.Alive host) := inferInstanceAs (Decidable (_ = _))

variable {view this}

theorem pruneDead_eq_filter (owners : List Host) :
    view.pruneDead owners = owners.filter fun own => view.Alive own := by
  unfold pruneDead
  rw [← List.filterMap_eq_filter]
  refine List.filterMap_congr fun own _ => ?_
  unfold Option.guard
  cases found : view.findMember own.name with
  | none => simp [Alive, found]
  | some cur =>
    by_cases same : cur = own
    · simp [Alive, found, same]
    · simp [Alive, found, same, Ne.symm same]

theorem alive_iff (names : (view.members.map Host.name).Nodup) (host : Host) :
    view.Alive host ↔ host ∈ view.members := by
  unfold Alive findMember
  constructor
  · exact List.mem_of_find?_eq_some
  · intro mem
    cases found : view.members.find? fun member => member.name = host.name with
    | none => simpa using List.find?_eq_none.1 found host mem
    | some other =>
      have same : other.name = host.name := by simpa using List.find?_some found
      rw [List.inj_on_of_nodup_map names (List.mem_of_find?_eq_some found) mem same]

theorem mem_pruneDead (names : (view.members.map Host.name).Nodup) {owners : List Host} {host : Host} :
    host ∈ view.pruneDead owners ↔ host ∈ owners ∧ host ∈ view.members := by
  rw [pruneDead_eq_filter, List.mem_filter, decide_eq_true_eq, alive_iff names]

end ClusterView

theorem mem_appendAgain {owners : List Host} {owner host : Host} :
    host ∈ appendAgain owners owner ↔ host ∈ owners ∨ host = owner := by
  unfold appendAgain
  by_cases same : host = owner
  · simp [same]
  · simp [same, List.mem_erase_of_ne same]

theorem mem_foldl_appendAgain {backups owners : List Host} {host : Host} :
    host ∈ backups.foldl appendAgain owners ↔ host ∈ owners ∨ host ∈ backups := by
  induction backups generalizing owners with
  | nil => simp
  | cons backup backups ih => rw [List.foldl_cons, ih, mem_appendAgain, List.mem_cons, or_assoc]

/-- The hosts of the choice that are not in the list yet are new. -/
theorem countP_appended (P : Host → Prop) [DecidablePred P] (choice owners : List Host) :
    (choice.foldl appendAgain owners).countP (fun host => P host) =
      owners.countP (fun host => P host) + {host ∈ choice.toFinset | P host ∧ host ∉ owners}.card := by
  induction choice generalizing owners with
  | nil => simp
  | cons first choice ih =>
    have again : (appendAgain owners first).countP (fun host => P host) =
        owners.countP (fun host => P host) + if P first ∧ first ∉ owners then 1 else 0 := by
      rw [appendAgain, List.countP_append, List.countP_erase, List.countP_singleton]
      have positive : first ∈ owners ∧ P first → 0 < owners.countP fun host => P host :=
        fun both => List.countP_pos_iff.2 ⟨first, both.1, decide_eq_true both.2⟩
      by_cases both : first ∈ owners ∧ P first
      · have := positive both
        simp [both.1, both.2]
        omega
      · by_cases listed : first ∈ owners <;> by_cases kept : P first <;> simp_all
    rw [List.foldl_cons, ih, again, List.toFinset_cons, Nat.add_assoc]
    congr 1
    by_cases fresh : P first ∧ first ∉ owners
    · rw [if_pos fresh, Nat.add_comm, ← Finset.card_insert_of_notMem (a := first) (by simp [mem_appendAgain])]
      congr 1
      ext host
      by_cases same : host = first
      · simp [same, fresh]
      · simp [same, mem_appendAgain]
    · rw [if_neg fresh, Nat.zero_add]
      congr 1
      ext host
      by_cases same : host = first
      · subst same
        simpa [mem_appendAgain] using fresh
      · simp [same, mem_appendAgain]

/-- Hosts that are taken out and appended again, one after the other. -/
theorem foldl_appendAgain {owners choice : List Host} (nodup : owners.Nodup) (distinct : choice.Nodup) :
    choice.foldl appendAgain owners = owners.filter (· ∉ choice) ++ choice := by
  induction choice generalizing owners with
  | nil => simp
  | cons host choice ih =>
    obtain ⟨notLater, distinct⟩ := List.nodup_cons.1 distinct
    have erased : owners.erase host = owners.filter (· != host) := nodup.erase_eq_filter host
    have again : (appendAgain owners host).Nodup := by
      refine (nodup.erase host).append (List.nodup_singleton host) ?_
      rw [List.disjoint_singleton]
      exact nodup.not_mem_erase
    have kept : [host].filter (· ∉ choice) = [host] := by simp [notLater]
    rw [List.foldl_cons, ih again distinct, appendAgain, erased, List.filter_append, List.filter_filter, kept,
      List.append_assoc, List.singleton_append]
    congr 1
    refine List.filter_congr fun own _ => ?_
    by_cases same : own = host <;> simp [same]

def coordinatorHost : Host := ⟨[67], 0⟩
def leavingHost : Host := ⟨[76], 1⟩

namespace ClusterView

variable {view : ClusterView} {this : Host} {partID : UInt64} {owners choice : List Host}

/-- A list of owners that ends with the hosts of the ring. Before them are the former owners that are
alive and have not said that they are empty, in the order that they had. -/
structure Redistributed (view : ClusterView) (this : Host) (p : Place) (choice owners result : List Host) : Prop where
  nodup : result.Nodup
  live : result ⊆ view.members
  order : ∃ rest, result = rest ++ choice ∧ rest.Sublist owners ∧
    ∀ host, host ∈ rest ↔ host ∈ owners ∧ host ∈ view.members ∧ host ∉ choice ∧ view.answersEmpty this p host = false

/-- The former owners that are alive, without those that the ring chooses again. -/
def survivors (view : ClusterView) (choice owners : List Host) : List Host :=
  owners.filter fun own => view.Alive own ∧ own ∉ choice

theorem pruneDead_appended (nodup : owners.Nodup) (distinct : choice.Nodup)
    (alive : ∀ host ∈ choice, view.Alive host) :
    view.pruneDead (choice.foldl appendAgain owners) = view.survivors choice owners ++ choice := by
  have kept : choice.filter (fun own => view.Alive own) = choice := by
    rw [List.filter_eq_self]
    simpa using alive
  rw [pruneDead_eq_filter, foldl_appendAgain nodup distinct, List.filter_append, List.filter_filter, kept, survivors]
  simp

theorem redistributed (names : (view.members.map Host.name).Nodup) (p : Place) (nodup : owners.Nodup)
    (distinct : choice.Nodup) (live : choice ⊆ view.members) :
    view.Redistributed this p choice owners (view.pruneEmpty this p (view.survivors choice owners) ++ choice) := by
  have mem (host : Host) : host ∈ view.pruneEmpty this p (view.survivors choice owners) ↔
      host ∈ owners ∧ host ∈ view.members ∧ host ∉ choice ∧ view.answersEmpty this p host = false := by
    simp only [pruneEmpty, survivors, List.mem_filter, alive_iff names, decide_eq_true_iff, Bool.not_eq_true']
    tauto
  have order : (view.pruneEmpty this p (view.survivors choice owners)).Sublist owners :=
    List.filter_sublist.trans List.filter_sublist
  refine ⟨?_, fun host there => ?_, _, rfl, order, mem⟩
  · refine (nodup.sublist order).append distinct fun host former chosen => ?_
    exact ((mem host).1 former).2.2.1 chosen
  · rcases List.mem_append.1 there with former | chosen
    · exact ((mem host).1 former).2.1
    · exact live chosen

theorem distributePrimaryCopies_eq (names : (view.members.map Host.name).Nodup) (nodup : owners.Nodup) {owner : Host}
    (chosen : view.owner partID = some owner) (live : owner ∈ view.members) :
    view.distributePrimaryCopies this partID owners =
      .ok (view.pruneEmpty this ⟨false, partID⟩ (view.survivors [owner] owners) ++ [owner]) := by
  unfold distributePrimaryCopies
  rw [chosen]
  dsimp only
  split
  · next none =>
    rw [none]
    rfl
  · have pruned : view.pruneDead (appendAgain owners owner) = view.survivors [owner] owners ++ [owner] :=
      pruneDead_appended nodup (List.nodup_singleton owner) (by simpa [alive_iff names] using live)
    rw [pruned, List.getLast?_concat, List.dropLast_concat]

theorem distributeBackups_eq (names : (view.members.map Host.name).Nodup) (nodup : owners.Nodup) {backupCount : Int}
    (chosen : view.closest partID backupCount = some choice) (count : (choice.length : Int) = backupCount)
    (distinct : choice.Nodup) (live : choice ⊆ view.members) (some : owners ≠ []) :
    view.distributeBackups this partID backupCount owners =
      .ok (view.pruneEmpty this ⟨true, partID⟩ (view.survivors choice owners) ++ choice) := by
  have pruned : view.pruneDead (choice.foldl appendAgain owners) = view.survivors choice owners ++ choice :=
    pruneDead_appended nodup distinct fun host mem => (alive_iff names host).2 (live mem)
  have split : ((((view.survivors choice owners ++ choice).length : Int) - backupCount).toNat) =
      (view.survivors choice owners).length := by
    rw [List.length_append]
    omega
  unfold distributeBackups
  rw [chosen]
  dsimp only
  rw [if_neg some, pruned, if_neg (by rw [List.length_append]; omega), split, List.take_left, List.drop_left]

/-- If the hosts of the ring are members, the list becomes one of members, whatever it has been. -/
theorem distributePrimaryCopies_live (view : ClusterView) (names : (view.members.map Host.name).Nodup) (this : Host)
    (owners : List Host) {owner : Host} (chosen : view.owner partID = some owner) (live : owner ∈ view.members) :
    ∃ result, view.distributePrimaryCopies this partID owners = .ok result ∧ result ⊆ view.members := by
  unfold distributePrimaryCopies
  rw [chosen]
  dsimp only
  split
  · exact ⟨_, rfl, by simpa using live⟩
  · have kept : owner ∈ view.pruneDead (appendAgain owners owner) :=
      (mem_pruneDead names).2 ⟨mem_appendAgain.2 (.inr rfl), live⟩
    split
    · next none =>
      rw [List.getLast?_eq_none_iff.1 none] at kept
      cases kept
    · next last found =>
      refine ⟨_, rfl, fun host mem => ?_⟩
      rcases List.mem_append.1 mem with older | this
      · exact ((mem_pruneDead names).1 (List.dropLast_subset _ (List.filter_subset_self _ older))).2
      · cases List.mem_singleton.1 this
        exact ((mem_pruneDead names).1 (List.mem_of_getLast? found)).2

theorem distributeBackups_live (view : ClusterView) (names : (view.members.map Host.name).Nodup) (this : Host)
    (owners : List Host) {backupCount : Int} (chosen : view.closest partID backupCount = some choice)
    (count : (choice.length : Int) = backupCount) (distinct : choice.Nodup) (live : choice ⊆ view.members) :
    ∃ result, view.distributeBackups this partID backupCount owners = .ok result ∧ result ⊆ view.members := by
  unfold distributeBackups
  rw [chosen]
  dsimp only
  split
  · exact ⟨choice, rfl, live⟩
  · have kept : choice ⊆ view.pruneDead (choice.foldl appendAgain owners) := fun host mem =>
      (mem_pruneDead names).2 ⟨mem_foldl_appendAgain.2 (.inr mem), live mem⟩
    have longer := (distinct.subperm kept).length_le
    rw [if_neg (by omega)]
    refine ⟨_, rfl, fun host mem => ?_⟩
    have inside : host ∈ view.pruneDead (choice.foldl appendAgain owners) := by
      rcases List.mem_append.1 mem with older | current
      · exact List.mem_of_mem_take (List.filter_subset_self _ older)
      · exact List.mem_of_mem_drop current
    exact ((mem_pruneDead names).1 inside).2

/-- If the hosts that the ring chooses are members, the new list ends with them, has no host twice and only
members, and keeps the other former owners that are members and have not said that they are empty, in
their order. The ring chooses distinct hosts, as many as it is asked for. -/
theorem owners_redistributed (names : (view.members.map Host.name).Nodup) (nodup : owners.Nodup) :
    (∀ owner, view.owner partID = some owner → owner ∈ view.members →
      ∃ result, view.distributePrimaryCopies this partID owners = .ok result ∧
        view.Redistributed this ⟨false, partID⟩ [owner] owners result) ∧
    ∀ (backupCount : Int) (choice : List Host), view.closest partID backupCount = some choice →
      (choice.length : Int) = backupCount → choice.Nodup → choice ⊆ view.members → owners ≠ [] →
      ∃ result, view.distributeBackups this partID backupCount owners = .ok result ∧
        view.Redistributed this ⟨true, partID⟩ choice owners result := by
  refine ⟨fun owner chosen live => ?_, fun backupCount choice chosen count distinct live some => ?_⟩
  · refine ⟨_, distributePrimaryCopies_eq names nodup chosen live,
      redistributed names _ nodup (List.nodup_singleton owner) ?_⟩
    simpa using live
  · exact ⟨_, distributeBackups_eq names nodup chosen count distinct live some,
      redistributed names _ nodup distinct live⟩

/-- A former owner that has lost its dmaps, one that is gone, and one that the ring chooses again. -/
theorem owners_redistributed_three :
    let view : ClusterView :=
  ⟨[⟨[65], 1⟩, ⟨[66], 2⟩, ⟨[68], 4⟩], fun _ => some ⟨[65], 1⟩, fun _ _ => none, fun _ => 0,
      fun _ host => host.name = [68]⟩
    view.distributePrimaryCopies ⟨[90], 9⟩ 0 [⟨[65], 1⟩, ⟨[66], 2⟩, ⟨[67], 3⟩, ⟨[68], 4⟩] =
      .ok [⟨[66], 2⟩, ⟨[65], 1⟩] ∧
      view.Redistributed ⟨[90], 9⟩ ⟨false, 0⟩ [⟨[65], 1⟩] [⟨[65], 1⟩, ⟨[66], 2⟩, ⟨[67], 3⟩, ⟨[68], 4⟩] [⟨[66], 2⟩,
          ⟨[65], 1⟩] := by
  intro view
  have run : view.distributePrimaryCopies ⟨[90], 9⟩ 0 [⟨[65], 1⟩, ⟨[66], 2⟩, ⟨[67], 3⟩, ⟨[68], 4⟩] =
      .ok [⟨[66], 2⟩, ⟨[65], 1⟩] := by
    decide
  have both :=
    @owners_redistributed view ⟨[90], 9⟩ 0 [⟨[65], 1⟩, ⟨[66], 2⟩, ⟨[67], 3⟩, ⟨[68], 4⟩] (by decide) (by decide)
  obtain ⟨result, run', redistributed⟩ := both.1 ⟨[65], 1⟩ rfl (by decide)
  cases run.symm.trans run'
  exact ⟨run, redistributed⟩

theorem primary_nonempty_iff : (∃ result, view.distributePrimaryCopies this partID owners = .ok result ∧
    result ≠ []) ↔
    ∃ owner, view.owner partID = some owner ∧ (owners = [] ∨ ∃ host ∈ owner :: owners, view.Alive host) := by
  unfold distributePrimaryCopies
  cases chosen : view.owner partID with
  | none => exact ⟨by rintro ⟨_, ⟨⟩, _⟩, by rintro ⟨_, ⟨⟩, _⟩⟩
  | some owner =>
    dsimp only
    split
    · next none => exact ⟨fun _ => ⟨owner, rfl, .inl none⟩, fun _ => ⟨[owner], rfl, List.cons_ne_nil _ _⟩⟩
    next former =>
      have dead : (view.pruneDead (appendAgain owners owner)).getLast? = none ↔ ¬ ∃ host ∈ owner :: owners,
          view.Alive host := by
        rw [List.getLast?_eq_none_iff, pruneDead_eq_filter, List.filter_eq_nil_iff]
        simp [mem_appendAgain, or_comm]
      split
      · next gone =>
        refine ⟨by rintro ⟨_, ⟨⟩, _⟩, ?_⟩
        rintro ⟨_, ⟨⟩, none | alive⟩
        · exact absurd none former
        · exact absurd alive (dead.1 gone)
      · next last found =>
        refine ⟨fun _ => ⟨owner, rfl, .inr ?_⟩, fun _ => ⟨_, rfl, by simp⟩⟩
        by_contra none
        rw [dead.2 none] at found
        cases found

theorem backups_nonempty_iff {backupCount : Int} (positive : 0 < backupCount) :
    (∃ result, view.distributeBackups this partID backupCount owners = .ok result ∧ result ≠ []) ↔
      (view.closest partID backupCount = none ∧ owners ≠ []) ∨ ∃ choice,
        view.closest partID backupCount = some choice ∧
        if owners = [] then choice ≠ []
        else backupCount ≤ owners.countP (view.Alive ·) + {host ∈ choice.toFinset | view.Alive host ∧
          host ∉ owners}.card := by
  unfold distributeBackups
  cases chosen : view.closest partID backupCount with
  | none =>
    constructor
    · rintro ⟨_, ⟨⟩, former⟩
      exact .inl ⟨rfl, former⟩
    · rintro (⟨_, former⟩ | ⟨_, ⟨⟩, _⟩)
      exact ⟨owners, rfl, former⟩
  | some choice =>
    have length : (view.pruneDead (choice.foldl appendAgain owners)).length =
        owners.countP (view.Alive ·) + {host ∈ choice.toFinset | view.Alive host ∧ host ∉ owners}.card := by
      rw [pruneDead_eq_filter, ← List.countP_eq_length_filter, countP_appended]
    dsimp only
    rw [length]
    by_cases none : owners = []
    · simp [none]
    rw [if_neg none]
    split
    · next few =>
      refine ⟨by rintro ⟨_, ⟨⟩, _⟩, ?_⟩
      rintro (⟨⟨⟩, _⟩ | ⟨_, ⟨⟩, enough⟩)
      omega
    · next enough =>
      refine ⟨fun _ => .inr ⟨choice, rfl, by omega⟩, fun _ => ⟨_, rfl, ?_⟩⟩
      · refine List.append_ne_nil_of_right_ne_nil _ (List.ne_nil_of_length_pos ?_)
        rw [List.length_drop, length]
        omega

/-- `distributePrimaryCopies` leaves a list with a host in it exactly if the ring has an owner, and some former
owner or this one is alive; `distributeBackups`, with a count that is positive, exactly if as many hosts as
it asks the ring for are alive among the former ones and the new ones that the ring chooses. -/
theorem nonempty_iff (view : ClusterView) (this : Host) (partID : UInt64) (owners : List Host) :
    ((∃ result, view.distributePrimaryCopies this partID owners = .ok result ∧ result ≠ []) ↔
      ∃ owner, view.owner partID = some owner ∧ (owners = [] ∨ ∃ host ∈ owner :: owners, view.Alive host)) ∧
    ∀ backupCount, 0 < backupCount →
      ((∃ result, view.distributeBackups this partID backupCount owners = .ok result ∧ result ≠ []) ↔
        (view.closest partID backupCount = none ∧ owners ≠ []) ∨
        ∃ choice, view.closest partID backupCount = some choice ∧
          if owners = [] then choice ≠ []
          else backupCount ≤ owners.countP (view.Alive ·) + {host ∈ choice.toFinset | view.Alive host ∧
            host ∉ owners}.card) :=
  ⟨primary_nonempty_iff, fun _ positive => backups_nonempty_iff positive⟩

def thirdHost : Host := ⟨[84], 2⟩

/-- A member has left, and the ring does not know of it yet. It is the owner of partition 0, whose only
former owner it is, and the backup owner of partition 1. -/
theorem departed_host_panics :
    let view : ClusterView :=
  ⟨[coordinatorHost, thirdHost], fun partID => some (if partID = 0 then leavingHost else coordinatorHost),
      fun partID _ => some [if partID = 0 then thirdHost else leavingHost], fun _ => 0, fun _ _ => true⟩
    view.distributePrimaryCopies coordinatorHost 0 [leavingHost] = .error .panic ∧
      view.distributeBackups coordinatorHost 1 1 [leavingHost] = .error .panic := by
  decide

end ClusterView

end Olric
