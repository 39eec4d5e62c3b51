import Olric.Storage.Used

namespace Olric.Storage

/-- `n` calls of `chunkedMergeTables`, one after the other, none of which is the last one. -/
inductive Unfinished (s : Storage) : Nat → Storage → Prop
  | start : Unfinished s 0 s
  | call {n s' s'' order} : Unfinished s n s' → s'.MergeOrder order →
      s'.chunkedMergeTables order true = .ok (false, s'') → Unfinished s (n + 1) s''

theorem Unfinished.used {s s' : Storage} {n : Nat} (unfinished : s.Unfinished n s') (used : s.Used) : s'.Used := by
  induction unfinished with
  | start => exact used
  | @call n s' s'' order _ orders run used' =>
    exact .call (.merge order true) used' trivial orders (by rw [perform, run]; rfl)

section Measure

variable (space count : Nat)

/-- The newest table, with all that can still be moved into it, takes `space` at most, and so would a new
table that everything is moved into. -/
structure Bounded (olds : List Table) (fresh : Table) : Prop where
  rest : fresh.offset + weighAll Table.rawSize olds ≤ space
  all : weighAll Table.rawSize (olds ++ [fresh]) ≤ space
  count : weighAll (fun _ => 1) (olds ++ [fresh]) ≤ count

/-- It falls with each call: a new table is twice as large as the one that was full, and as long as there
is no new one, entries leave the older tables. -/
def mergeMeasure (olds : List Table) (fresh : Table) : Nat :=
  (space + 1 - fresh.allocated) * (count + 1) + weighAll (fun _ => 1) olds

variable {space count}

theorem raw_length_le {old : Table} {olds : List Table} {hkey : UInt64} (mem : old ∈ olds) (valid : old.Valid)
    (here : hkey ∈ old.hkeys) : ((old.getRaw hkey).getD []).length ≤ weighAll Table.rawSize olds := by
  obtain ⟨v, found⟩ := Option.isSome_iff_exists.1 (Table.isSome_get.2 here)
  have length : ((old.getRaw hkey).getD []).length = Table.rawSize v := by
    rw [valid.getRaw_eq, found]
    simp [Table.rawSize]
  have part := Table.weigh_delete Table.rawSize found
  have le := weigh_le_weighAll Table.rawSize mem
  omega

theorem mergeMeasure_lt {s s' : Storage} {order : Nat → List UInt64} {olds : List Table} {fresh : Table}
    (valid : s.Valid) (orders : s.MergeOrder order) (run : s.chunkedMergeTables order true = .ok (false, s'))
    (split : s.tables = olds ++ [fresh]) (bounded : Bounded space count olds fresh) :
    ∃ olds' fresh', s'.tables = olds' ++ [fresh'] ∧ Bounded space count olds' fresh' ∧
      mergeMeasure space count olds' fresh' < mergeMeasure space count olds fresh := by
  have tablesValid := valid.tables
  rw [split, List.forall_mem_append, List.forall_mem_singleton] at tablesValid
  obtain ⟨oldsValid, freshValid⟩ := tablesValid
  rcases chunkedMergeTables_moves orders run with ⟨wrong, _⟩ | ⟨n, fresh₁, olds', fresh', split₁, moves, exits⟩
  · cases wrong
  rw [split, List.dropLast_concat] at split₁ moves
  cases List.singleton_injective (List.append_cancel_left split₁)
  obtain ⟨allocated, moved⟩ := moves.space oldsValid freshValid
  have counted := moves.count oldsValid freshValid
  have all := moves.weight_le oldsValid freshValid Table.rawSize
  have entries := moves.weight_le oldsValid freshValid fun _ => 1
  have rest := bounded.rest
  unfold mergeMeasure
  rcases exits with ⟨_, tables, some⟩ | ⟨_, nt, made, tables, old, mem, hkey, here, full⟩ | ⟨wrong, _⟩
  · have positive : 0 < n := some.resolve_right (by decide)
    refine ⟨olds', fresh', tables, ⟨by omega, all.trans bounded.all, entries.trans bounded.count⟩, ?_⟩
    rw [allocated]
    omega
  · obtain ⟨nt', made', offset, _, size⟩ := newTable_eq (fresh'.allocated * 2)
    cases made.symm.trans made'
    have validNow := moves.valid oldsValid freshValid
    have room := freshValid.room
    have fits := raw_length_le mem (validNow old (List.mem_append_left _ mem)) here
    have empty (weight : VData → Nat) : nt.weigh weight = 0 :=
      Table.weigh_of_empty weight (Table.newTable_spec made).2
    refine ⟨olds' ++ [fresh'], nt, tables, ⟨?_, ?_, ?_⟩, ?_⟩
    · have bound := all.trans bounded.all
      omega
    · rw [weighAll_append, weighAll_cons, empty]
      exact all.trans bounded.all
    · rw [weighAll_append, weighAll_cons, empty]
      exact entries.trans bounded.count
    · have less : space + 1 - nt.allocated + 1 ≤ space + 1 - fresh.allocated := by omega
      have many := entries.trans bounded.count
      calc (space + 1 - nt.allocated) * (count + 1) + weighAll (fun _ => 1) (olds' ++ [fresh'])
        _ < (space + 1 - nt.allocated + 1) * (count + 1) := by
          rw [Nat.add_mul]
          omega
        _ ≤ (space + 1 - fresh.allocated) * (count + 1) := Nat.mul_le_mul_right _ less
        _ ≤ _ := Nat.le_add_right _ _
  · cases wrong

theorem Unfinished.measure {s s' : Storage} {n : Nat} (unfinished : s.Unfinished n s') (used : s.Used)
    {olds : List Table} {fresh : Table} (split : s.tables = olds ++ [fresh])
    (bounded : Bounded space count olds fresh) :
    ∃ olds' fresh', s'.tables = olds' ++ [fresh'] ∧ Bounded space count olds' fresh' ∧
      mergeMeasure space count olds' fresh' + n ≤ mergeMeasure space count olds fresh := by
  induction unfinished with
  | start => exact ⟨olds, fresh, split, bounded, Nat.le_refl _⟩
  | @call n s' s'' order before orders run ih =>
    obtain ⟨olds', fresh', split', bounded', le⟩ := ih
    obtain ⟨olds'', fresh'', split'', bounded'', lt⟩ :=
      mergeMeasure_lt (before.used used).valid orders run split' bounded'
    exact ⟨olds'', fresh'', split'', bounded'', by omega⟩

end Measure

/-- However the maps are gone through, there is a bound on the number of calls that leave something to
do, every further call returns, and the one that returns true leaves one table. -/
theorem merging_ends {s : Storage} (used : s.Used) : ∃ bound, ∀ n s', s.Unfinished n s' → n ≤ bound ∧
    ∀ order, s'.MergeOrder order → ∃ done s'', s'.chunkedMergeTables order true = .ok (done, s'') ∧
      (done = true → s''.tables.length = 1) := by
  obtain ⟨fresh, last⟩ := Option.isSome_iff_exists.1 (List.getLast?_isSome.2 used.valid.nonempty)
  have split := tables_eq_of_getLast? last
  obtain ⟨space, count, bounded⟩ : ∃ space count, Bounded space count s.tables.dropLast fresh := by
    refine ⟨fresh.offset + weighAll Table.rawSize s.tables, _, ?_, by rw [← split]; omega, Nat.le_refl _⟩
    conv_rhs => rw [split]
    rw [weighAll_append]
    omega
  refine ⟨mergeMeasure space count s.tables.dropLast fresh, fun n s' unfinished => ⟨?_, fun order orders => ?_⟩⟩
  · obtain ⟨_, _, _, _, le⟩ := unfinished.measure used split bounded
    exact Nat.le_trans (Nat.le_add_left n _) le
  · obtain ⟨done, s'', run⟩ := chunkedMergeTables_returns (unfinished.used used).valid.nonempty order true
    refine ⟨done, s'', run, ?_⟩
    rintro rfl
    exact chunkedMergeTables_done orders run

/-- A storage with two tables. -/
theorem merging_ends_two : ∃ s : Storage, s.Used ∧ s.tables.length = 2 ∧ ∃ bound, ∀ n s', s.Unfinished n s' →
    n ≤ bound := by
  obtain ⟨old, new, run, _⟩ := versions_after_switch (a := ⟨[97], 0, [1]⟩) (d := ⟨[97], 0, [2]⟩)
    (by decide) (by decide) (by decide) (by decide)
  obtain ⟨bound, ends⟩ := merging_ends (used_of_run run)
  exact ⟨_, used_of_run run, rfl, bound, fun n s' unfinished => (ends n s' unfinished).1⟩

end Olric.Storage
