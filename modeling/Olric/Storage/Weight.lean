import Mathlib.Algebra.BigOperators.Group.Finset.Basic
import Olric.Storage.Observers

namespace Olric

namespace Table

/-- The sum of the weights of all entries of a table. -/
def weigh (weight : VData → Nat) (t : Table) : Nat :=
  ∑ hkey ∈ t.hkeys.keys, (t.get hkey).elim 0 weight

section Weigh

variable {t stored : Table} {hkey : UInt64} {v : VData} (weight : VData → Nat)

theorem mem_keys : hkey ∈ t.hkeys.keys ↔ (t.get hkey).isSome := by
  rw [Finmap.mem_keys, isSome_get]

theorem weigh_congr {u : Table} (same : t.get = u.get) : t.weigh weight = u.weigh weight := by
  have keys : t.hkeys.keys = u.hkeys.keys := by
    ext hkey
    rw [mem_keys, mem_keys, same]
  rw [weigh, weigh, keys, same]

theorem weigh_of_empty (empty : t.get = fun _ => none) : t.weigh weight = 0 := by
  refine Finset.sum_eq_zero fun hkey _ => ?_
  rw [empty]
  rfl

theorem weigh_delete (found : t.get hkey = some v) : (t.delete hkey).2.weigh weight + weight v = t.weigh weight := by
  have keys : (t.delete hkey).2.hkeys.keys = t.hkeys.keys.erase hkey := by
    ext other
    rw [mem_keys, Finset.mem_erase, mem_keys, delete_get]
    by_cases same : other = hkey
    · simp [same]
    · simp [same]
  have others : ∑ other ∈ t.hkeys.keys.erase hkey, ((t.delete hkey).2.get other).elim 0 weight =
      ∑ other ∈ t.hkeys.keys.erase hkey, (t.get other).elim 0 weight := by
    refine Finset.sum_congr rfl fun other mem => ?_
    rw [delete_get, Function.update_of_ne (Finset.ne_of_mem_erase mem)]
  have here : hkey ∈ t.hkeys.keys := mem_keys.2 (by rw [found]; rfl)
  rw [weigh, weigh, keys, others, ← Finset.sum_erase_add _ _ here, found]
  rfl

theorem weigh_delete_le (t : Table) (hkey : UInt64) : (t.delete hkey).2.weigh weight ≤ t.weigh weight := by
  cases found : t.get hkey with
  | none => rw [delete_of_none found]
  | some v => exact Nat.le.intro (weigh_delete weight found)

theorem weigh_store (written : stored.get = Function.update t.get hkey (some v)) :
    stored.weigh weight = (t.delete hkey).2.weigh weight + weight v := by
  have found : stored.get hkey = some v := by rw [written, Function.update_self]
  rw [← weigh_delete weight found]
  congr 1
  refine weigh_congr weight ?_
  rw [delete_get, delete_get, written, Function.update_idem]

theorem weigh_one : t.weigh (fun _ => 1) = t.hkeys.keys.card := by
  rw [Finset.card_eq_sum_ones]
  refine Finset.sum_congr rfl fun hkey mem => ?_
  obtain ⟨v, found⟩ := Option.isSome_iff_exists.1 (mem_keys.1 mem)
  rw [found]
  rfl

end Weigh

end Table

/-- The sum of the weights of all entries of some tables. -/
def weighAll (weight : VData → Nat) (tables : List Table) : Nat := (tables.map (Table.weigh weight)).sum

@[simp] theorem weighAll_nil (weight : VData → Nat) : weighAll weight [] = 0 := rfl

@[simp] theorem weighAll_cons (weight : VData → Nat) (t : Table) (tables : List Table) :
    weighAll weight (t :: tables) = t.weigh weight + weighAll weight tables := List.sum_cons

@[simp] theorem weighAll_append (weight : VData → Nat) (tables more : List Table) :
    weighAll weight (tables ++ more) = weighAll weight tables + weighAll weight more := by
  rw [weighAll, List.map_append, List.sum_append]
  rfl

/-- A move makes nothing heavier: an entry may replace another one. -/
theorem weighAll_move (weight : VData → Nat) {before after : List Table} {old fresh fresh' : Table}
    {hkey : UInt64} {v : VData} (moved : Moved hkey v old fresh fresh') :
    weighAll weight (before ++ (old.delete hkey).2 :: after ++ [fresh']) ≤
      weighAll weight (before ++ old :: after ++ [fresh]) := by
  have less := Table.weigh_delete weight moved.found
  have more := Table.weigh_store weight moved.get
  have replaced := Table.weigh_delete_le weight fresh hkey
  simp only [weighAll_append, weighAll_cons, weighAll_nil]
  omega

theorem weigh_le_weighAll (weight : VData → Nat) {t : Table} {tables : List Table} (mem : t ∈ tables) :
    t.weigh weight ≤ weighAll weight tables := by
  obtain ⟨before, after, rfl⟩ := List.append_of_mem mem
  rw [weighAll_append, weighAll_cons]
  omega

theorem Storage.len_eq (s : Storage) : s.len = weighAll (fun _ => 1) s.tables := by
  simp [Storage.len, weighAll, ← Table.weigh_one]

namespace Moves

variable {n : Nat} {olds olds' : List Table} {fresh fresh' : Table}

/-- All that holds of tables between which an entry is moved holds after all moves. -/
theorem rule {P : Nat → List Table → Table → Prop} (moves : Moves n olds fresh olds' fresh')
    (oldsValid : ∀ t ∈ olds, t.Valid) (freshValid : fresh.Valid) (start : P 0 olds fresh)
    (step : ∀ {k before old after fresh hkey v fresh'}, old.Valid → fresh.Valid → Moved hkey v old fresh fresh' →
      P k (before ++ old :: after) fresh → P (k + 1) (before ++ (old.delete hkey).2 :: after) fresh') :
    (∀ t ∈ olds', t.Valid) ∧ fresh'.Valid ∧ P n olds' fresh' := by
  refine moves.keeps (P := fun k tables t => (∀ t ∈ tables, t.Valid) ∧ t.Valid ∧ P k tables t) ?_ ⟨oldsValid,
    freshValid, start⟩
  rintro k before old after fresh hkey fresh' mem done ⟨oldsValid, freshValid, start⟩
  rw [List.forall_mem_append, List.forall_mem_cons] at oldsValid ⊢
  obtain ⟨beforeValid, oldValid, afterValid⟩ := oldsValid
  obtain ⟨v, moved⟩ := moved oldValid freshValid mem done
  exact ⟨⟨beforeValid, oldValid.delete hkey, afterValid⟩, moved.valid, step oldValid freshValid moved start⟩

section Valid

variable (moves : Moves n olds fresh olds' fresh') (oldsValid : ∀ t ∈ olds, t.Valid) (freshValid : fresh.Valid)
include moves oldsValid freshValid

theorem valid : ∀ t ∈ olds' ++ [fresh'], t.Valid := by
  obtain ⟨oldsValid', freshValid', _⟩ :=
    moves.rule (P := fun _ _ _ => True) oldsValid freshValid trivial fun _ _ _ _ => trivial
  exact List.forall_mem_append.2 ⟨oldsValid', List.forall_mem_singleton.2 freshValid'⟩

/-- The newest table grows by what the others lose. -/
theorem space : fresh'.allocated = fresh.allocated ∧
    fresh'.offset + weighAll Table.rawSize olds' = fresh.offset + weighAll Table.rawSize olds := by
  have rule := moves.rule (P := fun _ tables t => t.allocated = fresh.allocated ∧
    t.offset + weighAll Table.rawSize tables = fresh.offset + weighAll Table.rawSize olds) oldsValid
      freshValid ⟨rfl, rfl⟩
  refine (rule ?_).2.2
  intro k before old after fresh key v fresh' _ _ moved same
  have less := Table.weigh_delete Table.rawSize moved.found
  rw [moved.allocated, moved.offset]
  simp only [weighAll_append, weighAll_cons] at same ⊢
  exact ⟨same.1, by omega⟩

theorem count : weighAll (fun _ => 1) olds' + n = weighAll (fun _ => 1) olds := by
  have rule := moves.rule (P := fun k tables _ => weighAll (fun _ => 1) tables + k = weighAll (fun _ => 1) olds)
    oldsValid freshValid rfl
  refine (rule ?_).2.2
  intro k before old after fresh key v fresh' _ _ moved same
  have less := Table.weigh_delete (fun _ => 1) moved.found
  simp only [weighAll_append, weighAll_cons] at same ⊢
  omega

theorem weight_le (weight : VData → Nat) :
    weighAll weight (olds' ++ [fresh']) ≤ weighAll weight (olds ++ [fresh]) := by
  have rule := moves.rule (P := fun _ tables t => weighAll weight (tables ++ [t]) ≤ weighAll weight (olds ++ [fresh]))
    oldsValid freshValid (Nat.le_refl _)
  refine (rule ?_).2.2
  intro k before old after fresh key v fresh' _ _ moved le
  exact (weighAll_move weight moved).trans le

end Valid

end Moves

end Olric
