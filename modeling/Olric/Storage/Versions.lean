import Olric.Storage.DeleteSpec
import Olric.Storage.Transport

namespace Olric.Storage

variable {s s' : Storage} {hkey : UInt64}

/-- The entries that the tables have for the hkey, the newest first. -/
def versions (s : Storage) (hkey : UInt64) : List VData := s.layers.versions hkey

/-- `Get` finds the newest entry. -/
theorem get_of_versions {v : VData} (newest : (s.versions hkey).head? = some v) : s.get hkey = .ok (.ok v) := by
  rw [versions, LayeredMap.head?_versions] at newest
  have nonempty : s.tables ≠ [] := by
    intro empty
    simp [layers, empty] at newest
  rw [get_eq nonempty, newest]
  rfl

/-- `Delete` takes the newest entry away, and nothing else. -/
theorem delete_versions {mmapOk : Bool} {err : Option StorageError} (run : s.delete mmapOk hkey = .ok (s', err)) :
    s'.versions = Function.update s.versions hkey (s.versions hkey).tail := by
  have scanned : LayeredMap.versions ((deleteScan hkey s.tables.reverse).reverse.map Table.get) =
      Function.update s.versions hkey (s.versions hkey).tail := by
    rcases s.scanned_cases hkey with ⟨absent, same⟩ | ⟨older, t, newer, before, none, found, after⟩
    · have nothing : s.versions hkey = [] := by
        refine List.filterMap_eq_nil_iff.2 fun layer member => ?_
        obtain ⟨t, stored, rfl⟩ := List.mem_map.1 (List.mem_reverse.1 member)
        exact absent t stored
      rw [same, nothing, List.tail_nil, ← nothing, Function.update_eq_self]
      rfl
    · have newest : ∀ later ∈ newer.map Table.get, later hkey = Option.none := by
        intro later member
        obtain ⟨u, stored, rfl⟩ := List.mem_map.1 member
        exact none u stored
      have erased := LayeredMap.versions_erase (older.map Table.get) (newer.map Table.get) found newest
      have layers : s.versions = LayeredMap.versions (older.map Table.get ++ t.get :: newer.map Table.get) := by
        unfold versions Storage.layers
        rw [before, List.map_append, List.map_cons]
      rw [after, List.map_append, List.map_cons, Table.delete_get, layers]
      exact erased
  rcases delete_cases run with rfl | ⟨size, nt, fresh, rfl⟩
  · exact scanned
  · have pushed := LayeredMap.versions_push_empty ((deleteScan hkey s.tables.reverse).reverse.map Table.get)
    rw [← scanned, ← pushed, ← (Table.newTable_spec fresh).2, ← List.map_singleton, ← List.map_append]
    rfl

/-- A table has one entry of an hkey at most. -/
theorem visit_versions {t : Table} {visit : List (UInt64 × VData)} (enumerates : t.Enumerates (visit.map Prod.fst))
    (entries : ∀ e ∈ visit, t.get e.1 = some e.2) (hkey : UInt64) :
    (visit.filterMap fun e => if e.1 = hkey then some e.2 else none) = (t.get hkey).toList := by
  have nothing {rest : List (UInt64 × VData)} (others : hkey ∉ rest.map Prod.fst) :
      (rest.filterMap fun e => if e.1 = hkey then some e.2 else none) = [] := by
    refine List.filterMap_eq_nil_iff.2 fun e member => if_neg ?_
    rintro rfl
    exact others (List.mem_map_of_mem member)
  cases found : t.get hkey with
  | none =>
    refine nothing fun member => ?_
    rw [Table.get_eq_none_iff] at found
    exact found ((enumerates.complete hkey).1 member)
  | some v =>
    have stored : hkey ∈ t.hkeys := Table.isSome_get.1 (by rw [found]; rfl)
    obtain ⟨⟨_, w⟩, member, rfl⟩ := List.mem_map.1 ((enumerates.complete hkey).2 stored)
    obtain ⟨before, after, rfl⟩ := List.append_of_mem member
    have same : v = w := Option.some.inj (found.symm.trans (entries _ member))
    have nodup := enumerates.nodup
    rw [List.map_append, List.map_cons, List.nodup_middle, List.nodup_cons, List.mem_append, not_or] at nodup
    rw [List.filterMap_append, nothing nodup.1.1, List.filterMap_cons, if_pos rfl, nothing nodup.1.2, same]
    rfl

/-- What `Range` visits in a table with two entries. -/
theorem visit_two {t : Table} {k₁ k₂ : UInt64} {v₁ v₂ : VData} (apart : k₁ ≠ k₂)
    (get : t.get = Function.update (Function.update (fun _ => none) k₁ (some v₁)) k₂ (some v₂)) :
    t.Enumerates [k₁, k₂] ∧ ∀ e ∈ [(k₁, v₁), (k₂, v₂)], t.get e.1 = some e.2 := by
  refine ⟨⟨by simpa using apart, fun hkey => ?_⟩, ?_⟩
  · rw [← Table.isSome_get, get]
    by_cases second : hkey = k₂
    · simp [second]
    · by_cases first : hkey = k₁ <;> simp [first, second, apart]
  · rw [get]
    simp [apart]

/-- `Range` goes through the entries of an hkey from the newest to the oldest. -/
theorem Visits.versions {visits : List (List (UInt64 × VData))} (visited : s.Visits visits) (hkey : UInt64) :
    (visits.flatten.filterMap fun e => if e.1 = hkey then some e.2 else none) = s.versions hkey := by
  unfold Visits at visited
  unfold Storage.versions LayeredMap.versions layers
  rw [← List.map_reverse]
  generalize s.tables.reverse = tables at visited
  induction visited with
  | nil => rfl
  | cons entry _ ih =>
    rw [List.flatten_cons, List.filterMap_append, ih, visit_versions entry.1 entry.2, List.map_cons]
    cases found : Table.get _ hkey <;> simp [found]

end Olric.Storage
