import Olric.Storage.StoreSpec

namespace Olric.Storage

theorem deleteScan_cases (hkey : UInt64) (tables : List Table) :
    ((∀ t ∈ tables, t.get hkey = none) ∧ deleteScan hkey tables = tables) ∨
      ∃ newer t older, tables = newer ++ t :: older ∧ (∀ u ∈ newer, u.get hkey = none) ∧ (t.get hkey).isSome ∧
        deleteScan hkey tables = newer ++ (t.delete hkey).2 :: older := by
  induction tables with
  | nil => exact Or.inl ⟨by simp, rfl⟩
  | cons t older ih =>
    have flag := t.delete_fst hkey
    unfold deleteScan
    split
    · rename_i unchanged deleted
      rw [deleted] at flag
      have absent : t.get hkey = none := by simpa using flag.symm
      have same : unchanged = t := by rw [← Table.delete_of_none absent, deleted]
      subst unchanged
      rcases ih with ⟨none, fixed⟩ | ⟨newer, u, rest, split, none, found, scanned⟩
      · exact Or.inl ⟨by simpa [absent] using none, by rw [fixed]⟩
      · exact Or.inr ⟨t :: newer, u, rest, by rw [split, List.cons_append],
          List.forall_mem_cons.2 ⟨absent, none⟩, found, by rw [scanned, List.cons_append]⟩
    · rename_i rest deleted
      rw [deleted] at flag
      refine Or.inr ⟨[], t, older, rfl, by simp, ?_, by rw [deleted, List.nil_append]⟩
      cases value : t.get hkey with
      | none => simp [value] at flag
      | some v => rfl

/-- The scan leaves the tables alone, or erases the key from the newest of them that has it. -/
theorem scanned_cases (s : Storage) (hkey : UInt64) :
    ((∀ t ∈ s.tables, t.get hkey = none) ∧ (deleteScan hkey s.tables.reverse).reverse = s.tables) ∨
      ∃ older t newer, s.tables = older ++ t :: newer ∧ (∀ u ∈ newer, u.get hkey = none) ∧ (t.get hkey).isSome ∧
        (deleteScan hkey s.tables.reverse).reverse = older ++ (t.delete hkey).2 :: newer := by
  rcases deleteScan_cases hkey s.tables.reverse with ⟨absent, same⟩ | ⟨newer, t, older, split, none, found, result⟩
  · exact .inl ⟨fun t member => absent t (List.mem_reverse.2 member), by rw [same, List.reverse_reverse]⟩
  · refine .inr ⟨older.reverse, t, newer.reverse, ?_, fun u member => none u (List.mem_reverse.1 member), found, ?_⟩
    · rw [← s.tables.reverse_reverse, split, List.reverse_append, List.reverse_cons, List.append_assoc,
        List.singleton_append]
    · rw [result, List.reverse_append, List.reverse_cons, List.append_assoc, List.singleton_append]

/-- After the scan every other key keeps its visible value, and one copy of the key is gone
if there was any. -/
theorem scanned_spec {s : Storage} (valid : s.Valid) (hkey : UInt64) :
    let scanned : Storage := { s with tables := (deleteScan hkey s.tables.reverse).reverse }
    scanned.Valid ∧ (∀ other, other ≠ hkey → scanned.layers.lookup other = s.layers.lookup other) ∧
      scanned.layers.holders hkey = s.layers.holders hkey - 1 := by
  intro scanned
  rcases s.scanned_cases hkey with ⟨absent, same⟩ | ⟨older, t, newer, before, _, found, after⟩
  · have unchanged : scanned = s := by
      change ({ s with tables := (deleteScan hkey s.tables.reverse).reverse } : Storage) = s
      rw [same]
    have zero : s.layers.holders hkey = 0 := by
      simp only [LayeredMap.holders, layers, List.countP_eq_zero, List.mem_map]
      rintro _ ⟨t, member, rfl⟩
      simp [absent t member]
    rw [unchanged]
    exact ⟨valid, fun _ _ => rfl, by omega⟩
  · have after : scanned.tables = older ++ (t.delete hkey).2 :: newer := after
    have beforeLayers : s.layers = older.map Table.get ++ t.get :: newer.map Table.get := by
      rw [layers, before, List.map_append, List.map_cons]
    have afterLayers : scanned.layers = older.map Table.get ++ Function.update t.get hkey none :: newer.map
        Table.get := by
      rw [layers, after, List.map_append, List.map_cons, Table.delete_get]
    refine ⟨⟨by simp [after], ?_⟩, ?_, ?_⟩
    · intro u member
      rw [after] at member
      rcases List.mem_append.mp member with old | rest
      · exact valid.tables u (by rw [before]; exact List.mem_append_left _ old)
      · rcases List.mem_cons.mp rest with rfl | new
        · exact (valid.tables t (by simp [before])).delete hkey
        · exact valid.tables u (by rw [before]; exact List.mem_append_right _ (List.mem_cons_of_mem _ new))
    · intro other ne
      rw [beforeLayers, afterLayers, LayeredMap.lookup_erase_of_ne _ _ _ ne]
    · rw [beforeLayers, afterLayers, ← LayeredMap.holders_erase _ _ found]
      omega

/-- `Delete` ends with the scanned tables, or with one more, empty, table after them. -/
theorem delete_cases {s s' : Storage} {mmapOk : Bool} {hkey : UInt64} {err : Option StorageError}
    (run : s.delete mmapOk hkey = .ok (s', err)) :
    let scanned : Storage := { s with tables := (deleteScan hkey s.tables.reverse).reverse }
    s' = scanned ∨ ∃ size nt, newTable mmapOk size = .ok nt ∧
      s' = { scanned with tables := scanned.tables ++ [nt], merging := true } := by
  intro scanned
  unfold delete at run
  split at run
  · cases run
  · dsimp only at run
    split at run
    · split at run
      · split at run
        · cases run; exact Or.inl rfl
        · split at run
          · cases run; exact Or.inl rfl
          · rename_i nt fresh
            cases run
            exact Or.inr ⟨_, nt, fresh, rfl⟩
      · cases run; exact Or.inl rfl
    · cases run; exact Or.inl rfl

theorem delete_returns {s : Storage} (nonempty : s.tables ≠ []) (mmapOk : Bool) (hkey : UInt64) :
    ∃ s' err, s.delete mmapOk hkey = .ok (s', err) := by
  unfold delete
  rw [if_neg (by simpa using nonempty)]
  dsimp only
  split
  · split
    · split
      · exact ⟨_, _, rfl⟩
      · split <;> exact ⟨_, _, rfl⟩
    · exact ⟨_, _, rfl⟩
  · exact ⟨_, _, rfl⟩

/-- With mmap a delete has no error. -/
theorem delete_succeeds {s : Storage} (nonempty : s.tables ≠ []) (hkey : UInt64) :
    ∃ s', s.delete true hkey = .ok (s', none) := by
  obtain ⟨s', err, run⟩ := delete_returns nonempty true hkey
  cases err with
  | none => exact ⟨s', run⟩
  | some e =>
    unfold delete at run
    rw [if_neg (by simpa using nonempty)] at run
    dsimp only at run
    split at run
    · split at run
      · split at run
        · cases run
        · split at run
          · rename_i failed
            obtain ⟨nt, made, _⟩ := Table.newTable_returns _
            cases made.symm.trans failed
          · cases run
      · cases run
    · cases run

theorem delete_spec {s s' : Storage} (valid : s.Valid) {mmapOk : Bool} {hkey : UInt64}
    {err : Option StorageError} (run : s.delete mmapOk hkey = .ok (s', err)) :
    s'.Valid ∧ (∀ other, other ≠ hkey → s'.layers.lookup other = s.layers.lookup other) ∧
      s'.layers.holders hkey = s.layers.holders hkey - 1 := by
  have scanned := scanned_spec valid hkey
  rcases delete_cases run with rfl | ⟨size, nt, fresh, rfl⟩
  · exact scanned
  · obtain ⟨valid', same⟩ := scanned.1.push_new fresh true
    refine ⟨valid', by rw [same]; exact scanned.2.1, ?_⟩
    rw [← scanned.2.2]
    simp only [layers, List.map_append, List.map_singleton, (Table.newTable_spec fresh).2,
      LayeredMap.holders_push_empty]

/-- `Delete` removes the key exactly if no second table holds a copy of it. -/
theorem delete_lookup_eq_none_iff {s s' : Storage} (valid : s.Valid) {mmapOk : Bool} {hkey : UInt64}
    {err : Option StorageError} (run : s.delete mmapOk hkey = .ok (s', err)) :
    s'.layers.lookup hkey = none ↔ s.layers.holders hkey ≤ 1 := by
  rw [LayeredMap.lookup_eq_none_iff, (delete_spec valid run).2.2]
  omega

end Olric.Storage
