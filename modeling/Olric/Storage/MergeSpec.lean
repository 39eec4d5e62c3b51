import Olric.Storage.MergeMoves

namespace Olric

/-- The effect of merging from one older table, between the layers `before` and `after` it,
into the newest one: entries change place, and nothing visible changes. -/
structure MergeKeeps (before after : LayeredMap UInt64 VData) (old fresh old' fresh' : Table) : Prop where
  oldValid : old'.Valid
  freshValid : fresh'.Valid
  lookup : LayeredMap.lookup (before ++ old'.get :: after ++ [fresh'.get]) =
    LayeredMap.lookup (before ++ old.get :: after ++ [fresh.get])
  separate : LayeredMap.Separate (before ++ old'.get :: after ++ [fresh'.get])

theorem mergeKeeps_move {before after : LayeredMap UInt64 VData} {old fresh fresh' : Table}
    {hkey : UInt64} {v : VData} (oldValid : old.Valid) (moved : Moved hkey v old fresh fresh')
    (separate : LayeredMap.Separate (before ++ old.get :: after ++ [fresh.get])) :
    MergeKeeps before after old fresh (old.delete hkey).2 fresh' where
  oldValid := oldValid.delete hkey
  freshValid := moved.valid
  lookup := by
    rw [Table.delete_get, moved.get]
    exact LayeredMap.lookup_move separate moved.found
  separate := by
    rw [Table.delete_get, moved.get]
    exact LayeredMap.separate_move separate moved.found

namespace Storage

/-- When the merge is done, one table is left. -/
theorem chunkedMergeTables_done {s s' : Storage} {order : Nat → List UInt64} {mmapOk : Bool}
    (orders : s.MergeOrder order)
    (run : s.chunkedMergeTables order mmapOk = .ok (true, s')) : s'.tables.length = 1 := by
  rcases chunkedMergeTables_cases run with ⟨_, single, rfl⟩ | ⟨_, olds, _, _, _, merged, exits⟩
  · exact single
  · rcases exits with ⟨⟨wrong, _⟩, _⟩ | ⟨⟨wrong, _⟩, _⟩ | ⟨_, rfl, rfl⟩
    · cases wrong
    · cases wrong
    · have empty := mergeOlder_empties merged fun _ member => (mergeInput_mem orders member).2
      rw [filter_nonempty_eq_nil empty]
      rfl

theorem chunkedMergeTables_merging {s s' : Storage} {order : Nat → List UInt64} {mmapOk done : Bool}
    (run : s.chunkedMergeTables order mmapOk = .ok (done, s')) : s'.merging = s.merging := by
  rcases chunkedMergeTables_cases run with ⟨_, _, rfl⟩ | ⟨_, _, _, _, _, _,
    ⟨_, rfl⟩ | ⟨_, _, _, rfl⟩ | ⟨_, _, rfl⟩⟩ <;> rfl

theorem lookup_of_empty {olds : List Table} (empty : ∀ t ∈ olds, t.get = fun _ => none) (fresh : Table) :
    LayeredMap.lookup (olds.map Table.get ++ [fresh.get]) = fresh.get := by
  funext hkey
  have zero : LayeredMap.lookup (olds.map Table.get) hkey = none := by
    rw [LayeredMap.lookup_eq_none_iff, LayeredMap.holders, List.countP_eq_zero]
    intro layer inLayers
    obtain ⟨t, member, rfl⟩ := List.mem_map.mp inLayers
    simp [empty t member]
  simp [zero]

/-- One merge step keeps every visible value, wherever it stops, if no hkey is in two tables. -/
theorem chunkedMergeTables_spec {s s' : Storage} (valid : s.Valid) {order : Nat → List UInt64}
    {mmapOk done : Bool} (orders : s.MergeOrder order) (separate : s.layers.Separate)
    (run : s.chunkedMergeTables order mmapOk = .ok (done, s')) :
    s'.Valid ∧ s'.layers.lookup = s.layers.lookup := by
  refine (chunkedMergeTables_rule_valid (P := fun tables => LayeredMap.Separate (tables.map Table.get) ∧
    LayeredMap.lookup (tables.map Table.get) = s.layers.lookup) orders run valid ⟨separate, rfl⟩ ?_ ?_ ?_).imp_right
      And.right
  · rintro before old after fresh hkey v fresh' oldValid moved ⟨separate, same⟩
    simp only [List.map_append, List.map_cons, List.map_nil] at separate same ⊢
    have kept := mergeKeeps_move oldValid moved separate
    exact ⟨kept.separate, kept.lookup.trans same⟩
  · rintro tables nt empty ⟨separate, same⟩
    rw [List.map_append, List.map_singleton, empty, LayeredMap.Separate, LayeredMap.holders_push_empty,
      LayeredMap.lookup_push_empty]
    exact ⟨separate, same⟩
  · rintro olds fresh empty ⟨separate, same⟩
    refine ⟨fun hkey => List.countP_le_length, ?_⟩
    rw [← same, List.map_append, List.map_singleton, lookup_of_empty empty]
    exact funext fun hkey => LayeredMap.lookup_singleton _ hkey

end Storage

end Olric
