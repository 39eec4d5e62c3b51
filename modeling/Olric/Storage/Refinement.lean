import Olric.Lib.Transitions
import Olric.Storage.DeleteSpec
import Olric.Storage.MergeSpec

namespace Olric

/-- The calls on a storage. `mergeExit` is the reset of the merging flag when the merge
goroutine ends, which is not part of the locked merge step. -/
inductive StorageOp
  | put (hkey : UInt64) (value : VData) (mmaps : List Bool)
  | delete (hkey : UInt64) (mmapOk : Bool)
  | merge (order : Nat → List UInt64) (mmapOk : Bool)
  | mergeExit

namespace Storage

inductive Step : Storage → StorageOp → Storage → Prop
  | put {s s' hkey value mmaps} : s.put mmaps hkey value = .ok (s', none) → Step s (.put hkey value mmaps) s'
  | delete {s s' hkey mmapOk err} : s.delete mmapOk hkey = .ok (s', err) → Step s (.delete hkey mmapOk) s'
  | merge {s s' order mmapOk done} : s.MergeOrder order →
      s.chunkedMergeTables order mmapOk = .ok (done, s') → Step s (.merge order mmapOk) s'
  | mergeExit {s} : Step s .mergeExit { s with merging := false }

def system : Transitions Storage StorageOp where
  init s := ∃ mmapOk size, new mmapOk size = .ok s
  step := Step

/-- The number of tables that hold the key. -/
def copies (s : Storage) (hkey : UInt64) : Nat := s.tables.countP fun t => hkey ∈ t.hkeys

/-- The steps that keep to one version of each key: the value length fits its four bytes,
`Delete` meets at most one copy of its key, and a merge step no key with two copies. -/
def SingleVersion (s : Storage) : StorageOp → Prop
  | .put _ value _ => value.value.length < 2 ^ 32
  | .delete hkey _ => s.copies hkey ≤ 1
  | .merge _ _ => ∀ hkey, s.copies hkey ≤ 1
  | .mergeExit => True

end Storage

/-- The finite map the calls describe: the last `Put` of a key that no `Delete` follows. -/
def StorageOp.apply (contents : Finmap fun _ : UInt64 => VData) : StorageOp → Finmap fun _ : UInt64 => VData
  | .put hkey value _ => contents.insert hkey value
  | .delete hkey _ => contents.erase hkey
  | .merge _ _ => contents
  | .mergeExit => contents

def storedBy (ops : List StorageOp) : Finmap fun _ : UInt64 => VData := ops.foldl StorageOp.apply ∅

theorem storedBy_snoc (ops : List StorageOp) (op : StorageOp) : storedBy (ops ++ [op]) = op.apply (storedBy ops) := by
  simp [storedBy]

namespace Storage

theorem copies_eq_holders (s : Storage) (hkey : UInt64) : s.copies hkey = s.layers.holders hkey := by
  rw [copies, LayeredMap.holders, layers, List.countP_map]
  apply List.countP_congr
  intro t _
  rw [decide_eq_true_iff, Function.comp_apply, Table.isSome_get]

theorem new_spec {mmapOk : Bool} {size : Int} {s : Storage} (run : new mmapOk size = .ok s) :
    s.Valid ∧ s.layers.lookup = fun _ => none := by
  obtain ⟨t, fresh, rfl⟩ := new_eq run
  have spec := Table.newTable_spec fresh
  refine ⟨⟨by simp, ?_⟩, ?_⟩
  · intro u member
    cases List.mem_singleton.mp member
    exact spec.1
  · funext hkey
    simp [layers, spec.2]

/-- The tables are valid and show exactly the given finite map. -/
structure Shows (s : Storage) (contents : Finmap fun _ : UInt64 => VData) : Prop where
  valid : s.Valid
  lookup : ∀ hkey, s.layers.lookup hkey = contents.lookup hkey

theorem Shows.step {s s' : Storage} {contents : Finmap fun _ : UInt64 => VData} {op : StorageOp}
    (shows_ : s.Shows contents) (single : s.SingleVersion op) (step : Step s op s') :
    s'.Shows (op.apply contents) := by
  cases step with
  | @put _ hkey value mmaps run =>
    have spec := put_spec shows_.valid single run
    refine ⟨spec.1, fun other => ?_⟩
    rw [spec.2, StorageOp.apply]
    by_cases same : other = hkey
    · subst other
      rw [Function.update_self, Finmap.lookup_insert]
    · rw [Function.update_of_ne same, Finmap.lookup_insert_of_ne _ same, shows_.lookup]
  | @delete _ hkey mmapOk err run =>
    have spec := delete_spec shows_.valid run
    refine ⟨spec.1, fun other => ?_⟩
    rw [StorageOp.apply]
    by_cases same : other = hkey
    · subst other
      rw [Finmap.lookup_erase, delete_lookup_eq_none_iff shows_.valid run, ← copies_eq_holders]
      exact single
    · rw [Finmap.lookup_erase_ne same, spec.2.1 other same, shows_.lookup]
  | @merge _ order mmapOk done orders run =>
    have separate : s.layers.Separate := by
      intro hkey
      rw [← copies_eq_holders]
      exact single hkey
    have spec := chunkedMergeTables_spec shows_.valid orders separate run
    exact ⟨spec.1, fun hkey => by rw [spec.2, shows_.lookup, StorageOp.apply]⟩
  | mergeExit => exact ⟨⟨shows_.valid.nonempty, shows_.valid.tables⟩, shows_.lookup⟩

/-- In every run of puts, deletes and merge steps that keep to one version of each key, `Get`
answers as the finite map of the calls so far does. -/
theorem get_refines_map {ops : List StorageOp} {s : Storage} (run : system.Run SingleVersion ops s) (hkey : UInt64) :
    s.get hkey = .ok (answer ((storedBy ops).lookup hkey)) := by
  have shows_ : s.Shows (storedBy ops) := by
    refine run.history_invariant (fun ops s => s.Shows (storedBy ops)) ?_ ?_
    · rintro s ⟨mmapOk, size, created⟩
      have spec := new_spec created
      exact ⟨spec.1, fun hkey => by rw [spec.2]; rfl⟩
    · intro ops s op s' shows_ single step
      rw [storedBy_snoc]
      exact shows_.step single step
  rw [get_eq shows_.valid.nonempty, shows_.lookup]

theorem get_refines_map_small :
    let v : VData := ⟨[107], 5, [1, 2]⟩
    ∃ s, system.Run SingleVersion [.put 7 v [], .delete 9 true] s ∧ s.get 7 = .ok (.ok v) := by
  intro v
  obtain ⟨s, created, stored, put, once, deleted, err, delete⟩ : ∃ s, new true 0 = .ok s ∧
      ∃ stored, s.put [] 7 v = .ok (stored, none) ∧ stored.copies 9 ≤ 1 ∧
      ∃ deleted err, stored.delete true 9 = .ok (deleted, err) :=
    ⟨_, rfl, _, rfl, by decide, _, _, rfl⟩
  have run : system.Run SingleVersion ([] ++ [.put 7 v []] ++ [.delete 9 true]) deleted :=
    .next (.next (.start ⟨true, 0, created⟩) (show v.value.length < 2 ^ 32 by decide) (.put put)) once
      (.delete delete)
  exact ⟨deleted, run, get_refines_map run 7⟩

theorem new_empty : ∃ t, newTable true 0 = .ok t ∧ new true 0 = .ok ⟨[t], false, false⟩ ∧ t.offset = 0 ∧
    t.allocated = 1048576 := by
  obtain ⟨t, table, room⟩ : ∃ t, newTable true 0 = .ok t ∧ t.offset = 0 ∧ t.allocated = 1048576 := ⟨_, rfl, rfl, rfl⟩
  exact ⟨t, table, by rw [new, table]; rfl, room⟩

/-- Two entries that fit into the first table. -/
theorem two_entries (k₁ k₂ : UInt64) {v₁ v₂ : VData} (small₁ : v₁.key.length < maxKeyLen)
    (small₂ : v₂.key.length < maxKeyLen) (room : v₁.encode.length + v₂.encode.length < 1048576) :
    ∃ t, system.AnyRun [.put k₁ v₁ [], .put k₂ v₂ []] ⟨[t], false, false⟩ ∧ t.Valid ∧
      t.get = Function.update (Function.update (fun _ => none) k₁ (some v₁)) k₂ (some v₂) ∧
      t.offset = v₁.encode.length + v₂.encode.length ∧ t.allocated = 1048576 := by
  have short {v : VData} (bound : v.encode.length < 1048576) : v.value.length < 2 ^ 32 := by
    rw [v.encode_length] at bound
    omega
  obtain ⟨t, table, created, offset, size⟩ := new_empty
  obtain ⟨t₁, put₁, offset₁, size₁⟩ :=
    Table.put_fits k₁ small₁ (show v₁.encode.length + t.offset < t.allocated by omega)
  obtain ⟨t₂, put₂, offset₂, size₂⟩ :=
    Table.put_fits k₂ small₂ (show v₂.encode.length + t₁.offset < t₁.allocated by omega)
  have run : system.AnyRun [] ⟨[t], false, false⟩ := .start ⟨true, 0, created⟩
  have run₁ : system.AnyRun [.put k₁ v₁ []] ⟨[t₁], false, false⟩ := run.next trivial (.put (put_of_fits rfl put₁))
  have run₂ : system.AnyRun [.put k₁ v₁ [], .put k₂ v₂ []] ⟨[t₂], false, false⟩ :=
    run₁.next trivial (.put (put_of_fits rfl put₂))
  have spec := Table.newTable_spec table
  have spec₁ := Table.put_spec spec.1 (short (by omega)) put₁
  have spec₂ := Table.put_spec spec₁.2.1 (short (by omega)) put₂
  refine ⟨t₂, run₂, spec₂.2.1, ?_, by omega, by omega⟩
  rw [spec₂.2.2, spec₁.2.2, spec.2]

/-- A large entry. A table has room for one of them. -/
def bulky (key : UInt8) : VData := ⟨[key], 0, List.replicate 600000 0⟩

theorem bulky_length (key : UInt8) : (bulky key).encode.length = 600014 := by
  rw [VData.encode_length, bulky, List.length_replicate, List.length_singleton]

/-- Fill the first table, then write key 1, which it holds, again: the second table gets a
second version. -/
theorem versions_after_switch {a d : VData} (smallA : a.key.length < maxKeyLen) (smallD : d.key.length < maxKeyLen)
    (lengthA : a.encode.length = 15) (lengthD : d.encode.length = 15) :
    ∃ old new, system.AnyRun [.put 1 a [], .put 2 (bulky 98) [], .put 3 (bulky 99) [true], .put 1 d []]
        ⟨[old, new], true, false⟩ ∧
      old.Valid ∧ old.get = Function.update (Function.update (fun _ => none) 1 (some a)) 2 (some (bulky 98)) ∧
      new.Valid ∧ new.get = Function.update (Function.update (fun _ => none) 3 (some (bulky 99))) 1 (some d) := by
  have short {v : VData} (bound : v.encode.length ≤ 600014) : v.value.length < 2 ^ 32 := by
    rw [v.encode_length] at bound
    omega
  have small (key : UInt8) : (bulky key).key.length < maxKeyLen := (by decide : 1 < maxKeyLen)
  have lengthB := bulky_length 98
  have lengthC := bulky_length 99
  obtain ⟨t, run, valid, get, offset, size⟩ := two_entries 1 2 smallA (small 98) (by omega)
  have full : t.put 3 (bulky 99) = .error .notEnoughSpace := Table.put_full 3 (small 99) (by omega)
  obtain ⟨u, fresh, offset₀, size₀⟩ := Table.newTable_returns (t.inuse * 2)
  obtain ⟨u₁, put₁, offset₁, size₁⟩ :=
    Table.put_fits 3 (small 99) (show (bulky 99).encode.length + u.offset < u.allocated by omega)
  obtain ⟨u₂, put₂, offset₂, size₂⟩ :=
    Table.put_fits 1 smallD (show d.encode.length + u₁.offset < u₁.allocated by omega)
  have run₁ :=
    run.andThen (.put 3 (bulky 99) [true]) (.put ((put_of_full rfl full fresh).trans (put_of_fits rfl put₁)))
  have run₂ := run₁.andThen (.put 1 d []) (.put (put_of_fits rfl put₂))
  have spec := Table.newTable_spec fresh
  have spec₁ := Table.put_spec spec.1 (short (by omega)) put₁
  have spec₂ := Table.put_spec spec₁.2.1 (short (by omega)) put₂
  refine ⟨t, u₂, run₂, valid, get, spec₂.2.1, ?_⟩
  rw [spec₂.2.2, spec₁.2.2, spec.2]

theorem overwrite_after_switch {a d : VData} (smallA : a.key.length < maxKeyLen) (smallD : d.key.length < maxKeyLen)
    (lengthA : a.encode.length = 15) (lengthD : d.encode.length = 15) :
    ∃ s, system.AnyRun [.put 1 a [], .put 2 (bulky 98) [], .put 3 (bulky 99) [true], .put 1 d []] s ∧ s.Valid ∧
      s.copies 1 = 2 := by
  obtain ⟨old, new, run, validOld, getOld, validNew, getNew⟩ := versions_after_switch smallA smallD lengthA lengthD
  have inOld : (1 : UInt64) ∈ old.hkeys := by
    rw [← Table.isSome_get, getOld]
    rfl
  have inNew : (1 : UInt64) ∈ new.hkeys := by
    rw [← Table.isSome_get, getNew]
    rfl
  refine ⟨_, run, ⟨by simp, ?_⟩, by simp [copies, inOld, inNew]⟩
  intro table member
  simp only [List.mem_cons, List.not_mem_nil, or_false] at member
  rcases member with rfl | rfl
  · exact validOld
  · exact validNew

/-- A key that is overwritten after the table it was in has become full survives its deletion:
`Delete` stops at the newer table, and the older version is visible again. -/
theorem overwritten_key_survives_delete :
    let ops : List StorageOp := [.put 1 ⟨[97], 0, [1]⟩ [], .put 2 ⟨[98], 0, List.replicate 600000 0⟩ [],
      .put 3 ⟨[99], 0, List.replicate 600000 0⟩ [true], .put 1 ⟨[97], 0, [2]⟩ [], .delete 1 true]
    ∃ s, system.AnyRun ops s ∧ s.get 1 ≠ .ok (answer ((storedBy ops).lookup 1)) := by
  intro ops
  obtain ⟨s, run, valid, copies⟩ := overwrite_after_switch (a := ⟨[97], 0, [1]⟩) (d := ⟨[97], 0, [2]⟩)
    (by decide) (by decide) (by decide) (by decide)
  obtain ⟨deleted, err, delete⟩ := delete_returns valid.nonempty true 1
  have visible : deleted.layers.lookup 1 ≠ none := by
    rw [Ne, delete_lookup_eq_none_iff valid delete, ← copies_eq_holders, copies]
    decide
  have absent : (storedBy ops).lookup 1 = none := Finmap.lookup_erase _ _
  refine ⟨deleted, run.next trivial (.delete delete), ?_⟩
  rw [get_eq (delete_spec valid delete).1.nonempty, absent]
  cases found : deleted.layers.lookup 1 with
  | none => exact absurd found visible
  | some v => simp [answer]

end Storage

end Olric
