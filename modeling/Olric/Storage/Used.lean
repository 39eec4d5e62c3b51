import Olric.Storage.RoundTrip
import Olric.Storage.Versions
import Olric.Storage.Weight

namespace Olric

/-- What is put raw can be decoded, as everything can that `GetRaw` returns. -/
def StorageCall.Sound : StorageCall → Prop
  | .putRaw _ raw _ => ∃ v, decodeRaw raw = .ok v
  | _ => True

namespace Storage

variable {s s' : Storage} {order : Nat → List UInt64} {mmapOk done : Bool}

/-- A storage in use: new or sent from another node, and then anything that is done with it. -/
inductive Used : Storage → Prop
  | new {s mmapOk size} : new mmapOk size = .ok s → Used s
  | call {s answer s'} (call : StorageCall) : Used s → call.Sound → s.Meets call →
      s.perform call = .ok (answer, s') → Used s'
  | sent {s tr mmapOk s'} : Used s → s.exportTable = .ok tr → importTable mmapOk tr = .ok s' → Used s'

theorem used_of_run {ops : List StorageOp} (run : system.AnyRun ops s) : s.Used := by
  refine run.invariant Used ?_ ?_
  · rintro s ⟨mmapOk, size, created⟩
    exact .new created
  intro s op s' used _ step
  cases step with
  | @put _ hkey value mmaps done =>
    exact .call (.put hkey value mmaps) used trivial trivial (by rw [perform, done]; rfl)
  | @delete _ hkey mmapOk err done =>
    exact .call (.delete hkey mmapOk) used trivial trivial (by rw [perform, done]; rfl)
  | @merge _ order mmapOk done orders merged =>
    exact .call (.merge order mmapOk) used trivial orders (by rw [perform, merged]; rfl)
  | mergeExit => exact .call .mergeExit used trivial trivial rfl

theorem chunkedMergeTables_valid (valid : s.Valid) (orders : s.MergeOrder order)
    (run : s.chunkedMergeTables order mmapOk = .ok (done, s')) : s'.Valid :=
  (chunkedMergeTables_rule_valid (P := fun _ => True) orders run valid trivial (fun _ _ => id) (fun _ => id) fun _ =>
    id).1

theorem perform_valid {call : StorageCall} {answer : StorageAnswer} (valid : s.Valid) (sound : call.Sound)
    (meets : s.Meets call) (run : s.perform call = .ok (answer, s')) : s'.Valid := by
  refine ⟨(perform_open run valid.nonempty).2, ?_⟩
  have fresh {mmapOk : Bool} {size : Int} {nt : Table} (made : newTable mmapOk size = .ok nt) : nt.Valid :=
    (Table.newTable_spec made).1
  rcases perform_cases run with ⟨hkey, value, mmaps, err, rfl, done⟩ | ⟨hkey, raw, mmaps, err, rfl, done⟩ |
    ⟨hkey, mmapOk, err, rfl, done⟩ | ⟨order, mmapOk, finished, rfl, done⟩ | ⟨rfl, rfl⟩
  · exact retry_tables fresh (fun _ _ _ valid done => (Table.put_cut valid done).1) done valid.tables
  · obtain ⟨v, decoded⟩ := sound
    obtain ⟨fits, rest, rfl⟩ := decodeRaw_eq_ok decoded
    exact retry_tables fresh (fun _ _ _ valid done => (Table.putRaw_spec valid fits done).1) done valid.tables
  · exact delete_tables fresh (fun valid => valid.delete hkey) done valid.tables
  · exact (chunkedMergeTables_valid valid meets done).tables
  · exact valid.tables

theorem Used.valid (used : s.Used) : s.Valid := by
  induction used with
  | new created => exact (new_spec created).1
  | call _ _ sound meets run valid => exact perform_valid valid sound meets run
  | sent _ exported imported valid => exact (importTable_spec valid exported imported).1

/-- A merge step always comes to an end. -/
theorem chunkedMergeTables_returns (nonempty : s.tables ≠ []) (order : Nat → List UInt64) (mmapOk : Bool) :
    ∃ done s', s.chunkedMergeTables order mmapOk = .ok (done, s') := by
  obtain ⟨fresh, last⟩ := Option.isSome_iff_exists.1 (List.getLast?_isSome.2 nonempty)
  unfold chunkedMergeTables
  rw [last]
  dsimp only
  split
  · exact ⟨_, _, rfl⟩
  · split
    · split <;> exact ⟨_, _, rfl⟩
    · exact ⟨_, _, rfl⟩
    · exact ⟨_, _, rfl⟩

section MergeStep

variable (valid : s.Valid) (orders : s.MergeOrder order) (run : s.chunkedMergeTables order mmapOk = .ok (done, s'))
include valid orders run

/-- No key gets lost and none is new. -/
theorem chunkedMergeTables_keys (hkey : UInt64) :
    (∃ t ∈ s'.tables, hkey ∈ t.hkeys) ↔ ∃ t ∈ s.tables, hkey ∈ t.hkeys := by
  have without {t : Table} (empty : t.get = fun _ => none) : hkey ∉ t.hkeys := by
    rw [← Table.get_eq_none_iff, empty]
  refine (chunkedMergeTables_rule_valid (P := fun tables => (∃ t ∈ tables, hkey ∈ t.hkeys) ↔ ∃ t ∈ s.tables,
    hkey ∈ t.hkeys)
    orders run valid Iff.rfl ?_ ?_ ?_).2
  · intro before old after fresh key v fresh' _ moved same
    rw [← same]
    simp only [List.append_assoc, List.cons_append, List.mem_append, List.mem_cons, List.not_mem_nil, or_false,
      or_and_right, exists_or, exists_eq_left, ← Table.isSome_get, Table.delete_get, moved.get]
    by_cases here : hkey = key
    · subst here
      simp [moved.found]
    · simp [here]
  · intro tables nt empty same
    rw [← same]
    simp only [List.mem_append, List.mem_singleton, or_and_right, exists_or, exists_eq_left]
    exact or_iff_left (without empty)
  · intro olds fresh empty same
    have none : ¬∃ t ∈ olds, hkey ∈ t.hkeys := fun ⟨t, mem, here⟩ => without (empty t mem) here
    rw [← same]
    simp [or_and_right, exists_or, none]

/-- The only entry of a key stays the only one. -/
theorem chunkedMergeTables_single_version {hkey : UInt64} {v : VData} (only : s.versions hkey = [v]) :
    s'.versions hkey = [v] := by
  refine (chunkedMergeTables_rule_valid (P := fun tables => LayeredMap.versions (tables.map Table.get) hkey = [v])
    orders run valid only ?_ ?_ ?_).2
  · intro before old after fresh key w fresh' _ moved only
    simp only [List.map_append, List.map_cons, List.map_nil, Table.delete_get, moved.get] at only ⊢
    exact LayeredMap.versions_move moved.found only
  · intro tables nt empty only
    rwa [List.map_append, List.map_singleton, empty, LayeredMap.versions_push_empty]
  · intro olds fresh empty only
    have none : LayeredMap.versions (olds.map Table.get) hkey = [] := by
      refine List.filterMap_eq_nil_iff.2 fun layer mem => ?_
      obtain ⟨t, older, rfl⟩ := List.mem_map.1 (List.mem_reverse.1 mem)
      rw [empty t older]
    rwa [List.map_append, LayeredMap.versions_append, none, List.append_nil] at only

/-- Nothing gets heavier: an entry may replace another one. -/
theorem chunkedMergeTables_weight_le (weight : VData → Nat) :
    weighAll weight s'.tables ≤ weighAll weight s.tables := by
  refine (chunkedMergeTables_rule_valid (P := fun tables => weighAll weight tables ≤ weighAll weight s.tables)
    orders run valid (Nat.le_refl _) ?_ ?_ ?_).2
  · intro before old after fresh key v fresh' _ moved le
    exact (weighAll_move weight moved).trans le
  · intro tables nt empty le
    rwa [weighAll_append, weighAll_cons, weighAll_nil, Table.weigh_of_empty _ empty]
  · intro olds fresh _ le
    rw [weighAll_append] at le
    exact (Nat.le_add_left _ _).trans le

end MergeStep

theorem versions_of_copies {hkey : UInt64} : s.copies hkey = 1 ↔ ∃ v, s.versions hkey = [v] := by
  rw [copies_eq_holders, ← LayeredMap.length_versions, List.length_eq_one_iff]
  rfl

/-- Wherever a merge step stops, the same keys are there, the only entry of a key is still its only
one, and there are not more entries than before. -/
theorem merge_step_keeps (used : s.Used) (orders : s.MergeOrder order) (mmapOk : Bool) :
    ∃ done s', s.chunkedMergeTables order mmapOk = .ok (done, s') ∧
      (∀ hkey, s'.check hkey = s.check hkey) ∧
      (∀ hkey, s.copies hkey = 1 → s'.copies hkey = 1 ∧ s'.get hkey = s.get hkey) ∧
      s'.len ≤ s.len := by
  have valid := used.valid
  obtain ⟨done, s', run⟩ := chunkedMergeTables_returns valid.nonempty order mmapOk
  have valid' := chunkedMergeTables_valid valid orders run
  refine ⟨done, s', run, fun hkey => ?_, fun hkey once => ?_, ?_⟩
  · have keys := chunkedMergeTables_keys valid orders run hkey
    have same : (s'.tables.reverse.any fun t => hkey ∈ t.hkeys) = s.tables.reverse.any fun t => hkey ∈ t.hkeys := by
      rw [Bool.eq_iff_iff]
      simpa using keys
    simp only [check, List.isEmpty_iff, valid.nonempty, valid'.nonempty, if_false, same]
  · obtain ⟨v, only⟩ := versions_of_copies.1 once
    have kept := chunkedMergeTables_single_version valid orders run only
    refine ⟨versions_of_copies.2 ⟨v, kept⟩, ?_⟩
    rw [get_of_versions (v := v) (by rw [kept]; rfl), get_of_versions (v := v) (by rw [only]; rfl)]
  · rw [len_eq, len_eq]
    exact chunkedMergeTables_weight_le valid orders run fun _ => 1

/-- The order in which the keys of a finite set are listed is a possible one. -/
theorem exists_order (s : Storage) : ∃ order, s.MergeOrder order := by
  refine ⟨fun i => ((s.tables.dropLast[i]?).map fun t => t.hkeys.keys.toList).getD [], fun i t at' => ?_⟩
  dsimp only
  rw [at']
  exact ⟨t.hkeys.keys.nodup_toList, by simp [Finmap.mem_keys]⟩

/-- A step for two tables, the second of which has a newer entry for a key of the first. -/
theorem merge_step_keeps_two :
    ∃ (s : Storage) (order : Nat → List UInt64) (done : Bool) (s' : Storage), s.tables.length = 2 ∧
      s.chunkedMergeTables order true = .ok (done, s') ∧
      s'.check 2 = s.check 2 ∧ s.copies 2 = 1 ∧ s'.get 2 = s.get 2 ∧ s'.len ≤ s.len := by
  obtain ⟨old, new, run, _, getOld, _, getNew⟩ := versions_after_switch (a := ⟨[97], 0, [1]⟩) (d := ⟨[97], 0, [2]⟩)
    (by decide) (by decide) (by decide) (by decide)
  obtain ⟨order, orders⟩ := exists_order ⟨[old, new], true, false⟩
  have inOld : (2 : UInt64) ∈ old.hkeys := by
    rw [← Table.isSome_get, getOld]
    rfl
  have notInNew : (2 : UInt64) ∉ new.hkeys := by
    rw [← Table.get_eq_none_iff, getNew]
    rfl
  have once : Storage.copies ⟨[old, new], true, false⟩ 2 = 1 := by simp [copies, inOld, notInNew]
  obtain ⟨done, s', merged, check, kept, len⟩ := merge_step_keeps (used_of_run run) orders true
  exact ⟨_, order, done, s', rfl, merged, check 2, once, (kept 2 once).2, len⟩

/-- What `GetRaw` copies is decoded to what `Get` reads. Put raw into any storage in use, it is read and
copied from there as from here, and no other key is touched. -/
theorem raw_copy {t : Storage} {hkey : UInt64} {v : VData} (used : s.Used) (got : s.get hkey = .ok (.ok v))
    (used' : t.Used) :
    ∃ raw, s.getRaw hkey = .ok (.ok raw) ∧ decodeRaw raw = .ok v ∧
      ∀ mmaps t', t.putRaw mmaps hkey raw = .ok (t', none) →
        t'.get hkey = .ok (.ok v) ∧ t'.getRaw hkey = .ok (.ok raw) ∧ ∀ other, other ≠ hkey →
          t'.get other = t.get other := by
  have valid := used.valid
  have found := (get_eq_some_iff valid.nonempty).1 got
  have fits := valid.fits found
  refine ⟨v.encode ++ [0], ?_, decodeRaw_encode fits [0], fun mmaps t' run => ?_⟩
  · rw [getRaw_eq valid, found]
    rfl
  · obtain ⟨valid', lookup⟩ := putRaw_spec used'.valid fits run
    have here : t'.layers.lookup hkey = some v := by rw [lookup, Function.update_self]
    refine ⟨(get_eq_some_iff valid'.nonempty).2 here, ?_, fun other differs => ?_⟩
    · rw [getRaw_eq valid', here]
      rfl
    · rw [get_eq valid'.nonempty, get_eq used'.valid.nonempty, lookup, Function.update_of_ne differs]

/-- A new storage, and one with an entry. -/
theorem used_single (hkey : UInt64) {v : VData} (small : v.key.length < maxKeyLen)
    (short : v.encode.length < 1048576) :
    ∃ t stored : Table, newTable true 0 = .ok t ∧ t.offset = 0 ∧ t.allocated = 1048576 ∧ Used ⟨[t], false, false⟩ ∧
      Used ⟨[stored], false, false⟩ ∧ stored.get hkey = some v := by
  obtain ⟨t, fresh, created, offset, size⟩ := new_empty
  have used : Used ⟨[t], false, false⟩ := .new created
  obtain ⟨stored, done, _⟩ := Table.put_fits (t := t) hkey small (by omega)
  have performed : perform ⟨[t], false, false⟩ (.put hkey v []) = .ok (.err none, ⟨[stored], false, false⟩) := by
    rw [perform, put_of_fits rfl done]
    rfl
  refine ⟨t, stored, fresh, offset, size, used, .call (.put hkey v []) used trivial trivial performed, ?_⟩
  have value : v.value.length < 2 ^ 32 := by
    rw [v.encode_length] at short
    omega
  rw [(Table.put_spec (Table.newTable_spec fresh).1 value done).2.2, Function.update_self]

/-- From a storage with one entry into a new one. -/
theorem raw_copy_one : ∃ (s t t' : Storage) (raw : Bytes), s.Used ∧ t.Used ∧
    (∀ table ∈ t.tables, (7 : UInt64) ∉ table.hkeys) ∧
    s.getRaw 7 = .ok (.ok raw) ∧ t.putRaw [] 7 raw = .ok (t', none) ∧ t'.get 7 = .ok (.ok ⟨[107], -5, [1, 2]⟩) ∧
    t'.getRaw 7 = .ok (.ok raw) := by
  obtain ⟨table, stored, fresh, offset, size, empty, used, entry⟩ :=
    used_single 7 (v := ⟨[107], -5, [1, 2]⟩) (by decide)
    (by rw [VData.encode_length]; decide)
  have got : get ⟨[stored], false, false⟩ 7 = .ok (.ok ⟨[107], -5, [1, 2]⟩) := by simp [get, entry]
  obtain ⟨raw, copied, decoded, copies⟩ := raw_copy used got empty
  obtain rfl : VData.encode ⟨[107], -5, [1, 2]⟩ ++ [0] = raw := by
    rw [getRaw_eq used.valid, (get_eq_some_iff used.valid.nonempty).1 got] at copied
    exact Except.ok.inj (Except.ok.inj copied)
  obtain ⟨target, raw⟩ : ∃ target, table.putRaw 7 (VData.encode ⟨[107], -5, [1, 2]⟩ ++ [0]) = .ok target := by
    refine ⟨_, if_neg ?_⟩
    rw [List.length_append, VData.encode_length, size, offset]
    decide
  have run : putRaw ⟨[table], false, false⟩ [] 7 (VData.encode ⟨[107], -5, [1, 2]⟩ ++ [0]) =
      .ok (⟨[target], false, false⟩, none) := by
    simp [putRaw, retry, raw]
  obtain ⟨read, again, _⟩ := copies [] _ run
  refine ⟨_, _, _, _, used, empty, fun t mem => ?_, copied, run, read, again⟩
  cases List.mem_singleton.1 mem
  exact Table.get_eq_none_iff.1 (congrFun (Table.newTable_spec fresh).2 7)

end Storage

end Olric
