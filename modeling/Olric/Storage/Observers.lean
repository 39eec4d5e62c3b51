import Mathlib.Data.Set.Card
import Olric.Storage.Calls
import Olric.Storage.Growth
import Olric.Storage.Lifetime

namespace Olric

namespace Table

theorem mem_delete {t : Table} {hkey other : UInt64} :
    other ∈ (t.delete hkey).2.hkeys ↔ other ≠ hkey ∧ other ∈ t.hkeys := by
  rw [← Finmap.lookup_isSome, delete_lookup, ← Finmap.lookup_isSome]
  split <;> simp_all

theorem mem_putRaw {t stored : Table} {hkey other : UInt64} {raw : Bytes} (run : t.putRaw hkey raw = .ok stored) :
    other ∈ stored.hkeys ↔ other = hkey ∨ other ∈ t.hkeys := by
  obtain ⟨_, rfl⟩ := putRaw_ok run
  exact Finmap.mem_insert

theorem mem_put {t stored : Table} {hkey other : UInt64} {v : VData} (run : t.put hkey v = .ok stored) :
    other ∈ stored.hkeys ↔ other = hkey ∨ other ∈ t.hkeys := by
  obtain ⟨small, room⟩ := put_ok run
  rw [put_eq small room] at run
  cases Except.ok.inj run
  have mem : other ∈ (t.delete hkey).2.hkeys.insert hkey (t.delete hkey).2.offset ↔ other = hkey ∨
      other ∈ t.hkeys := by
    rw [Finmap.mem_insert, mem_delete]
    by_cases same : other = hkey <;> simp [same]
  exact mem

/-- One copy of the key, or none. -/
def copies (hkey : UInt64) (t : Table) : Nat := if hkey ∈ t.hkeys then 1 else 0

/-- One table's share of `Storage.Visits`. -/
def Visited (t : Table) (visit : List (UInt64 × VData)) : Prop :=
  t.Enumerates (visit.map Prod.fst) ∧ ∀ e ∈ visit, t.get e.1 = some e.2

end Table

namespace Storage

variable {s s' : Storage} {hkey : UInt64}

theorem copies_eq_sum (tables : List Table) (merging closed : Bool) (hkey : UInt64) :
    Storage.copies ⟨tables, merging, closed⟩ hkey = (tables.map (Table.copies hkey)).sum := by
  unfold copies
  induction tables with
  | nil => rfl
  | cons t tables ih =>
    rw [List.countP_cons, List.map_cons, List.sum_cons, ih, Nat.add_comm]
    simp [Table.copies]

theorem newTable_copies {mmapOk : Bool} {size : Int} {nt : Table} (fresh : newTable mmapOk size = .ok nt)
    (hkey : UInt64) : nt.copies hkey = 0 := by
  have none : nt.get hkey = none := congrFun (Table.newTable_spec fresh).2 hkey
  exact if_neg (Table.get_eq_none_iff.1 none)

theorem chunkedMergeTables_copies {order : Nat → List UInt64} {mmapOk done : Bool} (orders : s.MergeOrder order)
    (run : s.chunkedMergeTables order mmapOk = .ok (done, s')) (hkey : UInt64) : s'.copies hkey ≤ s.copies hkey := by
  rw [copies_eq_sum s'.tables s'.merging s'.closed, copies_eq_sum s.tables s.merging s.closed]
  refine chunkedMergeTables_rule (P := fun tables => (tables.map (Table.copies hkey)).sum ≤
    (s.tables.map (Table.copies hkey)).sum)
    orders run (Nat.le_refl _) ?_ ?_ ?_
  · intro before old after fresh key fresh' here run le
    have moved : (old.delete key).2.copies hkey + fresh'.copies hkey ≤ old.copies hkey + fresh.copies hkey := by
      unfold Table.copies
      by_cases same : hkey = key
      · subst same
        simp [Table.mem_delete, Table.mem_putRaw run, here]
      · simp [Table.mem_delete, Table.mem_putRaw run, same]
    simp only [List.map_append, List.map_cons, List.map_nil, List.sum_append, List.sum_cons, List.sum_nil] at le ⊢
    omega
  · intro tables _ _ nt new le
    simpa [newTable_copies new] using le
  · intro olds fresh _ le
    simp only [List.map_append, List.map_cons, List.map_nil, List.sum_append, List.sum_cons, List.sum_nil] at le ⊢
    omega

theorem delete_copies {mmapOk : Bool} {err : Option StorageError} (run : s.delete mmapOk hkey = .ok (s', err))
    (other : UInt64) : s'.copies other ≤ s.copies other := by
  have erased (t : Table) : (t.delete hkey).2.copies other ≤ t.copies other := by
    unfold Table.copies
    by_cases same : other = hkey <;> simp [Table.mem_delete, same]
  have scanned : ((deleteScan hkey s.tables.reverse).reverse.map (Table.copies other)).sum ≤ s.copies other := by
    rw [copies_eq_sum s.tables s.merging s.closed, List.map_reverse, List.sum_reverse]
    conv_rhs => rw [← s.tables.reverse_reverse, List.map_reverse, List.sum_reverse]
    rcases deleteScan_cases hkey s.tables.reverse with ⟨_, same⟩ | ⟨newer, t, older, split, _, _, result⟩
    · rw [same]
    · have less := erased t
      rw [result, split]
      simp only [List.map_append, List.map_cons, List.sum_append, List.sum_cons]
      omega
  rcases delete_cases run with rfl | ⟨size, nt, fresh, rfl⟩
  · rw [copies_eq_sum]
    exact scanned
  · rw [copies_eq_sum]
    simpa [newTable_copies fresh] using scanned

/-- A write leaves the other keys of a table alone. -/
def WritesKey (write : Table → Except StorageError Table) (hkey : UInt64) : Prop :=
  ∀ t stored : Table, write t = .ok stored → ∀ other, other ∈ stored.hkeys ↔ other = hkey ∨ other ∈ t.hkeys

/-- Only the last table has the key, and only if the write goes there. -/
def InPlace (s : Storage) (write : Table → Except StorageError Table) (hkey : UInt64) : Prop :=
  (∀ t ∈ s.tables.dropLast, hkey ∉ t.hkeys) ∧
    ∀ t, s.tables.getLast? = some t → hkey ∈ t.hkeys → write t ≠ .error .notEnoughSpace

theorem copies_of_last {t : Table} (last : s.tables.getLast? = some t) (hkey : UInt64) :
    s.copies hkey = Storage.copies ⟨s.tables.dropLast, s.merging, s.closed⟩ hkey + t.copies hkey := by
  conv_lhs => rw [copies_eq_sum s.tables s.merging s.closed, tables_eq_of_getLast? last]
  rw [copies_eq_sum]
  simp

theorem retry_copies_other {write : Table → Except StorageError Table} {mmaps : List Bool} {err : Option StorageError}
    {other : UInt64} (writes : WritesKey write hkey) (run : retry write mmaps s = .ok (s', err))
    (differs : other ≠ hkey) : s'.copies other = s.copies other := by
  refine retry_rule (P := fun u => u.copies other = s.copies other) (Q := fun u => u.copies other = s.copies other)
    run rfl
    ?_ ?_ fun same _ _ => same
  · intro u t nt mmapOk same _ _ fresh
    rw [← same, copies_eq_sum, copies_eq_sum u.tables u.merging u.closed]
    simp [newTable_copies fresh]
  · intro u t stored same last done _
    rw [← same, copies_of_last last, copies_eq_sum, copies_eq_sum]
    simp [Table.copies, writes t stored done, differs]

theorem retry_copies_self {write : Table → Except StorageError Table} {mmaps : List Bool} {err : Option StorageError}
    (run : retry write mmaps s = .ok (s', err)) (inPlace : s.InPlace write hkey) : s'.copies hkey ≤ 1 := by
  have none {tables : List Table} (absent : ∀ t ∈ tables, hkey ∉ t.hkeys) (merging closed : Bool) :
      Storage.copies ⟨tables, merging, closed⟩ hkey = 0 := by
    rw [copies, List.countP_eq_zero]
    simpa using absent
  refine retry_rule (P := fun u => u.InPlace write hkey) (Q := fun u => u.copies hkey ≤ 1) run inPlace ?_ ?_ ?_
  · intro u t nt mmapOk inv last full fresh
    refine ⟨fun t' mem => ?_, fun t' last' here => ?_⟩
    · rw [List.dropLast_concat, tables_eq_of_getLast? last] at mem
      rcases List.mem_append.1 mem with older | this
      · exact inv.1 t' older
      · cases List.mem_singleton.1 this
        exact fun here => inv.2 t last here full
    · rw [List.getLast?_concat] at last'
      cases last'
      have absent := newTable_copies fresh hkey
      rw [Table.copies, if_pos here] at absent
      cases absent
  · intro u t stored inv last done _
    have one : stored.copies hkey ≤ 1 := by
      unfold Table.copies
      split <;> omega
    have split := copies_of_last (s := { u with tables := u.tables.dropLast ++ [stored] }) List.getLast?_concat hkey
    rw [split, List.dropLast_concat, none inv.1]
    omega
  · intro u e inv nonempty _
    obtain ⟨t, last⟩ := Option.isSome_iff_exists.1 (List.getLast?_isSome.2 nonempty)
    have one : t.copies hkey ≤ 1 := by
      unfold Table.copies
      split <;> omega
    rw [copies_of_last last, none inv.1]
    omega

/-- Two tables may not both get a copy of the key that a call writes. -/
def KeepsPlace (s : Storage) : StorageCall → Prop
  | .put hkey value _ => s.InPlace (·.put hkey value) hkey
  | .putRaw hkey raw _ => s.InPlace (·.putRaw hkey raw) hkey
  | _ => True

theorem perform_copies {call : StorageCall} {answer : StorageAnswer} (meets : s.Meets call)
    (keeps : s.KeepsPlace call) (run : s.perform call = .ok (answer, s')) (once : ∀ hkey, s.copies hkey ≤ 1)
    (hkey : UInt64) : s'.copies hkey ≤ 1 := by
  rcases perform_cases run with ⟨key, value, mmaps, err, rfl, done⟩ | ⟨key, raw, mmaps, err, rfl, done⟩ |
    ⟨key, mmapOk, err, rfl, done⟩ | ⟨order, mmapOk, finished, rfl, done⟩ | ⟨rfl, rfl⟩
  · by_cases same : hkey = key
    · subst same
      exact retry_copies_self done keeps
    · rw [retry_copies_other (fun _ _ stored _ => Table.mem_put stored) done same]
      exact once hkey
  · by_cases same : hkey = key
    · subst same
      exact retry_copies_self done keeps
    · rw [retry_copies_other (fun _ _ stored _ => Table.mem_putRaw stored) done same]
      exact once hkey
  · exact (delete_copies done hkey).trans (once hkey)
  · exact (chunkedMergeTables_copies meets done hkey).trans (once hkey)
  · exact once hkey

theorem perform_open {call : StorageCall} {answer : StorageAnswer} (run : s.perform call = .ok (answer, s'))
    (nonempty : s.tables ≠ []) : s'.closed = s.closed ∧ s'.tables ≠ [] := by
  rcases perform_cases run with ⟨key, value, mmaps, err, rfl, done⟩ | ⟨key, raw, mmaps, err, rfl, done⟩ |
    ⟨key, mmapOk, err, rfl, done⟩ | ⟨order, mmapOk, finished, rfl, done⟩ | ⟨rfl, rfl⟩
  · exact put_open done
  · exact retry_open done
  · exact delete_open done
  · exact chunkedMergeTables_open done
  · exact ⟨rfl, nonempty⟩

section Visits

variable {visits : List (List (UInt64 × VData))}

theorem Visits.count (visited : s.Visits visits) (hkey : UInt64) :
    (visits.flatten.map Prod.fst).count hkey = s.copies hkey := by
  have each {tables : List Table} {visits : List (List (UInt64 × VData))}
      (visited : List.Forall₂ Table.Visited tables visits) :
      (visits.flatten.map Prod.fst).count hkey = (tables.map (Table.copies hkey)).sum := by
    induction visited with
    | nil => rfl
    | @cons t visit tables visits head tail ih =>
      rw [List.flatten_cons, List.map_append, List.count_append, ih, List.map_cons, List.sum_cons, head.1.nodup.count]
      simp only [Table.copies, head.1.complete]
  rw [each visited, copies_eq_sum s.tables s.merging s.closed, List.map_reverse, List.sum_reverse]

theorem Visits.length (visited : s.Visits visits) : visits.flatten.length = s.len := by
  have card {t : Table} {order : List UInt64} (enumerates : t.Enumerates order) : order.length =
      t.hkeys.keys.card := by
    rw [← List.toFinset_card_of_nodup enumerates.nodup]
    congr 1
    ext hkey
    rw [List.mem_toFinset, enumerates.complete, Finmap.mem_keys]
  have each {tables : List Table} {visits : List (List (UInt64 × VData))}
      (visited : List.Forall₂ Table.Visited tables visits) :
      visits.flatten.length = (tables.map fun t => t.hkeys.keys.card).sum := by
    induction visited with
    | nil => rfl
    | @cons t visit tables visits head tail ih =>
      rw [List.flatten_cons, List.length_append, ih, List.map_cons, List.sum_cons, ← card head.1, List.length_map]
  rw [each visited, len, List.map_reverse, List.sum_reverse]

theorem Visits.mem (visited : s.Visits visits) (once : s.copies hkey ≤ 1) (v : VData) :
    (hkey, v) ∈ visits.flatten ↔ s.layers.lookup hkey = some v := by
  have each {tables : List Table} {visits : List (List (UInt64 × VData))}
      (visited : List.Forall₂ Table.Visited tables visits) :
      (hkey, v) ∈ visits.flatten ↔ ∃ t ∈ tables, t.get hkey = some v := by
    induction visited with
    | nil => simp
    | @cons t visit tables visits head tail ih =>
      rw [List.flatten_cons, List.mem_append, ih, List.exists_mem_cons_iff]
      refine or_congr ⟨head.2 (hkey, v), fun found => ?_⟩ Iff.rfl
      have here : hkey ∈ visit.map Prod.fst := (head.1.complete hkey).2 (Table.isSome_get.1 (by rw [found]; rfl))
      obtain ⟨⟨_, w⟩, mem, rfl⟩ := List.mem_map.1 here
      cases (head.2 _ mem).symm.trans found
      exact mem
  rw [copies_eq_holders] at once
  rw [each visited, LayeredMap.lookup_eq_some_iff once, layers]
  simp

/-- Every map can be gone through. -/
theorem exists_visits (s : Storage) : ∃ visits, s.Visits visits := by
  have each (tables : List Table) : ∃ visits : List (List (UInt64 × VData)),
      List.Forall₂ Table.Visited tables visits := by
    induction tables with
    | nil => exact ⟨[], .nil⟩
    | cons t tables ih =>
      obtain ⟨visits, later⟩ := ih
      have enumerates : t.Enumerates t.hkeys.keys.toList := ⟨t.hkeys.keys.nodup_toList, by simp [Finmap.mem_keys]⟩
      have value (hkey : UInt64) (mem : hkey ∈ t.hkeys.keys.toList) : ∃ v, t.get hkey = some v :=
        Option.isSome_iff_exists.1 (Table.isSome_get.2 ((enumerates.complete hkey).1 mem))
      choose v read using value
      refine ⟨(t.hkeys.keys.toList.attach.map fun key => (key.1, v key.1 key.2)) :: visits, .cons ⟨?_, ?_⟩ later⟩
      · simpa [Function.comp_def] using enumerates
      · rintro e mem
        obtain ⟨key, _, rfl⟩ := List.mem_map.1 mem
        exact read key.1 key.2
  exact each s.tables.reverse

end Visits

/-- `Check`, `Get`, `Len` and `Range` describe one finite map. -/
structure Agree (s : Storage) : Prop where
  answers : ∀ hkey, ∃ found, s.check hkey = .ok found
  get : ∀ hkey, s.check hkey = .ok true ↔ ∃ v, s.get hkey = .ok (.ok v)
  len : s.len = {hkey | s.check hkey = .ok true}.ncard
  visited : ∃ visits, s.Visits visits
  once : ∀ visits, s.Visits visits → (visits.flatten.map Prod.fst).Nodup
  range : ∀ visits, s.Visits visits → ∀ hkey v, (hkey, v) ∈ visits.flatten ↔ s.get hkey = .ok (.ok v)

theorem get_eq_some_iff (nonempty : s.tables ≠ []) {v : VData} :
    s.get hkey = .ok (.ok v) ↔ s.layers.lookup hkey = some v := by
  rw [get_eq nonempty]
  cases s.layers.lookup hkey <;> simp [answer]

/-- The observers agree as long as no key has two copies, and only then. -/
theorem agree_iff (nonempty : s.tables ≠ []) : s.Agree ↔ ∀ hkey, s.copies hkey ≤ 1 := by
  constructor
  · intro agree hkey
    obtain ⟨visits, visited⟩ := agree.visited
    rw [← visited.count hkey]
    exact List.nodup_iff_count_le_one.1 (agree.once visits visited) hkey
  · intro once
    have nodup {visits : List (List (UInt64 × VData))} (visited : s.Visits visits) :
        (visits.flatten.map Prod.fst).Nodup :=
      List.nodup_iff_count_le_one.2 fun hkey => (visited.count hkey).trans_le (once hkey)
    have found (hkey : UInt64) : s.check hkey = .ok true ↔ ∃ v, s.get hkey = .ok (.ok v) := by
      simp only [check_eq nonempty, get_eq_some_iff nonempty, Except.ok.injEq, Option.isSome_iff_exists]
    have range {visits : List (List (UInt64 × VData))} (visited : s.Visits visits) (hkey : UInt64) (v : VData) :
        (hkey, v) ∈ visits.flatten ↔ s.get hkey = .ok (.ok v) := by
      rw [visited.mem (once hkey), get_eq_some_iff nonempty]
    refine ⟨fun hkey => ⟨_, check_eq nonempty hkey⟩, found, ?_, s.exists_visits, fun _ => nodup, fun _ => range⟩
    obtain ⟨visits, visited⟩ := s.exists_visits
    have keys : {hkey | s.check hkey = .ok true} = ((visits.flatten.map Prod.fst).toFinset : Set UInt64) := by
      ext hkey
      rw [Set.mem_ofPred_eq, found, Finset.mem_coe, List.mem_toFinset, List.mem_map]
      constructor
      · rintro ⟨v, read⟩
        exact ⟨(hkey, v), (range visited hkey v).2 read, rfl⟩
      · rintro ⟨⟨_, v⟩, mem, rfl⟩
        exact ⟨v, (range visited _ v).1 mem⟩
    rw [keys, Set.ncard_coe_finset, List.toFinset_card_of_nodup (nodup visited), List.length_map, visited.length]

theorem calls_nonempty {allow : Storage → StorageCall → Prop} {history : List StorageCall}
    (run : calls.Run allow history s) : s.tables ≠ [] := by
  refine run.invariant (fun s => s.tables ≠ []) ?_ ?_
  · rintro s ⟨mmapOk, size, made⟩
    exact (new_open made).2
  · rintro s call s' nonempty _ ⟨_, answer, done⟩
    exact (perform_open done nonempty).2

/-- As long as no write of a key leaves an older copy of it behind in another table, the observers
agree after every sequence of calls. -/
theorem observers_agree {history : List StorageCall} (run : calls.Run KeepsPlace history s) : s.Agree := by
  refine (agree_iff (calls_nonempty run)).2 ?_
  refine run.invariant (fun s => ∀ hkey, s.copies hkey ≤ 1) ?_ ?_
  · rintro s ⟨mmapOk, size, made⟩ hkey
    have none := (new_spec made).2
    rw [copies_eq_holders, (LayeredMap.lookup_eq_none_iff _ hkey).1 (congrFun none hkey)]
    exact Nat.zero_le 1
  · rintro s call s' once keeps ⟨meets, answer, done⟩
    exact perform_copies meets keeps done once

/-- A key that is put twice while its table has room. -/
theorem overwrite_observers_agree :
    let v : VData := ⟨[107], 5, [1, 2]⟩
    ∃ s, calls.Run KeepsPlace [.put 7 v [], .put 7 v []] s ∧ s.Agree := by
  intro v
  obtain ⟨t, table, created, offset, size⟩ := new_empty
  have length : v.encode.length = 16 := by decide
  obtain ⟨t1, put1, offset1, size1⟩ := Table.put_fits 7 (show v.key.length < maxKeyLen by decide)
    (show v.encode.length + t.offset < t.allocated by omega)
  obtain ⟨t2, put2, offset2, size2⟩ := Table.put_fits 7 (show v.key.length < maxKeyLen by decide)
    (show v.encode.length + t1.offset < t1.allocated by omega)
  have keeps {t stored : Table} (fits : t.put 7 v = .ok stored) : KeepsPlace ⟨[t], false, false⟩ (.put 7 v []) := by
    refine ⟨by simp, fun u last _ full => ?_⟩
    cases last
    rw [show t.put 7 v = .error .notEnoughSpace from full] at fits
    cases fits
  have step {t stored : Table} (fits : t.put 7 v = .ok stored) :
      calls.step ⟨[t], false, false⟩ (.put 7 v []) ⟨[stored], false, false⟩ :=
    ⟨trivial, .err none, by rw [perform, put_of_fits rfl fits]; rfl⟩
  have run : calls.Run KeepsPlace ([] ++ [.put 7 v []] ++ [.put 7 v []]) ⟨[t2], false, false⟩ :=
    .next (.next (.start ⟨true, 0, created⟩) (keeps put1) (step put1)) (keeps put2) (step put2)
  exact ⟨_, run, observers_agree run⟩

/-- A key that is put again after its table has become full: the older copy stays, `Len` counts it
and `Range` visits it. -/
theorem overwritten_key_visited_twice :
    let ops : List StorageOp := [.put 1 ⟨[97], 0, [1]⟩ [], .put 2 ⟨[98], 0, List.replicate 600000 0⟩ [],
      .put 3 ⟨[99], 0, List.replicate 600000 0⟩ [true], .put 1 ⟨[97], 0, [2]⟩ []]
    ∃ s, calls.AnyRun (ops.map StorageOp.call) s ∧ ¬s.Agree := by
  intro ops
  obtain ⟨s, run, valid, copies⟩ := overwrite_after_switch (a := ⟨[97], 0, [1]⟩) (d := ⟨[97], 0, [2]⟩)
    (by decide) (by decide) (by decide) (by decide)
  refine ⟨s, calls_of_run run, fun agree => ?_⟩
  have once := (agree_iff valid.nonempty).1 agree 1
  omega

end Storage

end Olric
