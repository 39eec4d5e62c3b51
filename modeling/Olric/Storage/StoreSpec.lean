import Olric.Lib.LayeredMap
import Olric.Storage.Store
import Olric.Storage.TableSpec

namespace Olric.Storage

/-- The contents of the tables, one partial map a table, oldest first. -/
def layers (s : Storage) : LayeredMap UInt64 VData := s.tables.map Table.get

structure Valid (s : Storage) : Prop where
  nonempty : s.tables ≠ []
  tables : ∀ t ∈ s.tables, t.Valid

theorem new_eq {mmapOk : Bool} {size : Int} {s : Storage} (made : new mmapOk size = .ok s) :
    ∃ t, newTable mmapOk size = .ok t ∧ s = ⟨[t], false, false⟩ := by
  unfold new at made
  cases table : newTable mmapOk size with
  | error e =>
    rw [table] at made
    cases made
  | ok t =>
    rw [table] at made
    exact ⟨t, rfl, (Except.ok.inj made).symm⟩

/-- What `Get` answers for a key with the given visible value. -/
def answer : Option VData → Except StorageError VData
  | some v => .ok v
  | none => .error .keyNotFound

theorem layers_lookup (s : Storage) (hkey : UInt64) :
    s.layers.lookup hkey = s.tables.reverse.findSome? (·.get hkey) := by
  rw [LayeredMap.lookup, layers, ← List.map_reverse, List.findSome?_map, Function.comp_def]

theorem get_eq {s : Storage} (nonempty : s.tables ≠ []) (hkey : UInt64) :
    s.get hkey = .ok (answer (s.layers.lookup hkey)) := by
  unfold get
  rw [layers_lookup]
  cases s.tables.reverse.findSome? (·.get hkey) <;> simp [nonempty, answer]

theorem getRaw_eq {s : Storage} (valid : s.Valid) (hkey : UInt64) :
    s.getRaw hkey = .ok ((answer (s.layers.lookup hkey)).map fun v => v.encode ++ [0]) := by
  have raw (tables : List Table) (all : ∀ t ∈ tables, t.Valid) : tables.findSome? (·.getRaw hkey) =
      (tables.findSome? (·.get hkey)).map fun v => v.encode ++ [0] := by
    induction tables with
    | nil => rfl
    | cons t tables ih =>
      rw [List.findSome?_cons, List.findSome?_cons, (all t List.mem_cons_self).getRaw_eq hkey]
      cases t.get hkey with
      | none => exact ih fun t mem => all t (List.mem_cons_of_mem _ mem)
      | some v => rfl
  unfold getRaw
  rw [raw _ fun t mem => valid.tables t (List.mem_reverse.1 mem), layers_lookup,
    if_neg (by simpa using valid.nonempty)]
  cases s.tables.reverse.findSome? (·.get hkey) <;> rfl

theorem check_eq {s : Storage} (nonempty : s.tables ≠ []) (hkey : UInt64) :
    s.check hkey = .ok (s.layers.lookup hkey).isSome := by
  have any : (s.tables.reverse.any fun t => hkey ∈ t.hkeys) = (s.tables.reverse.findSome? (·.get hkey)).isSome := by
    rw [Bool.eq_iff_iff, List.any_eq_true, List.findSome?_isSome_iff]
    simp [Table.isSome_get]
  unfold check
  rw [layers_lookup, if_neg (by simpa using nonempty), any]

theorem tables_eq_of_getLast? {s : Storage} {t : Table} (last : s.tables.getLast? = some t) :
    s.tables = s.tables.dropLast ++ [t] :=
  (List.dropLast_append_getLast? t last).symm

theorem Valid.last {s : Storage} (valid : s.Valid) {t : Table} (last : s.tables.getLast? = some t) : t.Valid :=
  valid.tables t (List.mem_of_getLast? last)

theorem Valid.push {s : Storage} (valid : s.Valid) {t : Table} (fresh : t.Valid) (merging : Bool) :
    ({ s with tables := s.tables ++ [t], merging := merging } : Storage).Valid where
  nonempty := by simp
  tables u member := by
    rcases List.mem_append.mp member with old | new
    · exact valid.tables u old
    · cases List.mem_singleton.mp new
      exact fresh

theorem Valid.replaceLast {s : Storage} (valid : s.Valid) {t stored : Table} (last : s.tables.getLast? = some t)
    {hkey : UInt64} {v : VData} (spec : stored.Valid ∧ stored.get = Function.update t.get hkey (some v)) :
    ({ s with tables := s.tables.dropLast ++ [stored] } : Storage).Valid ∧
      ({ s with tables := s.tables.dropLast ++ [stored] } : Storage).layers.lookup =
        Function.update s.layers.lookup hkey (some v) := by
  refine ⟨⟨by simp, ?_⟩, ?_⟩
  · intro u member
    rcases List.mem_append.mp member with old | new
    · exact valid.tables u (List.mem_of_mem_dropLast old)
    · cases List.mem_singleton.mp new
      exact spec.1
  · conv_rhs => rw [layers, tables_eq_of_getLast? last]
    simp only [layers, List.map_append, List.map_singleton, spec.2, LayeredMap.lookup_update_newest]

theorem layers_push_empty (s : Storage) {t : Table} (empty : t.get = fun _ => none) (merging : Bool) :
    ({ s with tables := s.tables ++ [t], merging := merging } : Storage).layers.lookup = s.layers.lookup := by
  simp only [layers, List.map_append, List.map_singleton, empty, LayeredMap.lookup_push_empty]

/-- A new table changes no visible value. -/
theorem Valid.push_new {s : Storage} (valid : s.Valid) {mmapOk : Bool} {size : Int} {nt : Table}
    (fresh : newTable mmapOk size = .ok nt) (merging : Bool) :
    ({ s with tables := s.tables ++ [nt], merging := merging } : Storage).Valid ∧
      ({ s with tables := s.tables ++ [nt], merging := merging } : Storage).layers.lookup = s.layers.lookup := by
  obtain ⟨newValid, empty⟩ := Table.newTable_spec fresh
  exact ⟨valid.push newValid merging, layers_push_empty s empty merging⟩

/-- What one round of the retry loop does: it writes to the last table, it fails, or it adds a table
and goes on. -/
theorem retry_cases {write : Table → Except StorageError Table} {mmaps : List Bool} {s s' : Storage}
    {err : Option StorageError} (run : retry write mmaps s = .ok (s', err)) :
    ∃ t, s.tables.getLast? = some t ∧
      ((∃ stored, write t = .ok stored ∧ s' = { s with tables := s.tables.dropLast ++ [stored] } ∧ err = none) ∨
        (∃ e, s' = s ∧ err = some e ∧ (e = .mmap ∨ write t = .error e ∧ e ≠ .notEnoughSpace)) ∨
        ∃ mmapOk rest nt, mmaps = mmapOk :: rest ∧ write t = .error .notEnoughSpace ∧
          newTable mmapOk (t.inuse * 2) = .ok nt ∧
          retry write rest { s with tables := s.tables ++ [nt], merging := true } = .ok (s', err)) := by
  unfold retry at run
  split at run
  · cases run
  · rename_i t last
    refine ⟨t, last, ?_⟩
    split at run
    · rename_i stored done
      cases run
      exact .inl ⟨stored, done, rfl, rfl⟩
    · rename_i full
      split at run
      · cases run
      · rename_i mmapOk rest
        split at run
        · rename_i e failed
          cases run
          refine .inr (.inl ⟨e, rfl, rfl, .inl ?_⟩)
          cases mmapOk with
          | false => exact (Except.error.inj failed).symm
          | true => cases failed
        · rename_i nt fresh
          exact .inr (.inr ⟨mmapOk, rest, nt, rfl, full, fresh, run⟩)
    · rename_i e other failed
      cases run
      exact .inr (.inl ⟨e, rfl, rfl, .inr ⟨failed, other⟩⟩)

/-- The rule of the retry loop: what every new table keeps holds when the loop writes, and when it fails. -/
theorem retry_rule {write : Table → Except StorageError Table} {P Q : Storage → Prop} {mmaps : List Bool}
    {s s' : Storage} {err : Option StorageError} (run : retry write mmaps s = .ok (s', err)) (start : P s)
    (push : ∀ {s t nt mmapOk}, P s → s.tables.getLast? = some t → write t = .error .notEnoughSpace →
      newTable mmapOk (t.inuse * 2) = .ok nt → P { s with tables := s.tables ++ [nt], merging := true })
    (stores : ∀ {s t stored}, P s → s.tables.getLast? = some t → write t = .ok stored → err = none →
      Q { s with tables := s.tables.dropLast ++ [stored] })
    (fails : ∀ {s e}, P s → s.tables ≠ [] → err = some e → Q s) : Q s' := by
  induction mmaps generalizing s with
  | nil =>
    obtain ⟨t, last, ⟨stored, done, rfl, none⟩ | ⟨e, rfl, some, _⟩ | ⟨_, _, _, wrong, _⟩⟩ := retry_cases run
    · exact stores start last done none
    · exact fails start (by rintro empty; simp [empty] at last) some
    · cases wrong
  | cons mmapOk mmaps ih =>
    obtain ⟨t, last, ⟨stored, done, rfl, none⟩ | ⟨e, rfl, some, _⟩ | ⟨_, _, nt, same, full, fresh, rest⟩⟩ :=
      retry_cases run
    · exact stores start last done none
    · exact fails start (by rintro empty; simp [empty] at last) some
    · cases same
      exact ih rest (push start last full fresh)

/-- The retry loop adds empty tables, which change no visible value, and then does its write
once, on the last of them. -/
theorem retry_spec {write : Table → Except StorageError Table} {hkey : UInt64} {v : VData}
    (writes : ∀ t stored, t.Valid → write t = .ok stored →
      stored.Valid ∧ stored.get = Function.update t.get hkey (some v))
    {mmaps : List Bool} {s s' : Storage} (valid : s.Valid) (run : retry write mmaps s = .ok (s', none)) :
    s'.Valid ∧ s'.layers.lookup = Function.update s.layers.lookup hkey (some v) := by
  refine retry_rule (P := fun u => u.Valid ∧ u.layers.lookup = s.layers.lookup)
    (Q := fun u => u.Valid ∧ u.layers.lookup = Function.update s.layers.lookup hkey (some v)) run ⟨valid,
      rfl⟩ ?_ ?_ nofun
  · rintro u t nt mmapOk ⟨valid, same⟩ _ _ fresh
    exact (valid.push_new fresh true).imp_right (·.trans same)
  · rintro u t stored ⟨valid, same⟩ last done _
    have spec := valid.replaceLast last (writes t stored (valid.last last) done)
    exact ⟨spec.1, spec.2.trans (by rw [same])⟩

/-- A retry loop that fails has at most added empty tables. -/
theorem retry_failed {write : Table → Except StorageError Table} {mmaps : List Bool} {s s' : Storage}
    {e : StorageError} (valid : s.Valid) (run : retry write mmaps s = .ok (s', some e)) :
    s'.Valid ∧ s'.layers.lookup = s.layers.lookup := by
  refine retry_rule (P := fun u => u.Valid ∧ u.layers.lookup = s.layers.lookup)
    (Q := fun u => u.Valid ∧ u.layers.lookup = s.layers.lookup) run ⟨valid, rfl⟩ ?_ nofun fun inv _ _ => inv
  rintro u t nt mmapOk ⟨valid, same⟩ _ _ fresh
  exact (valid.push_new fresh true).imp_right (·.trans same)

theorem put_of_fits {s : Storage} {t stored : Table} {mmaps : List Bool} {hkey : UInt64} {v : VData}
    (last : s.tables.getLast? = some t) (fits : t.put hkey v = .ok stored) :
    s.put mmaps hkey v = .ok ({ s with tables := s.tables.dropLast ++ [stored] }, none) := by
  unfold put retry
  simp [last, fits]

theorem put_of_full {s : Storage} {t nt : Table} {mmaps : List Bool} {hkey : UInt64} {v : VData}
    (last : s.tables.getLast? = some t) (full : t.put hkey v = .error .notEnoughSpace)
    (fresh : newTable true (t.inuse * 2) = .ok nt) :
    s.put (true :: mmaps) hkey v =
      ({ s with tables := s.tables ++ [nt], merging := true } : Storage).put mmaps hkey v := by
  conv_lhs => unfold put retry
  simp [last, full, fresh, put]

theorem put_spec {s s' : Storage} (valid : s.Valid) {mmaps : List Bool} {hkey : UInt64} {v : VData}
    (short : v.value.length < 2 ^ 32) (run : s.put mmaps hkey v = .ok (s', none)) :
    s'.Valid ∧ s'.layers.lookup = Function.update s.layers.lookup hkey (some v) :=
  retry_spec (fun _ _ tableValid done => (Table.put_spec tableValid short done).2) valid run

theorem put_failed {s s' : Storage} (valid : s.Valid) {mmaps : List Bool} {hkey : UInt64} {v : VData}
    {e : StorageError}
    (run : s.put mmaps hkey v = .ok (s', some e)) : s'.Valid ∧ s'.layers.lookup = s.layers.lookup :=
  retry_failed valid run

/-- The errors of `Put` are the mmap call's and a key that is too large. -/
theorem put_error {s s' : Storage} {mmaps : List Bool} {hkey : UInt64} {v : VData} {e : StorageError}
    (run : s.put mmaps hkey v = .ok (s', some e)) : e = .mmap ∨ maxKeyLen ≤ v.key.length := by
  have write {t : Table} {e : StorageError} (failed : t.put hkey v = .error e) (other : e ≠ .notEnoughSpace) :
      maxKeyLen ≤ v.key.length := by
    by_contra small
    unfold Table.put at failed
    rw [if_neg small] at failed
    dsimp only at failed
    split at failed
    · exact other (Except.error.inj failed).symm
    · cases failed
  induction mmaps generalizing s with
  | nil =>
    obtain ⟨t, _, ⟨_, _, _, none⟩ | ⟨e', rfl, some, cause⟩ | ⟨_, _, _, wrong, _⟩⟩ := retry_cases run
    · cases none
    · cases some
      exact cause.imp id fun failed => write failed.1 failed.2
    · cases wrong
  | cons mmapOk mmaps ih =>
    obtain ⟨t, _, ⟨_, _, _, none⟩ | ⟨e', rfl, some, cause⟩ | ⟨_, _, _, same, _, _, rest⟩⟩ := retry_cases run
    · cases none
    · cases some
      exact cause.imp id fun failed => write failed.1 failed.2
    · cases same
      exact ih rest

theorem put_small {s s' : Storage} {mmaps : List Bool} {hkey : UInt64} {v : VData}
    (run : s.put mmaps hkey v = .ok (s', none)) : v.key.length < maxKeyLen := by
  by_contra large
  have fails (t : Table) : t.put hkey v = .error .keyTooLarge := if_pos (Nat.not_lt.1 large)
  obtain ⟨t, _, ⟨stored, done, _⟩ | ⟨_, _, wrong, _⟩ | ⟨_, _, _, _, full, _⟩⟩ := retry_cases run
  · rw [fails] at done
    cases done
  · cases wrong
  · rw [fails] at full
    cases full

/-- An entry that fits into a new table can be stored, with at most one mmap call. -/
theorem put_returns {s : Storage} (nonempty : s.tables ≠ []) (hkey : UInt64) {v : VData}
    (smallKey : v.key.length < maxKeyLen) (small : v.encode.length < 2 ^ 20) :
    ∃ s', s.put [true] hkey v = .ok (s', none) := by
  obtain ⟨t, last⟩ := Option.isSome_iff_exists.1 (List.getLast?_isSome.2 nonempty)
  by_cases room : v.encode.length + t.offset < t.allocated
  · obtain ⟨stored, fits, _⟩ := Table.put_fits hkey smallKey room
    exact ⟨_, put_of_fits last fits⟩
  · obtain ⟨nt, fresh, offset, allocated⟩ := Table.newTable_returns (t.inuse * 2)
    obtain ⟨stored, fits, _⟩ :=
      Table.put_fits hkey smallKey (show v.encode.length + nt.offset < nt.allocated by omega)
    rw [put_of_full last (Table.put_full hkey smallKey (by omega)) fresh]
    exact ⟨_, put_of_fits (t := nt) (by simp) fits⟩

theorem putRaw_spec {s s' : Storage} (valid : s.Valid) {mmaps : List Bool} {hkey : UInt64} {v : VData}
    {rest : Bytes} (fits : v.Fits) (run : s.putRaw mmaps hkey (v.encode ++ rest) = .ok (s', none)) :
    s'.Valid ∧ s'.layers.lookup = Function.update s.layers.lookup hkey (some v) :=
  retry_spec (fun _ _ tableValid done => Table.putRaw_spec tableValid fits done) valid run

end Olric.Storage
