import Mathlib.Logic.Function.Basic
import Olric.Storage.TableEntry

namespace Olric.Table

theorem append_append (t : Table) (first second : Bytes) :
    (t.append first).append second = t.append (first ++ second) := by
  simp only [append, ByteMemory.copy_copy_adjacent, List.length_append, Nat.add_assoc]

theorem EntryAt.append {t : Table} {start : Nat} {v : VData} (entry : t.EntryAt start v) (bytes : Bytes) :
    (t.append bytes).EntryAt start v where
  fits := entry.fits
  below := entry.below.trans (Nat.le_add_right _ _)
  bytes := (t.memory.slice_copy_before bytes entry.below).trans entry.bytes

theorem entryAt_append_self (t : Table) {v : VData} (rest : Bytes) (fits : v.Fits)
    (room : t.offset + (v.encode ++ rest).length ≤ t.memory.size) :
    (t.append (v.encode ++ rest)).EntryAt t.offset v where
  fits := fits
  below := by simp only [Table.append, List.length_append]; omega
  bytes := by
    have whole := t.memory.slice_copy_self room
    rw [List.length_append, ByteMemory.slice_append] at whole
    exact (List.append_inj whole (by simp)).1

/-- Storing the entry of `v` at the write offset, with any bytes after it, makes `v`
the value of the key and touches no other key. -/
theorem Valid.store {t : Table} (valid : t.Valid) (hkey : UInt64) {v : VData} (rest : Bytes) (inuse : Int)
    (fits : v.Fits) (room : (v.encode ++ rest).length + t.offset < t.allocated) :
    let stored := { t with hkeys := t.hkeys.insert hkey t.offset, inuse := inuse }.append (v.encode ++ rest)
    stored.Valid ∧ stored.get = Function.update t.get hkey (some v) := by
  intro stored
  have fresh : stored.EntryAt t.offset v := by
    have self := entryAt_append_self t rest fits (by rw [valid.size]; omega)
    exact ⟨self.fits, self.below, self.bytes⟩
  have kept {start w} (entry : t.EntryAt start w) : stored.EntryAt start w := by
    have same := entry.append (v.encode ++ rest)
    exact ⟨same.fits, same.below, same.bytes⟩
  have atKey : stored.hkeys.lookup hkey = some t.offset := Finmap.lookup_insert _
  have atOther {other} (ne : other ≠ hkey) : stored.hkeys.lookup other = t.hkeys.lookup other :=
    Finmap.lookup_insert_of_ne _ ne
  refine ⟨⟨valid.size, ?_, ?_⟩, ?_⟩
  · change t.offset + (v.encode ++ rest).length < t.allocated
    omega
  · intro other start found
    by_cases same : other = hkey
    · subst other
      cases Option.some.inj (atKey.symm.trans found)
      exact ⟨v, fresh⟩
    · obtain ⟨w, entry⟩ := valid.entries ((atOther same).symm.trans found)
      exact ⟨w, kept entry⟩
  · funext other
    by_cases same : other = hkey
    · subst other
      rw [Function.update_self, get_of_entry atKey fresh]
    · rw [Function.update_of_ne same]
      cases found : t.hkeys.lookup other with
      | none => simp [get, atOther same, found]
      | some start =>
        obtain ⟨w, entry⟩ := valid.entries found
        rw [get_of_entry ((atOther same).trans found) (kept entry), get_of_entry found entry]

theorem newTable_spec {mmapOk : Bool} {size : Int} {t : Table} (run : newTable mmapOk size = .ok t) :
    t.Valid ∧ t.get = fun _ => none := by
  cases mmapOk with
  | false => cases run
  | true =>
    cases Except.ok.inj run
    refine ⟨⟨rfl, ?_, fun found => ?_⟩, rfl⟩
    · have positive : minimumSize = 1048576 := rfl
      dsimp only
      split <;> omega
    · simp at found

theorem newTable_returns (size : Int) :
    ∃ nt, newTable true size = .ok nt ∧ nt.offset = 0 ∧ 1048576 ≤ nt.allocated := by
  refine ⟨_, rfl, rfl, ?_⟩
  have positive : minimumSize = 1048576 := rfl
  dsimp only
  split <;> omega

/-- A raw write that succeeds has found room. -/
theorem putRaw_ok {t stored : Table} {hkey : UInt64} {raw : Bytes} (run : t.putRaw hkey raw = .ok stored) :
    raw.length + t.offset < t.allocated ∧
      stored = { t with hkeys := t.hkeys.insert hkey t.offset, inuse := t.inuse + raw.length }.append raw := by
  unfold putRaw at run
  dsimp only at run
  split at run
  · cases run
  · next room => exact ⟨Nat.not_le.1 room, (Except.ok.inj run).symm⟩

theorem putRaw_spec {t stored : Table} (valid : t.Valid) {hkey : UInt64} {v : VData} {rest : Bytes}
    (fits : v.Fits) (run : t.putRaw hkey (v.encode ++ rest) = .ok stored) :
    stored.Valid ∧ stored.get = Function.update t.get hkey (some v) := by
  obtain ⟨room, rfl⟩ := putRaw_ok run
  exact valid.store hkey rest _ fits room

theorem delete_fst (t : Table) (hkey : UInt64) : (t.delete hkey).1 = (t.get hkey).isNone := by
  unfold delete get
  split <;> simp_all

theorem delete_of_none {t : Table} {hkey : UInt64} (absent : t.get hkey = none) : (t.delete hkey).2 = t := by
  simp [delete, Finmap.lookup_eq_none.mpr (get_eq_none_iff.mp absent)]

theorem delete_offset (t : Table) (hkey : UInt64) : (t.delete hkey).2.offset = t.offset := by
  unfold delete
  split <;> rfl

theorem delete_allocated (t : Table) (hkey : UInt64) : (t.delete hkey).2.allocated = t.allocated := by
  unfold delete
  split <;> rfl

theorem delete_memory (t : Table) (hkey : UInt64) : (t.delete hkey).2.memory = t.memory := by
  unfold delete
  split <;> rfl

theorem delete_lookup (t : Table) (hkey other : UInt64) :
    (t.delete hkey).2.hkeys.lookup other = if other = hkey then none else t.hkeys.lookup other := by
  unfold delete
  split
  · rename_i absent
    split
    · subst other; exact absent
    · rfl
  · split
    · subst other; exact Finmap.lookup_erase _ _
    · rename_i ne; exact Finmap.lookup_erase_ne ne

theorem Valid.delete {t : Table} (valid : t.Valid) (hkey : UInt64) : (t.delete hkey).2.Valid where
  size := by rw [delete_memory, delete_allocated, valid.size]
  room := by rw [delete_offset, delete_allocated]; exact valid.room
  entries := by
    intro other start found
    rw [delete_lookup] at found
    split at found
    · cases found
    · obtain ⟨v, entry⟩ := valid.entries found
      exact ⟨v, entry.fits, by rw [delete_offset]; exact entry.below, by rw [delete_memory]; exact entry.bytes⟩

/-- `delete` only drops the key from the index. -/
theorem delete_get (t : Table) (hkey : UInt64) :
    (t.delete hkey).2.get = Function.update t.get hkey none := by
  funext other
  by_cases same : other = hkey
  · subst other
    simp [get, delete_lookup]
  · simp [get, delete_lookup, delete_memory, same]

theorem put_eq {t : Table} {hkey : UInt64} {v : VData} (small : v.key.length < maxKeyLen)
    (room : v.encode.length + t.offset < t.allocated) :
    t.put hkey v = .ok ({ (t.delete hkey).2 with
      hkeys := (t.delete hkey).2.hkeys.insert hkey (t.delete hkey).2.offset,
      inuse := (t.delete hkey).2.inuse + (v.key.length + v.value.length + 13 : Nat) }.append v.encode) := by
  have base : (if hkey ∈ t.hkeys then (t.delete hkey).2 else t) = (t.delete hkey).2 := by
    split
    · rfl
    · rename_i absent; rw [delete_of_none (get_eq_none_iff.mpr absent)]
  rw [v.encode_length] at room
  simp only [put, Nat.not_le.mpr small, Nat.not_le.mpr room, if_false, base, append_append, VData.encode,
    List.append_assoc]

/-- A write that succeeds has found a small key and room. -/
theorem put_ok {t stored : Table} {hkey : UInt64} {v : VData} (run : t.put hkey v = .ok stored) :
    v.key.length < maxKeyLen ∧ v.encode.length + t.offset < t.allocated := by
  have small : v.key.length < maxKeyLen := by
    by_contra large
    simp [put, Nat.not_lt.mp large] at run
  refine ⟨small, ?_⟩
  by_contra full
  rw [v.encode_length] at full
  simp [put, Nat.not_le.mpr small, Nat.not_lt.mp full] at run

/-- Any value can be put; what can be read again is what its length bytes describe. -/
theorem put_cut {t stored : Table} (valid : t.Valid) {hkey : UInt64} {v : VData} (run : t.put hkey v = .ok stored) :
    stored.Valid ∧ stored.get = Function.update t.get hkey (some v.cut) := by
  obtain ⟨small, room⟩ := put_ok run
  rw [put_eq small room] at run
  cases Except.ok.inj run
  have spec := (valid.delete hkey).store hkey (v.value.drop (v.value.length % 2 ^ 32))
    ((t.delete hkey).2.inuse + (v.key.length + v.value.length + 13 : Nat)) (VData.cut_fits small)
    (by rw [delete_offset, delete_allocated, ← v.encode_cut]; exact room)
  rw [← v.encode_cut] at spec
  refine ⟨spec.1, ?_⟩
  rw [spec.2, delete_get, Function.update_idem]

theorem put_spec {t stored : Table} (valid : t.Valid) {hkey : UInt64} {v : VData}
    (short : v.value.length < 2 ^ 32) (run : t.put hkey v = .ok stored) :
    v.Fits ∧ stored.Valid ∧ stored.get = Function.update t.get hkey (some v) := by
  have spec := put_cut valid run
  rw [VData.cut_of_short short] at spec
  exact ⟨⟨(put_ok run).1, short⟩, spec⟩

theorem put_fits {t : Table} (hkey : UInt64) {v : VData} (small : v.key.length < maxKeyLen)
    (room : v.encode.length + t.offset < t.allocated) :
    ∃ stored, t.put hkey v = .ok stored ∧ stored.offset = t.offset + v.encode.length ∧
      stored.allocated = t.allocated := by
  refine ⟨_, put_eq small room, ?_, ?_⟩
  · change (t.delete hkey).2.offset + v.encode.length = _
    rw [delete_offset]
  · exact delete_allocated t hkey

theorem put_full {t : Table} (hkey : UInt64) {v : VData} (small : v.key.length < maxKeyLen)
    (full : t.allocated ≤ v.encode.length + t.offset) : t.put hkey v = .error .notEnoughSpace := by
  rw [v.encode_length] at full
  simp [put, Nat.not_le.mpr small, full]

end Olric.Table
