import Olric.Storage.StoreSpec
import Olric.Storage.Transport

namespace Olric.Storage

variable {s s' : Storage} {tr : Transport} {hkey : UInt64} {entry : VData}

/-- What is read from a valid storage has been written within the limits of the layout. -/
theorem Valid.fits (valid : s.Valid) (found : s.layers.lookup hkey = some entry) : entry.Fits := by
  rw [layers_lookup] at found
  obtain ⟨t, mem, read⟩ := List.exists_of_findSome?_eq_some found
  obtain ⟨_, _, at'⟩ := (valid.tables t (List.mem_reverse.1 mem)).entry_of_get read
  exact at'.fits

theorem exportTable_eq (exported : s.exportTable = .ok tr) : ∃ t, s.tables = [t] ∧
    tr = { hkeys := t.hkeys, memory := t.memory.slice 0 t.offset ++ [0], offset := t.offset,
           allocated := t.allocated, inuse := t.inuse, garbage := t.garbage } := by
  unfold exportTable at exported
  split at exported
  · rename_i t single
    exact ⟨t, single, (Except.ok.inj exported).symm⟩
  · cases exported

/-- The copy of a table has its entries where the table has them. -/
theorem importTable_spec (valid : s.Valid) (exported : s.exportTable = .ok tr) {mmapOk : Bool}
    (made : importTable mmapOk tr = .ok s') :
    s'.Valid ∧ s'.layers.lookup = s.layers.lookup ∧ ∃ t, s'.tables = [t] := by
  obtain ⟨t, single, rfl⟩ := exportTable_eq exported
  have tableValid : t.Valid := valid.tables t (by simp [single])
  unfold importTable at made
  cases fresh : newTable mmapOk t.allocated with
  | error e => simp [fresh, Except.map] at made
  | ok nt =>
    simp only [fresh, Except.map, Except.ok.injEq] at made
    have large : t.allocated ≤ nt.allocated ∧ nt.memory.size = nt.allocated := by
      cases mmapOk with
      | false => cases fresh
      | true =>
        cases Except.ok.inj fresh
        refine ⟨?_, rfl⟩
        dsimp only
        split <;> omega
    have room : t.offset < nt.allocated := lt_of_lt_of_le tableValid.room large.1
    have copied {start n : Nat} (below : start + n ≤ t.offset) :
        (nt.memory.copy 0 (t.memory.slice 0 t.offset ++ [0])).slice start n = t.memory.slice start n := by
      apply List.ext_getElem
      · simp
      · intro i bound _
        rw [ByteMemory.slice_length] at bound
        have inside : start + i < (t.memory.slice 0 t.offset ++ [0]).length := by simp; omega
        have here : (nt.memory.copy 0 (t.memory.slice 0 t.offset ++ [0])).byte (0 + (start + i)) = _ :=
          nt.memory.copy_byte_inside (by simp; omega) inside
        rw [Nat.zero_add] at here
        rw [ByteMemory.slice_getElem, ByteMemory.slice_getElem, here,
          List.getElem_append_left (by rw [ByteMemory.slice_length]; omega), ByteMemory.slice_getElem, Nat.zero_add]
    subst made
    have entries {start : Nat} {v : VData} (entry : t.EntryAt start v) :
        Table.EntryAt { nt with hkeys := t.hkeys, offset := t.offset, inuse := t.inuse, garbage := t.garbage,
                                memory := nt.memory.copy 0 (t.memory.slice 0 t.offset ++ [0]) } start v :=
      ⟨entry.fits, entry.below, (copied entry.below).trans entry.bytes⟩
    refine ⟨⟨by simp, ?_⟩, ?_, _, rfl⟩
    · intro u member
      cases List.mem_singleton.1 member
      refine ⟨large.2, room, fun {hkey start} found => ?_⟩
      obtain ⟨v, entry⟩ := tableValid.entries found
      exact ⟨v, entries entry⟩
    · funext hkey
      simp only [layers, single, List.map_singleton, LayeredMap.lookup_singleton]
      cases found : t.hkeys.lookup hkey with
      | none => simp [Table.get, found]
      | some start =>
        obtain ⟨v, entry⟩ := tableValid.entries found
        rw [Table.get_of_entry found entry]
        exact Table.get_of_entry found (entries entry)

/-- A storage with one table is visited in one go, every entry once. -/
theorem Visits.single {visits : List (List (UInt64 × VData))} {t : Table} (single : s.tables = [t])
    (visited : s.Visits visits) : ∃ entries, visits = [entries] ∧ (entries.map Prod.fst).Nodup ∧
      ∀ hkey entry, (hkey, entry) ∈ entries ↔ s.layers.lookup hkey = some entry := by
  unfold Visits at visited
  rw [single, List.reverse_singleton] at visited
  obtain ⟨entries, _, ⟨order, gets⟩, rest, rfl⟩ := List.forall₂_cons_left_iff.1 visited
  cases List.forall₂_nil_left_iff.1 rest
  refine ⟨entries, rfl, order.nodup, fun hkey entry => ?_⟩
  have content : s.layers.lookup hkey = t.get hkey := by simp [layers, single]
  rw [content]
  constructor
  · exact fun listed => gets _ listed
  · intro found
    have known : hkey ∈ entries.map Prod.fst := (order.complete hkey).2 (Table.isSome_get.1 (by rw [found]; rfl))
    obtain ⟨⟨hkey', entry'⟩, listed, rfl⟩ := List.mem_map.1 known
    have same : t.get hkey' = some entry' := gets _ listed
    rw [found] at same
    cases same
    exact listed

end Olric.Storage
