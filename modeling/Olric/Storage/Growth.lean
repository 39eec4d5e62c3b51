import Olric.Storage.StoreSpec

namespace Olric

/-- A write of so many bytes: it needs room after the write offset, and then it succeeds and leaves
the key in the table. -/
structure Table.Writes (write : Table → Except StorageError Table) (hkey : UInt64) (size : Nat) : Prop where
  full : ∀ t : Table, t.allocated ≤ size + t.offset → write t = .error .notEnoughSpace
  fits : ∀ t : Table, size + t.offset < t.allocated → ∃ stored, write t = .ok stored ∧ hkey ∈ stored.hkeys

theorem Table.put_writes (hkey : UInt64) {v : VData} (small : v.key.length < maxKeyLen) :
    Table.Writes (·.put hkey v) hkey v.encode.length where
  full _ noRoom := Table.put_full hkey small noRoom
  fits t room := by
    refine ⟨_, Table.put_eq small room, ?_⟩
    exact Finmap.mem_insert.2 (.inl rfl)

theorem Table.putRaw_writes (hkey : UInt64) (raw : Bytes) : Table.Writes (·.putRaw hkey raw) hkey raw.length where
  full _ noRoom := if_pos noRoom
  fits t room := by
    refine ⟨_, if_neg (Nat.not_le.2 room), ?_⟩
    exact Finmap.mem_insert.2 (.inl rfl)

theorem Table.put_inuse {t stored : Table} {hkey : UInt64} {v : VData} (absent : t.get hkey = none)
    (run : t.put hkey v = .ok stored) : stored.inuse = t.inuse + v.encode.length := by
  obtain ⟨small, room⟩ := put_ok run
  rw [put_eq small room] at run
  cases run
  change (t.delete hkey).2.inuse + _ = _
  rw [delete_of_none absent, VData.encode_length]

/-- A new table has twice the size that the full one uses, and a megabyte at least. -/
theorem newTable_eq (size : Int) : ∃ nt, newTable true size = .ok nt ∧ nt.offset = 0 ∧ nt.inuse = 0 ∧
    (nt.allocated : Int) = max minimumSize size := by
  refine ⟨_, rfl, rfl, rfl, ?_⟩
  have positive : minimumSize = 1048576 := rfl
  dsimp only
  split <;> omega

namespace Storage

variable {write : Table → Except StorageError Table} {hkey : UInt64} {size : Nat} {s : Storage} {t : Table}

theorem retry_of_fits (last : s.tables.getLast? = some t) {stored : Table} (fits : write t = .ok stored)
    (mmaps : List Bool) :
    retry write mmaps s = .ok ({ s with tables := s.tables.dropLast ++ [stored] }, none) := by
  unfold retry
  simp [last, fits]

theorem retry_of_full (last : s.tables.getLast? = some t) (full : write t = .error .notEnoughSpace) {nt : Table}
    (fresh : newTable true (t.inuse * 2) = .ok nt) (mmaps : List Bool) :
    retry write (true :: mmaps) s = retry write mmaps { s with tables := s.tables ++ [nt], merging := true } := by
  conv_lhs => unfold retry
  simp [last, full, fresh]

/-- The loop never ends if neither the last table nor a new one has room: every further new table is
empty when it is found too small, so the tables do not grow. -/
theorem retry_runs_on (writes : Table.Writes write hkey size) (last : s.tables.getLast? = some t)
    (full : t.allocated ≤ size + t.offset) (big : max minimumSize (t.inuse * 2) ≤ size) (k : Nat) :
    retry write (List.replicate k true) s = .error .running := by
  induction k generalizing s t with
  | zero =>
    unfold retry
    simp [last, writes.full t full]
  | succ k ih =>
    obtain ⟨nt, fresh, offset, inuse, allocated⟩ := newTable_eq (t.inuse * 2)
    rw [List.replicate_succ, retry_of_full last (writes.full t full) fresh]
    exact ih (List.getLast?_concat ..) (by omega) (by rw [inuse]; omega)

/-- The loop ends if the last table or one new table has room. -/
theorem retry_ends (writes : Table.Writes write hkey size) (last : s.tables.getLast? = some t)
    (room : size + t.offset < t.allocated ∨ (size : Int) < max minimumSize (t.inuse * 2)) :
    ∃ s', retry write [true] s = .ok (s', none) ∧ s'.check hkey = .ok true := by
  have found {tables : List Table} {merging : Bool} {stored : Table} (mem : hkey ∈ stored.hkeys) :
      Storage.check ⟨tables ++ [stored], merging, s.closed⟩ hkey = .ok true := by
    unfold check
    simp [mem]
  by_cases here : size + t.offset < t.allocated
  · obtain ⟨stored, fits, mem⟩ := writes.fits t here
    exact ⟨_, retry_of_fits last fits _, found mem⟩
  · obtain ⟨nt, fresh, offset, _, allocated⟩ := newTable_eq (t.inuse * 2)
    obtain ⟨stored, fits, mem⟩ := writes.fits nt (by omega)
    rw [retry_of_full last (writes.full t (by omega)) fresh]
    exact ⟨_, retry_of_fits (List.getLast?_concat ..) fits _, found mem⟩

theorem retry_ends_iff (writes : Table.Writes write hkey size) (last : s.tables.getLast? = some t) :
    (∃ k s', retry write (List.replicate k true) s = .ok (s', none) ∧ s'.check hkey = .ok true) ↔
      size + t.offset < t.allocated ∨ (size : Int) < max minimumSize (t.inuse * 2) := by
  constructor
  · rintro ⟨k, s', run, _⟩
    by_contra noRoom
    rw [not_or] at noRoom
    rw [retry_runs_on writes last (by omega) (by omega)] at run
    cases run
  · intro room
    obtain ⟨s', run, found⟩ := retry_ends writes last room
    exact ⟨1, s', run, found⟩

/-- With mmap calls that succeed, `Put` of an entry and `PutRaw` of a raw one store it after finitely
many new tables exactly if there is room in the last table or in one new table. -/
theorem put_ends_iff (last : s.tables.getLast? = some t) (hkey : UInt64) (v : VData)
    (small : v.key.length < maxKeyLen) (raw : Bytes) :
    ((∃ k s', s.put (List.replicate k true) hkey v = .ok (s', none) ∧ s'.check hkey = .ok true) ↔
      v.encode.length + t.offset < t.allocated ∨ (v.encode.length : Int) < max minimumSize (t.inuse * 2)) ∧
    ((∃ k s', s.putRaw (List.replicate k true) hkey raw = .ok (s', none) ∧ s'.check hkey = .ok true) ↔
      raw.length + t.offset < t.allocated ∨ (raw.length : Int) < max minimumSize (t.inuse * 2)) :=
  ⟨retry_ends_iff (Table.put_writes hkey small) last, retry_ends_iff (Table.putRaw_writes hkey raw) last⟩

/-- The second of two entries does not fit the first table any more. -/
theorem put_ends_switched : ∃ s s₁ k s' value, new true 0 = .ok s ∧
    s.put [] 7 ⟨[107], 5, [1, 2]⟩ = .ok (s₁, none) ∧ List.length value = 1048560 ∧
    s₁.put (List.replicate k true) 8 ⟨[108], 0, value⟩ = .ok (s', none) ∧ s'.check 8 = .ok true := by
  obtain ⟨t, table, offset, _, allocated⟩ := newTable_eq 0
  have positive : minimumSize = 1048576 := rfl
  have length : (VData.encode ⟨[107], 5, [1, 2]⟩).length = 16 := VData.encode_length _
  obtain ⟨stored, fits, _⟩ := Table.put_fits 7 (v := ⟨[107], 5, [1, 2]⟩) (by decide)
    (show _ + t.offset < t.allocated by omega)
  have first : put ⟨[t], false, false⟩ [] 7 ⟨[107], 5, [1, 2]⟩ = .ok (⟨[stored], false, false⟩, none) :=
    put_of_fits rfl fits
  have last : (Storage.mk [stored] false false).tables.getLast? = some stored := rfl
  obtain ⟨value, size⟩ : ∃ value : Bytes, value.length = 1048560 :=
    ⟨List.replicate 1048560 0, List.length_replicate⟩
  have long : (VData.encode ⟨[108], 0, value⟩).length = 1048574 := by
    rw [VData.encode_length, size, List.length_singleton]
  have small : [(108 : UInt8)].length < maxKeyLen := by decide
  obtain ⟨k, s', run, found⟩ := (put_ends_iff last 8 ⟨[108], 0, value⟩ small []).1.2 (.inr (by omega))
  exact ⟨_, _, k, s', value, by rw [new, table]; rfl, first, size, run, found⟩

/-- A value of a megabyte in a new storage: `Put` maps one table of a megabyte after the other. -/
theorem megabyte_put_runs_on : ∃ s v, new true 0 = .ok s ∧ v.key.length < maxKeyLen ∧ v.value.length = 2 ^ 20 ∧
    ∀ k, s.put (List.replicate k true) 7 v = .error .running ∧
      s.putRaw (List.replicate k true) 7 (v.encode ++ [0]) = .error .running := by
  obtain ⟨t, table, offset, inuse, allocated⟩ := newTable_eq 0
  have positive : minimumSize = 1048576 := rfl
  have last : (Storage.mk [t] false false).tables.getLast? = some t := rfl
  obtain ⟨v, small, value, length⟩ : ∃ v : VData, v.key.length < maxKeyLen ∧ v.value.length = 2 ^ 20 ∧
      v.encode.length = 1048590 := by
    refine ⟨⟨[107], 0, List.replicate (2 ^ 20) 0⟩, by decide, List.length_replicate, ?_⟩
    rw [VData.encode_length, List.length_replicate, List.length_singleton]
    norm_num
  refine ⟨_, v, by rw [new, table]; rfl, small, value, fun k => ⟨?_, ?_⟩⟩
  · exact retry_runs_on (Table.put_writes 7 small) last (by omega) (by rw [inuse]; omega) k
  · refine retry_runs_on (Table.putRaw_writes 7 _) last ?_ ?_ k
    · rw [List.length_append]
      omega
    · rw [List.length_append, inuse]
      omega

end Storage

end Olric
