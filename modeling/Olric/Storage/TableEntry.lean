import Olric.Storage.Table

namespace Olric

/-- The in-memory layout of an entry:
KEY-LENGTH(uint8) | KEY(bytes) | TTL(uint64) | VALUE-LENGTH(uint32) | VALUE(bytes). -/
def VData.encode (v : VData) : Bytes :=
  [UInt8.ofNat v.key.length] ++ v.key ++ BigEndian.encode 8 v.ttl.toUInt64.toNat ++
    BigEndian.encode 4 v.value.length ++ v.value

/-- The lengths fit their fields of the layout. `put` checks the first, not the second. -/
structure VData.Fits (v : VData) : Prop where
  key : v.key.length < maxKeyLen
  value : v.value.length < 2 ^ 32

theorem VData.encode_length (v : VData) :
    v.encode.length = v.key.length + v.value.length + 13 := by
  simp only [encode, List.length_append, List.length_singleton, BigEndian.encode_length]
  omega

/-- What the four bytes of the value length leave of the value. -/
def VData.cut (v : VData) : VData := { v with value := v.value.take (v.value.length % 2 ^ 32) }

theorem VData.cut_fits {v : VData} (small : v.key.length < maxKeyLen) : v.cut.Fits where
  key := small
  value := by
    have below := Nat.mod_lt v.value.length (show 0 < 2 ^ 32 by decide)
    simp only [cut, List.length_take]
    omega

theorem VData.cut_of_short {v : VData} (short : v.value.length < 2 ^ 32) : v.cut = v := by
  rw [cut, Nat.mod_eq_of_lt short, List.take_length]

/-- A value that is too long for its length bytes is an entry with something after it. -/
theorem VData.encode_cut (v : VData) : v.encode = v.cut.encode ++ v.value.drop (v.value.length % 2 ^ 32) := by
  have length : v.cut.value.length = v.value.length % 2 ^ 32 := List.length_take_of_le (Nat.mod_le _ _)
  have word : BigEndian.encode 4 v.value.length = BigEndian.encode 4 (v.value.length % 2 ^ 32) := by
    have split := BigEndian.encode_add 4 (v.value.length / 2 ^ 32) (v.value.length % 2 ^ 32)
    rwa [show 256 ^ 4 = 2 ^ 32 from rfl, Nat.div_add_mod'] at split
  rw [encode, encode, length, word, List.append_assoc, List.append_assoc, List.append_assoc, List.append_assoc]
  simp [cut]

/-- The entry in a byte slice. Slices past its end panic. -/
def decodeRaw (raw : Bytes) : Except Halt VData :=
  let klen := (raw.headD 0).toNat
  let offset := 1 + klen + 8 + 4
  if raw.length < offset then .error .panic
  else
    let key := (raw.drop 1).take klen
    let ttl := (UInt64.ofNat (BigEndian.decode ((raw.drop (1 + klen)).take 8))).toInt64
    let vlen := BigEndian.decode ((raw.drop (1 + klen + 8)).take 4)
    if raw.length < offset + vlen then .error .panic
    else .ok { key, ttl, value := (raw.drop offset).take vlen }

theorem decodeRaw_encode {v : VData} (fits : v.Fits) (rest : Bytes) : decodeRaw (v.encode ++ rest) = .ok v := by
  have small : v.key.length < 256 := fits.key
  have ttlSmall : v.ttl.toUInt64.toNat < 256 ^ 8 := by simpa using v.ttl.toUInt64.toNat_lt
  have valueSmall : v.value.length < 256 ^ 4 := by simpa using fits.value
  have klen : ((v.encode ++ rest).headD 0).toNat = v.key.length := by
    simp [VData.encode, Nat.mod_eq_of_lt small]
  have length : (v.encode ++ rest).length = v.key.length + v.value.length + 13 + rest.length := by
    rw [List.length_append, v.encode_length]
  -- each field lies between what is before it and what is after it
  have field (start count : Nat) {before part after : Bytes} (whole : v.encode ++ rest = before ++ (part ++ after))
      (at' : before.length = start) (long : part.length = count) : ((v.encode ++ rest).drop start).take count =
          part := by
    rw [whole, ← at', ← long, List.drop_left, List.take_left]
  have encoded : v.encode ++ rest = [UInt8.ofNat v.key.length] ++
    (v.key ++ (BigEndian.encode 8 v.ttl.toUInt64.toNat ++
      (BigEndian.encode 4 v.value.length ++ (v.value ++ rest)))) := by
    simp [VData.encode]
  have key : ((v.encode ++ rest).drop 1).take v.key.length = v.key := field _ _ encoded rfl rfl
  have ttl := field (1 + v.key.length) 8 (encoded.trans (List.append_assoc ..).symm)
    (by rw [List.length_append, List.length_singleton]) (BigEndian.encode_length 8 _)
  have vlen := field (1 + v.key.length + 8) 4
    (encoded.trans ((List.append_assoc ..).symm.trans (List.append_assoc ..).symm))
    (by simp [BigEndian.encode_length]; omega) (BigEndian.encode_length 4 _)
  have value := field (1 + v.key.length + 8 + 4) v.value.length
    (encoded.trans ((List.append_assoc ..).symm.trans
      ((List.append_assoc ..).symm.trans (List.append_assoc ..).symm)))
    (by simp [BigEndian.encode_length]; omega) rfl
  unfold decodeRaw
  simp only [klen, key, ttl, vlen, value, BigEndian.decode_encode_of_lt ttlSmall,
    BigEndian.decode_encode_of_lt valueSmall, UInt64.ofNat_toNat, Int64.toInt64_toUInt64]
  rw [if_neg (by omega), if_neg (by omega)]

/-- A slice with an entry begins with the encoding of it. -/
theorem decodeRaw_eq_ok {raw : Bytes} {v : VData} (run : decodeRaw raw = .ok v) :
    v.Fits ∧ ∃ rest, raw = v.encode ++ rest := by
  unfold decodeRaw at run
  dsimp only at run
  split at run
  · cases run
  rename_i header
  split at run
  · cases run
  rename_i whole
  cases Except.ok.inj run
  have long (start count : Nat) (inside : start + count ≤ raw.length) : ((raw.drop start).take count).length =
      count := by
    rw [List.length_take, List.length_drop]
    omega
  have word (start count : Nat) (inside : start + count ≤ raw.length) :
      BigEndian.encode count (BigEndian.decode ((raw.drop start).take count)) = (raw.drop start).take count := by
    have written := BigEndian.encode_decode ((raw.drop start).take count)
    rwa [long _ _ inside] at written
  have next (start count : Nat) : raw.drop start = (raw.drop start).take count ++ raw.drop (start + count) := by
    rw [← List.drop_drop, List.take_append_drop]
  have first : [UInt8.ofNat (raw.headD 0).toNat] ++ raw.drop 1 = raw := by
    cases raw with
    | nil => simp at header
    | cons byte raw => simp
  have klen : ((raw.drop 1).take (raw.headD 0).toNat).length = (raw.headD 0).toNat := long _ _ (by omega)
  have vlen := BigEndian.decode_lt ((raw.drop (1 + (raw.headD 0).toNat + 8)).take 4)
  have ttl := BigEndian.decode_lt ((raw.drop (1 + (raw.headD 0).toNat)).take 8)
  rw [long _ _ (by omega)] at vlen ttl
  generalize size : (raw.headD 0).toNat = k at *
  have key : k < maxKeyLen := size ▸ (raw.headD 0).toNat_lt
  refine ⟨⟨klen.trans_lt key, ?_⟩, raw.drop (1 + k + 8 + 4 + BigEndian.decode ((raw.drop (1 + k + 8)).take 4)), ?_⟩
  · dsimp only
    rw [long _ _ (by omega)]
    exact vlen
  · have stamp : (UInt64.ofNat (BigEndian.decode ((raw.drop (1 + k)).take 8))).toNat =
        BigEndian.decode ((raw.drop (1 + k)).take 8) := by
      rw [UInt64.toNat_ofNat']
      exact Nat.mod_eq_of_lt ttl
    have value := long (1 + k + 8 + 4) _ (Nat.not_lt.1 whole)
    simp only [VData.encode, klen, UInt64.toUInt64_toInt64, stamp, value, word (1 + k) 8 (by omega),
      word (1 + k + 8) 4 (by omega), List.append_assoc]
    rw [← next (1 + k + 8 + 4), ← next (1 + k + 8), ← next (1 + k), ← next 1, first]

namespace Table

/-- The bytes below the write offset carry the entry of `v` from `start` on. -/
structure EntryAt (t : Table) (start : Nat) (v : VData) : Prop where
  fits : v.Fits
  below : start + v.encode.length ≤ t.offset
  bytes : t.memory.slice start v.encode.length = v.encode

/-- The fields of an entry are found where `get`, `getRaw` and `delete` look for them. -/
theorem EntryAt.fields {t : Table} {start : Nat} {v : VData} (entry : t.EntryAt start v) :
    t.memory.byte start = UInt8.ofNat v.key.length ∧
    t.memory.slice (start + 1) v.key.length = v.key ∧
    t.memory.slice (start + 1 + v.key.length) 8 = BigEndian.encode 8 v.ttl.toUInt64.toNat ∧
    t.memory.slice (start + 1 + v.key.length + 8) 4 = BigEndian.encode 4 v.value.length ∧
    t.memory.slice (start + 1 + v.key.length + 8 + 4) v.value.length = v.value := by
  have whole := entry.bytes
  rw [v.encode_length, show v.key.length + v.value.length + 13 = v.key.length + 8 + 4 + v.value.length + 1 by omega,
    ByteMemory.slice_succ, ByteMemory.slice_append, ByteMemory.slice_append, ByteMemory.slice_append] at whole
  simp only [VData.encode, List.append_assoc, List.cons_append, List.nil_append, List.cons.injEq] at whole
  obtain ⟨klen, rest⟩ := whole
  obtain ⟨key, rest⟩ := List.append_inj rest (by simp)
  obtain ⟨ttl, rest⟩ := List.append_inj rest (by simp [BigEndian.encode_length])
  obtain ⟨vlen, value⟩ := List.append_inj rest (by simp [BigEndian.encode_length])
  simp only [← Nat.add_assoc] at ttl vlen value
  exact ⟨klen, key, ttl, vlen, value⟩

theorem EntryAt.klen {t : Table} {start : Nat} {v : VData} (entry : t.EntryAt start v) :
    (t.memory.byte start).toNat = v.key.length := by
  have small : v.key.length < 256 := entry.fits.key
  rw [entry.fields.1, UInt8.toNat_ofNat', Nat.mod_eq_of_lt small]

theorem EntryAt.vlen {t : Table} {start : Nat} {v : VData} (entry : t.EntryAt start v) :
    BigEndian.decode (t.memory.slice (start + 1 + v.key.length + 8) 4) = v.value.length := by
  rw [entry.fields.2.2.2.1, BigEndian.decode_encode_of_lt (by simpa using entry.fits.value)]

theorem EntryAt.ttl {t : Table} {start : Nat} {v : VData} (entry : t.EntryAt start v) :
    (UInt64.ofNat (BigEndian.decode (t.memory.slice (start + 1 + v.key.length) 8))).toInt64 = v.ttl := by
  have small : v.ttl.toUInt64.toNat < 256 ^ 8 := by simpa using v.ttl.toUInt64.toNat_lt
  rw [entry.fields.2.2.1, BigEndian.decode_encode_of_lt small, UInt64.ofNat_toNat, Int64.toInt64_toUInt64]

/-- What every table built by `newTable`, `put`, `putRaw` and `delete` satisfies, as long as
no entry's value length overflows its four bytes. -/
structure Valid (t : Table) : Prop where
  size : t.memory.size = t.allocated
  room : t.offset < t.allocated
  entries : ∀ {hkey start}, t.hkeys.lookup hkey = some start → ∃ v, t.EntryAt start v

theorem get_of_entry {t : Table} {hkey : UInt64} {start : Nat} {v : VData}
    (at_ : t.hkeys.lookup hkey = some start) (entry : t.EntryAt start v) : t.get hkey = some v := by
  simp only [get, at_, Option.map_some, entry.klen, entry.ttl, entry.vlen, entry.fields.2.1, entry.fields.2.2.2.2]

/-- The raw copy is the entry with one zero byte after it. -/
theorem getRaw_of_entry {t : Table} {hkey : UInt64} {start : Nat} {v : VData}
    (at_ : t.hkeys.lookup hkey = some start) (entry : t.EntryAt start v) :
    t.getRaw hkey = some (v.encode ++ [0]) := by
  have length : start + 1 + v.key.length + 8 + 4 + v.value.length - start = v.encode.length := by
    rw [v.encode_length]; omega
  simp only [getRaw, at_, Option.map_some, entry.klen, entry.vlen, length, entry.bytes]

theorem get_eq_none_iff {t : Table} {hkey : UInt64} : t.get hkey = none ↔ hkey ∉ t.hkeys := by
  simp [get, Finmap.lookup_eq_none]

theorem isSome_get {t : Table} {hkey : UInt64} : (t.get hkey).isSome ↔ hkey ∈ t.hkeys := by
  simp [get, Finmap.lookup_isSome]

theorem Valid.entry_of_get {t : Table} (valid : t.Valid) {hkey : UInt64} {v : VData}
    (found : t.get hkey = some v) : ∃ start, t.hkeys.lookup hkey = some start ∧ t.EntryAt start v := by
  obtain ⟨start, at_, _⟩ := Option.map_eq_some_iff.mp found
  obtain ⟨w, entry⟩ := valid.entries at_
  have same : w = v := Option.some.inj ((get_of_entry at_ entry).symm.trans found)
  exact ⟨start, at_, same ▸ entry⟩

theorem Valid.getRaw_eq {t : Table} (valid : t.Valid) (hkey : UInt64) :
    t.getRaw hkey = (t.get hkey).map fun v => v.encode ++ [0] := by
  cases found : t.get hkey with
  | none => simp [getRaw, Finmap.lookup_eq_none.mpr (get_eq_none_iff.mp found)]
  | some v =>
    obtain ⟨start, at_, entry⟩ := valid.entry_of_get found
    exact getRaw_of_entry at_ entry

end Table

end Olric
