import Olric.Lib.MessagePack
import Olric.Protocol.Frame
import Olric.Storage.Refinement
import Olric.Storage.Transport

namespace Olric

open MessagePack

/-- The hkeys of an exported table with their offsets, in an order that the map gives. -/
def Transport.Lists (tr : Transport) (hkeys : List (UInt64 × Nat)) : Prop :=
  (hkeys.map Prod.fst).Nodup ∧ ∀ hkey offset, (hkey, offset) ∈ hkeys ↔ tr.hkeys.lookup hkey = some offset

/-- The bytes that `Export` returns. -/
def Transport.marshal (tr : Transport) (hkeys : List (UInt64 × Nat)) : Bytes :=
  struct [("HKeys", map (hkeys.map fun e => (uint64 e.1, int64 e.2))), ("Memory", bin tr.memory),
    ("Offset", int64 tr.offset), ("Allocated", int64 tr.allocated), ("Inuse", int64 tr.inuse),
    ("Garbage", int64 tr.garbage)]

/-- A `dmapbox`, with the payload that `Export` has returned. -/
def marshalBox (partID : UInt64) (name payload : Bytes) : Bytes :=
  struct [("PartID", uint64 partID), ("Name", str name), ("Payload", bin payload)]

/-- The request that `moveDMap` sends. -/
def moveDMapMessage (backup : Bool) (value : Bytes) : Message where
  toHeader := ⟨magicReq, if backup then OpCode.backupMoveDMap else OpCode.moveDMap, 0, 0, 0, 0, 0⟩
  extra := none
  dmap := []
  key := []
  value := value

def payloadSize (keys offset : Nat) : Nat := 81 + mapHead keys + 18 * keys + binHead (offset + 1) + (offset + 1)

/-- The size of the value that moves a table, from the lengths of the name and of the table's map
and the used part of its memory. -/
def boxSize (name keys offset : Nat) : Nat :=
  30 + strHead name + name + binHead (payloadSize keys offset) + payloadSize keys offset

theorem Transport.Lists.length {tr : Transport} {hkeys : List (UInt64 × Nat)} (lists : tr.Lists hkeys) :
    hkeys.length = tr.hkeys.keys.card := by
  have keys : (hkeys.map Prod.fst).toFinset = tr.hkeys.keys := by
    ext hkey
    rw [List.mem_toFinset, List.mem_map, Finmap.mem_keys, Finmap.mem_iff]
    constructor
    · rintro ⟨e, mem, rfl⟩
      exact ⟨e.2, (lists.2 e.1 e.2).1 mem⟩
    · rintro ⟨offset, found⟩
      exact ⟨(hkey, offset), (lists.2 hkey offset).2 found, rfl⟩
  rw [← keys, List.toFinset_card_of_nodup lists.1, List.length_map]

theorem Transport.marshal_length {tr : Transport} {hkeys : List (UInt64 × Nat)} (lists : tr.Lists hkeys)
    (memory : tr.memory.length = tr.offset + 1) :
    (tr.marshal hkeys).length = payloadSize tr.hkeys.keys.card tr.offset := by
  have names : (str "HKeys".toUTF8.data.toList).length = 6 ∧ (str "Memory".toUTF8.data.toList).length = 7 ∧
      (str "Offset".toUTF8.data.toList).length = 7 ∧ (str "Allocated".toUTF8.data.toList).length = 10 ∧
      (str "Inuse".toUTF8.data.toList).length = 6 ∧ (str "Garbage".toUTF8.data.toList).length = 8 := by decide
  have index := map_length_of_uniform hkeys (fun e => uint64 e.1) (fun e => int64 e.2) (fun _ => uint64_length _)
    fun _ => int64_length _
  have six : mapHead (0 + 1 + 1 + 1 + 1 + 1 + 1) = 1 := rfl
  rw [lists.length] at index
  rw [Transport.marshal, struct_length]
  simp only [List.map_cons, List.map_nil, List.sum_cons, List.sum_nil, List.length_cons, List.length_nil,
    names, index, memory, bin_length, int64_length, payloadSize, six]
  omega

theorem marshalBox_length (partID : UInt64) (name payload : Bytes) : (marshalBox partID name payload).length =
    30 + strHead name.length + name.length + binHead payload.length + payload.length := by
  have names : (str "PartID".toUTF8.data.toList).length = 7 ∧ (str "Name".toUTF8.data.toList).length = 5 ∧
      (str "Payload".toUTF8.data.toList).length = 8 := by decide
  have three : mapHead (0 + 1 + 1 + 1) = 1 := rfl
  rw [marshalBox, struct_length]
  simp only [List.map_cons, List.map_nil, List.sum_cons, List.sum_nil, List.length_cons, List.length_nil, names,
    str_length name, bin_length, uint64_length, three]
  omega

theorem Storage.exportTable_memory {s : Storage} {tr : Transport} (exported : s.exportTable = .ok tr) :
    tr.memory.length = tr.offset + 1 := by
  unfold exportTable at exported
  split at exported
  · cases exported
    simp
  · cases exported

/-- The size of what `moveDMap` sends for a storage that can be exported. -/
theorem Storage.box_length {s : Storage} {tr : Transport} (exported : s.exportTable = .ok tr)
    {hkeys : List (UInt64 × Nat)} (lists : tr.Lists hkeys) (partID : UInt64) (name : Bytes) :
    (marshalBox partID name (tr.marshal hkeys)).length = boxSize name.length tr.hkeys.keys.card tr.offset := by
  rw [marshalBox_length, Transport.marshal_length lists (exportTable_memory exported), boxSize]

theorem moveDMapMessage_isRequest (backup : Bool) (value : Bytes) : (moveDMapMessage backup value).IsRequest :=
  ⟨rfl, Nat.zero_lt_succ _, Nat.zero_lt_succ _⟩

theorem moveDMapMessage_framed (backup : Bool) (value : Bytes) :
    (moveDMapMessage backup value).Framed ↔ value.length < 2 ^ 32 := by
  have body : (moveDMapMessage backup value).body = value := rfl
  have noExtra : (moveDMapMessage backup value).extraLen = 0 := rfl
  rw [Message.Framed, body]
  simp [noExtra]

/-- The message of a move arrives exactly if the exported table, with 18 bytes for each of its
keys, fits into the value of a message. -/
theorem move_accepted_iff {s : Storage} {tr : Transport} (exported : s.exportTable = .ok tr)
    {hkeys : List (UInt64 × Nat)} (lists : tr.Lists hkeys) (backup : Bool) (partID : UInt64) (name : Bytes)
    (maxValueSize : Int) :
    (∃ q, Message.read maxValueSize (moveDMapMessage backup (marshalBox partID name (tr.marshal hkeys))).write =
        .ok q [] ∧ q.value = marshalBox partID name (tr.marshal hkeys)) ↔
      boxSize name.length tr.hkeys.keys.card tr.offset ≤ maxValueSize ∧
        boxSize name.length tr.hkeys.keys.card tr.offset < 2 ^ 32 := by
  have size := Storage.box_length exported lists partID name
  generalize marshalBox partID name (tr.marshal hkeys) = value at size ⊢
  have request := moveDMapMessage_isRequest backup value
  constructor
  · rintro ⟨q, read, _⟩
    rw [← List.append_nil (Message.write _)] at read
    rcases Message.receivable_of_read request (.inl ⟨q, read⟩) with ⟨small, framed⟩ | ⟨empty, _⟩
    · rw [moveDMapMessage_framed, size] at framed
      change (value.length : Int) ≤ maxValueSize at small
      rw [size] at small
      exact ⟨small, framed⟩
    · change value = [] at empty
      rw [empty, List.length_nil, boxSize] at size
      omega
  · rintro ⟨small, framed⟩
    have fits : ((moveDMapMessage backup value).value.length : Int) ≤ maxValueSize := by
      change (value.length : Int) ≤ maxValueSize
      rwa [size]
    obtain ⟨q, own, _, read⟩ := Message.read_framed request fits
      ((moveDMapMessage_framed backup value).2 (by rwa [size]))
    exact ⟨q, by simpa using read [], own.2.2.2⟩

theorem move_accepted_single : ∃ s s₁ tr q, Storage.new true 0 = .ok s ∧
    s.put [] 7 ⟨[107], 0, [1]⟩ = .ok (s₁, none) ∧ s₁.exportTable = .ok tr ∧
    Message.read (2 ^ 20) (moveDMapMessage false (marshalBox 3 [109] (tr.marshal [(7, 0)]))).write = .ok q [] := by
  obtain ⟨s, s₁, tr, created, put, exported, single, offset⟩ : ∃ s s₁ tr, Storage.new true 0 = .ok s ∧
      s.put [] 7 ⟨[107], 0, [1]⟩ = .ok (s₁, none) ∧ s₁.exportTable = .ok tr ∧ tr.hkeys = Finmap.singleton 7 0 ∧
      tr.offset = 15 := ⟨_, _, _, rfl, rfl, rfl, rfl, rfl⟩
  have lists : tr.Lists [(7, 0)] := by
    refine ⟨List.nodup_singleton _, fun hkey start => ?_⟩
    rw [single]
    by_cases same : hkey = 7
    · rw [same, Finmap.lookup_singleton_eq]
      simp [eq_comm]
    · rw [Finmap.lookup_eq_none.2 (mt (Finmap.mem_singleton ..).1 same)]
      simp [same]
  obtain ⟨q, read, _⟩ := (move_accepted_iff exported lists false 3 [109] (2 ^ 20)).2
    (by rw [single, offset]; decide)
  exact ⟨s, s₁, tr, q, created, put, exported, read⟩

/-- A put that fills the first table to the last byte but one leaves a table of a megabyte. -/
theorem move_of_full_table {v : VData} (small : v.key.length < maxKeyLen) (encoded : v.encode.length = 1048575) :
    ∃ s tr, Storage.system.AnyRun [.put 7 v []] s ∧ s.exportTable = .ok tr ∧ tr.Lists [(7, 0)] ∧
      (marshalBox 3 [109] (tr.marshal [(7, 0)])).length = 1048718 := by
  obtain ⟨t, table, offset, size, empty⟩ : ∃ t, newTable true 0 = .ok t ∧ t.offset = 0 ∧ t.allocated = 1048576 ∧
      t.hkeys = ∅ := ⟨_, rfl, rfl, rfl, rfl⟩
  have created : Storage.new true 0 = .ok ⟨[t], false, false⟩ := by rw [Storage.new, table]; rfl
  obtain ⟨stored, put, used, index⟩ : ∃ stored, t.put 7 v = .ok stored ∧ stored.offset = 1048575 ∧
      stored.hkeys = Finmap.insert 7 0 ∅ := by
    refine ⟨_, Table.put_eq small (by omega), ?_, ?_⟩
    · change (t.delete 7).2.offset + v.encode.length = _
      rw [Table.delete_offset, offset, encoded]
    · have same : (t.delete 7).2 = t :=
        Table.delete_of_none (Table.get_eq_none_iff.2 (by rw [empty]; exact Finmap.notMem_empty))
      change (t.delete 7).2.hkeys.insert 7 (t.delete 7).2.offset = _
      rw [same, empty, offset]
  have run : Storage.system.AnyRun ([] ++ [.put 7 v []]) ⟨[stored], false, false⟩ :=
    .next (.start ⟨true, 0, created⟩) trivial (.put (Storage.put_of_fits rfl put))
  obtain ⟨tr, exported, hkeys, moved⟩ : ∃ tr, Storage.exportTable ⟨[stored], false, false⟩ = .ok tr ∧
      tr.hkeys = Finmap.insert 7 0 ∅ ∧ tr.offset = 1048575 := ⟨_, rfl, index, used⟩
  have lists : tr.Lists [(7, 0)] := by
    refine ⟨by simp, fun hkey start => ?_⟩
    rw [hkeys]
    by_cases this : hkey = 7
    · subst this
      simp [Finmap.lookup_insert, eq_comm]
    · simp [Finmap.lookup_insert_of_ne _ this, this]
  refine ⟨_, tr, run, exported, lists, ?_⟩
  rw [Storage.box_length exported lists, ← lists.length, moved]
  rfl

theorem full_table_too_big {v : VData} (key : v.key.length = 1) (value : v.value.length = 1048561) :
    v.value.length ≤ 2 ^ 20 ∧ ∃ s tr hkeys, Storage.system.AnyRun [.put 7 v []] s ∧ s.exportTable = .ok tr ∧
      tr.Lists hkeys ∧ ∃ h rest,
        Message.read (2 ^ 20) (moveDMapMessage false (marshalBox 3 [109] (tr.marshal hkeys))).write =
          .error .valueTooBig h rest := by
  have encoded : v.encode.length = 1048575 := by rw [VData.encode_length, key, value]
  refine ⟨by rw [value]; decide, ?_⟩
  obtain ⟨s, tr, run, exported, lists, size⟩ := move_of_full_table (by rw [key]; decide) encoded
  have framed := (moveDMapMessage_framed false (marshalBox 3 [109] (tr.marshal [(7, 0)]))).2 (by rw [size]; decide)
  have big : (2 ^ 20 : Int) < (moveDMapMessage false (marshalBox 3 [109] (tr.marshal [(7, 0)]))).value.length := by
    change (2 ^ 20 : Int) < (marshalBox 3 [109] (tr.marshal [(7, 0)])).length
    rw [size]
    decide
  have refused := Message.read_tooBig (moveDMapMessage_isRequest false _) framed big []
  rw [List.append_nil, List.append_nil] at refused
  exact ⟨s, tr, [(7, 0)], run, exported, lists, _, _, refused⟩

/-- One key with a value that the protocol admits, and that fits into a new table: the table can be
exported, and the receiver refuses it. -/
theorem full_table_refused :
    let v : VData := ⟨[107], 0, List.replicate 1048561 0⟩
    v.value.length ≤ 2 ^ 20 ∧ ∃ s tr hkeys, Storage.system.AnyRun [.put 7 v []] s ∧ s.exportTable = .ok tr ∧
      tr.Lists hkeys ∧ ∃ h rest,
        Message.read (2 ^ 20) (moveDMapMessage false (marshalBox 3 [109] (tr.marshal hkeys))).write =
          .error .valueTooBig h rest :=
  full_table_too_big rfl List.length_replicate

end Olric
