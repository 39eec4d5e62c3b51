import Olric.Storage.Used

namespace Olric

namespace Table

variable {t stored : Table} {hkey : UInt64} {v : VData}

/-- The bytes of an entry: 13 for the lengths and the TTL, then the key and the value. -/
def entrySize (v : VData) : Nat := 13 + v.key.length + v.value.length

theorem delete_inuse (valid : t.Valid) (found : t.get hkey = some v) :
    (t.delete hkey).2.inuse = t.inuse - entrySize v := by
  obtain ⟨start, at', entry⟩ := valid.entry_of_get found
  have vlen := entry.vlen
  rw [Nat.add_assoc start] at vlen
  simp only [delete, at', entry.klen, vlen, entrySize]
  omega

/-- `inuse` is what the entries take that can be read. -/
structure Accounted (t : Table) : Prop where
  valid : t.Valid
  inuse : t.inuse = t.weigh entrySize

theorem Accounted.delete (accounted : t.Accounted) (hkey : UInt64) : (t.delete hkey).2.Accounted where
  valid := accounted.valid.delete hkey
  inuse := by
    cases found : t.get hkey with
    | none => rw [delete_of_none found, accounted.inuse]
    | some v =>
      have less := weigh_delete entrySize found
      rw [delete_inuse accounted.valid found, accounted.inuse]
      omega

theorem Accounted.put (accounted : t.Accounted) (short : v.value.length < 2 ^ 32) (run : t.put hkey v = .ok stored) :
    stored.Accounted := by
  obtain ⟨_, valid, get⟩ := put_spec accounted.valid short run
  refine ⟨valid, ?_⟩
  obtain ⟨small, room⟩ := put_ok run
  rw [put_eq small room] at run
  rw [weigh_store entrySize get, Nat.cast_add, ← (accounted.delete hkey).inuse]
  cases run
  simp only [append, entrySize]
  omega

theorem newTable_accounted {mmapOk : Bool} {size : Int} {nt : Table} (made : newTable mmapOk size = .ok nt) :
    nt.Accounted := by
  refine ⟨(newTable_spec made).1, ?_⟩
  rw [weigh_of_empty _ (newTable_spec made).2]
  cases mmapOk with
  | false => cases made
  | true =>
    cases made
    rfl

/-- All that has been written is in use or garbage. -/
def Balanced (t : Table) : Prop := t.inuse + t.garbage = t.offset

theorem Balanced.delete (balanced : t.Balanced) (hkey : UInt64) : (t.delete hkey).2.Balanced := by
  unfold Balanced at balanced ⊢
  unfold Table.delete
  split
  · exact balanced
  · dsimp only
    omega

theorem Balanced.store (balanced : t.Balanced) (hkeys : Finmap fun _ : UInt64 => Nat) {bytes : Bytes} {size : Nat}
    (length : bytes.length = size) : ({ t with hkeys, inuse := t.inuse + size }.append bytes).Balanced := by
  unfold Balanced at balanced ⊢
  simp only [append, length]
  omega

theorem stable_balanced : Table.Stable Balanced where
  fresh := by
    intro mmapOk size nt made
    cases mmapOk with
    | false => cases made
    | true =>
      cases made
      rfl
  delete hkey balanced := balanced.delete hkey
  putRaw := by
    intro t stored hkey raw balanced run
    obtain ⟨_, rfl⟩ := putRaw_ok run
    exact balanced.store _ rfl
  put := by
    intro t stored hkey v balanced run
    obtain ⟨small, room⟩ := put_ok run
    rw [put_eq small room] at run
    cases run
    exact (balanced.delete hkey).store _ v.encode_length

end Table

namespace Storage

variable {s s' : Storage} {history : List StorageCall}

theorem calls_balanced {allow : Storage → StorageCall → Prop} (run : calls.Run allow history s) :
    ∀ t ∈ s.tables, t.Balanced := by
  refine run.invariant (fun s => ∀ t ∈ s.tables, t.Balanced) ?_ ?_
  · rintro s ⟨mmapOk, size, created⟩
    obtain ⟨t, made, rfl⟩ := new_eq created
    exact List.forall_mem_singleton.2 (Table.stable_balanced.fresh made)
  · rintro s call s' balanced _ ⟨meets, answer, done⟩
    exact perform_tables Table.stable_balanced meets done balanced

/-- The calls that leave no raw copy in a table: a raw entry is not stored, and a merge step finds
nothing to move. Values have a length that fits its four bytes. -/
def CopiesNothing (s : Storage) : StorageCall → Prop
  | .put _ value _ => value.value.length < 2 ^ 32
  | .putRaw hkey raw mmaps => ∀ s', s.putRaw mmaps hkey raw ≠ .ok (s', none)
  | .merge _ _ => ∀ t ∈ s.tables.dropLast, t.hkeys = ∅
  | _ => True

/-- A merge step that finds nothing to move leaves the tables as they are, but for empty ones. -/
theorem chunkedMergeTables_accounted {order : Nat → List UInt64} {mmapOk done : Bool} (orders : s.MergeOrder order)
    (nothing : ∀ t ∈ s.tables.dropLast, t.hkeys = ∅) (run : s.chunkedMergeTables order mmapOk = .ok (done, s'))
    (all : ∀ t ∈ s.tables, t.Accounted) : ∀ t ∈ s'.tables, t.Accounted := by
  rcases chunkedMergeTables_moves orders run with ⟨_, _, rfl⟩ | ⟨n, fresh, olds, fresh', split, moves, exits⟩
  · exact all
  generalize s.tables.dropLast = olds₀ at split moves nothing
  rw [split] at all
  have same : olds = olds₀ ∧ fresh' = fresh := by
    cases moves with
    | refl => exact ⟨rfl, rfl⟩
    | @move _ before old after _ hkey _ _ _ here _ _ =>
      rw [nothing old (by simp)] at here
      exact absurd here Finmap.notMem_empty
  obtain ⟨rfl, rfl⟩ := same
  rcases exits with ⟨_, tables, _⟩ | ⟨_, nt, made, tables, _⟩ | ⟨_, tables, _⟩
  · rwa [tables]
  · rw [tables]
    exact List.forall_mem_append.2 ⟨all, List.forall_mem_singleton.2 (Table.newTable_accounted made)⟩
  · rw [tables]
    exact List.forall_mem_singleton.2 (all _ (by simp))

theorem perform_accounted {call : StorageCall} {answer : StorageAnswer} (meets : s.Meets call)
    (copies : s.CopiesNothing call)
    (run : s.perform call = .ok (answer, s')) (all : ∀ t ∈ s.tables, t.Accounted) : ∀ t ∈ s'.tables, t.Accounted := by
  rcases perform_cases run with ⟨hkey, value, mmaps, err, rfl, done⟩ | ⟨hkey, raw, mmaps, err, rfl, done⟩ |
    ⟨hkey, mmapOk, err, rfl, done⟩ | ⟨order, mmapOk, finished, rfl, done⟩ | ⟨rfl, rfl⟩
  · exact retry_tables Table.newTable_accounted (fun _ _ _ accounted done => accounted.put copies done) done all
  · refine retry_tables Table.newTable_accounted ?_ done all
    rintro rfl
    exact absurd done (copies s')
  · exact delete_tables Table.newTable_accounted (fun accounted => accounted.delete hkey) done all
  · exact chunkedMergeTables_accounted meets copies done all
  · exact all

/-- As long as no raw copy gets into a table, `inuse` is what the live entries of the table take, and
`garbage` is the rest of what has been written. -/
theorem inuse_exact (run : calls.Run CopiesNothing history s) {t : Table} (mem : t ∈ s.tables) :
    t.inuse = ∑ hkey ∈ t.hkeys.keys, (t.get hkey).elim 0 (fun v => 13 + v.key.length + v.value.length) ∧
      t.garbage = t.offset - t.inuse ∧ (t.hkeys = ∅ → t.inuse = 0) := by
  have accounted : ∀ t ∈ s.tables, t.Accounted := by
    refine run.invariant (fun s => ∀ t ∈ s.tables, t.Accounted) ?_ ?_
    · rintro s ⟨mmapOk, size, created⟩
      obtain ⟨t, made, rfl⟩ := new_eq created
      exact List.forall_mem_singleton.2 (Table.newTable_accounted made)
    · rintro s call s' all copies ⟨meets, answer, done⟩
      exact perform_accounted meets copies done all
  have inuse := (accounted t mem).inuse
  have balanced : t.inuse + t.garbage = t.offset := calls_balanced run t mem
  refine ⟨inuse, by omega, fun empty => ?_⟩
  rw [inuse, Table.weigh, empty]
  rfl

theorem delete_one {t : Table} {merging closed mmapOk : Bool} {hkey : UInt64}
    (little : 5 * (t.delete hkey).2.garbage < 2 * t.allocated) :
    delete ⟨[t], merging, closed⟩ mmapOk hkey = .ok (⟨[(t.delete hkey).2], merging, closed⟩, none) := by
  have scanned : (deleteScan hkey [t]).reverse = [(t.delete hkey).2] := by
    unfold deleteScan
    rcases t.delete hkey with ⟨_ | _, deleted⟩ <;> rfl
  have few : tooMuchGarbage (t.delete hkey).2 = false := by
    rw [tooMuchGarbage, Table.delete_allocated]
    exact decide_eq_false (by omega)
  simp [delete, scanned, few]

/-- An entry of 16 bytes in a new storage. -/
theorem one_entry : ∃ t stored, new true 0 = .ok ⟨[t], false, false⟩ ∧ t.put 7 ⟨[107], 5, [1, 2]⟩ = .ok stored ∧
    stored.Valid ∧ stored.Balanced ∧ stored.get = Function.update (fun _ => none) 7 (some ⟨[107], 5, [1, 2]⟩) ∧
    stored.offset = 16 ∧ stored.inuse = 16 ∧ stored.allocated = 1048576 := by
  have size : (VData.encode ⟨[107], 5, [1, 2]⟩).length = 16 := by decide
  obtain ⟨t, made, offset, inuse, allocated⟩ : ∃ t, newTable true 0 = .ok t ∧ t.offset = 0 ∧ t.inuse = 0 ∧
      t.allocated = 1048576 := ⟨_, rfl, rfl, rfl, rfl⟩
  obtain ⟨valid, empty⟩ := Table.newTable_spec made
  obtain ⟨stored, put, offset', allocated'⟩ := Table.put_fits 7 (v := ⟨[107], 5, [1, 2]⟩) (by decide)
    (show _ + t.offset < t.allocated by omega)
  obtain ⟨_, valid', get⟩ := Table.put_spec valid (by decide) put
  rw [empty] at get
  refine ⟨t, stored, by rw [new, made]; rfl, put, valid', ?_, get, by omega, ?_, by omega⟩
  · exact Table.stable_balanced.put (Table.stable_balanced.fresh made) put
  · rw [Table.put_inuse (by rw [empty]) put, inuse, size]
    rfl

theorem hkeys_eq_empty {t : Table} (empty : ∀ hkey, t.get hkey = none) : t.hkeys = ∅ := by
  refine Finmap.ext_lookup fun hkey => ?_
  rw [Finmap.lookup_empty, Finmap.lookup_eq_none, ← Table.get_eq_none_iff]
  exact empty hkey

/-- A key that is put and deleted. -/
theorem inuse_exact_deleted :
    let v : VData := ⟨[107], 5, [1, 2]⟩
    ∃ s t, calls.Run CopiesNothing [.put 7 v [], .delete 7 true] s ∧ s.tables = [t] ∧ t.hkeys = ∅ ∧ t.inuse = 0 ∧
      t.garbage = t.offset - t.inuse := by
  intro v
  obtain ⟨t, stored, created, put, valid, balanced, get, offset, inuse, allocated⟩ := one_entry
  have found : stored.get 7 = some v := by rw [get, Function.update_self]
  have sum : (stored.delete 7).2.inuse + (stored.delete 7).2.garbage = (stored.delete 7).2.offset := balanced.delete 7
  rw [Table.delete_inuse valid found, Table.delete_offset] at sum
  have small : Table.entrySize v = 16 := rfl
  have deleted : delete ⟨[stored], false, false⟩ true 7 = .ok (⟨[(stored.delete 7).2], false, false⟩, none) :=
    delete_one (by omega)
  have run : calls.Run CopiesNothing ([] ++ [.put 7 v []] ++ [.delete 7 true]) ⟨[(stored.delete 7).2], false,
      false⟩ := by
    have short : v.value.length < 2 ^ 32 := by decide
    have first : calls.step ⟨[t], false, false⟩ (.put 7 v []) ⟨[stored], false, false⟩ :=
      ⟨trivial, .err none, by rw [perform, put_of_fits rfl put]; rfl⟩
    exact .next (.next (.start ⟨true, 0, created⟩) short first) trivial ⟨trivial,
      .err none, by rw [perform, deleted]; rfl⟩
  have empty : (stored.delete 7).2.hkeys = ∅ := by
    refine hkeys_eq_empty fun hkey => ?_
    rw [Table.delete_get, get, Function.update_idem, Function.update_eq_self]
  have exact_ := inuse_exact run (List.mem_singleton.2 rfl)
  exact ⟨_, _, run, rfl, empty, exact_.2.2 empty, exact_.2.1⟩

/-- A raw entry that is put where it has been read. What it replaces stays in use, and so does the byte
by which the copy is longer than the entry, when the key is deleted. -/
theorem raw_copy_stays_in_use :
    let v : VData := ⟨[107], 5, [1, 2]⟩
    ∃ s₁ raw s t, calls.AnyRun [.put 7 v []] s₁ ∧ s₁.getRaw 7 = .ok (.ok raw) ∧
      calls.AnyRun [.put 7 v [], .putRaw 7 raw [], .delete 7 true] s ∧ s.tables = [t] ∧ t.hkeys = ∅ ∧
          t.inuse = 17 := by
  intro v
  obtain ⟨t, stored, created, put, valid, balanced, get, offset, inuse, allocated⟩ := one_entry
  have size : (v.encode ++ [0]).length = 17 := by decide
  have found : stored.get 7 = some v := by rw [get, Function.update_self]
  have read : getRaw ⟨[stored], false, false⟩ 7 = .ok (.ok (v.encode ++ [0])) := by
    simp [getRaw, valid.getRaw_eq, found]
  obtain ⟨copied, putRaw, _⟩ := (Table.putRaw_writes 7 (v.encode ++ [0])).fits stored (by omega)
  obtain ⟨valid', get'⟩ := Table.putRaw_spec valid ⟨by decide, by decide⟩ putRaw
  have balanced' : (copied.delete 7).2.Balanced := (Table.stable_balanced.putRaw balanced putRaw).delete 7
  have found' : copied.get 7 = some v := by rw [get', Function.update_self]
  have empty : (copied.delete 7).2.hkeys = ∅ := by
    refine hkeys_eq_empty fun hkey => ?_
    rw [Table.delete_get, get', get, Function.update_idem, Function.update_idem, Function.update_eq_self]
  obtain ⟨_, written⟩ := Table.putRaw_ok putRaw
  have inuse' : copied.inuse = 33 := by
    rw [written]
    change stored.inuse + ((v.encode ++ [0]).length : Nat) = 33
    omega
  have offset' : copied.offset = 33 := by
    rw [written]
    change stored.offset + (v.encode ++ [0]).length = 33
    omega
  have allocated' : copied.allocated = 1048576 := by rw [written]; exact allocated
  have left := Table.delete_inuse valid' found'
  have small : Table.entrySize v = 16 := rfl
  have sum : (copied.delete 7).2.inuse + (copied.delete 7).2.garbage = (copied.delete 7).2.offset := balanced'
  rw [Table.delete_offset] at sum
  have deleted : delete ⟨[copied], false, false⟩ true 7 = .ok (⟨[(copied.delete 7).2], false, false⟩, none) :=
    delete_one (by omega)
  have copy : Storage.putRaw ⟨[stored], false, false⟩ [] 7 (v.encode ++ [0]) = .ok (⟨[copied], false, false⟩, none) :=
    retry_of_fits rfl putRaw []
  have first : calls.AnyRun ([] ++ [.put 7 v []]) ⟨[stored], false, false⟩ :=
    .next (.start ⟨true, 0, created⟩) trivial ⟨trivial, .err none, by rw [perform, put_of_fits rfl put]; rfl⟩
  have second : calls.AnyRun ([.put 7 v []] ++ [.putRaw 7 (v.encode ++ [0]) []]) ⟨[copied], false, false⟩ :=
    first.next trivial ⟨trivial, .err none, by rw [perform, copy]; rfl⟩
  have run : calls.AnyRun ([.put 7 v [], .putRaw 7 (v.encode ++ [0]) []] ++ [.delete 7 true])
      ⟨[(copied.delete 7).2], false, false⟩ := second.next trivial ⟨trivial, .err none, by rw [perform, deleted]; rfl⟩
  exact ⟨_, _, _, _, first, read, run, rfl, empty, by omega⟩

end Storage

end Olric
