import Olric.Storage.Observers
import Olric.Storage.TransportSpec

namespace Olric

/-- A property of tables that new tables have and that no operation on a table breaks. -/
structure Table.Stable (P : Table → Prop) : Prop where
  fresh : ∀ {mmapOk size nt}, newTable mmapOk size = .ok nt → P nt
  put : ∀ {t stored hkey value}, P t → Table.put t hkey value = .ok stored → P stored
  putRaw : ∀ {t stored hkey raw}, P t → Table.putRaw t hkey raw = .ok stored → P stored
  delete : ∀ {t} hkey, P t → P (Table.delete t hkey).2

namespace Storage

section Tables

variable {P : Table → Prop} {s s' : Storage}

theorem retry_tables {write : Table → Except StorageError Table} {mmaps : List Bool} {err : Option StorageError}
    (fresh : ∀ {mmapOk size nt}, newTable mmapOk size = .ok nt → P nt)
    (writes : err = none → ∀ {t stored}, P t → write t = .ok stored → P stored)
    (run : retry write mmaps s = .ok (s', err)) (all : ∀ t ∈ s.tables, P t) : ∀ t ∈ s'.tables, P t := by
  refine retry_rule (P := fun s => ∀ t ∈ s.tables, P t) (Q := fun s => ∀ t ∈ s.tables, P t) run all ?_ ?_
    fun all _ _ => all
  · intro s t nt mmapOk all last _ made
    exact List.forall_mem_append.2 ⟨all, List.forall_mem_singleton.2 (fresh made)⟩
  · intro s t stored all last done none
    refine List.forall_mem_append.2 ⟨fun old mem => all old (List.dropLast_subset _ mem),
      List.forall_mem_singleton.2 ?_⟩
    exact writes none (all t (List.mem_of_getLast? last)) done

theorem delete_tables {mmapOk : Bool} {hkey : UInt64} {err : Option StorageError}
    (fresh : ∀ {mmapOk size nt}, newTable mmapOk size = .ok nt → P nt)
    (delete : ∀ {t}, P t → P (Table.delete t hkey).2) (run : s.delete mmapOk hkey = .ok (s', err))
    (all : ∀ t ∈ s.tables, P t) : ∀ t ∈ s'.tables, P t := by
  have scanned : ∀ t ∈ (deleteScan hkey s.tables.reverse).reverse, P t := by
    intro t mem
    rcases deleteScan_cases hkey s.tables.reverse with ⟨_, same⟩ | ⟨newer, old, older, split, _, _, result⟩
    · rw [same, List.reverse_reverse] at mem
      exact all t mem
    · have before {u : Table} (mem : u ∈ newer ++ old :: older) : P u := all u (List.mem_reverse.1 (split ▸ mem))
      rw [result, List.mem_reverse, List.mem_append, List.mem_cons] at mem
      rcases mem with mem | rfl | mem
      · exact before (List.mem_append_left _ mem)
      · exact delete (before (by simp))
      · exact before (by simp [mem])
  rcases delete_cases run with rfl | ⟨size, nt, made, rfl⟩
  · exact scanned
  · exact List.forall_mem_append.2 ⟨scanned, List.forall_mem_singleton.2 (fresh made)⟩

theorem chunkedMergeTables_tables {order : Nat → List UInt64} {mmapOk done : Bool} (stable : Table.Stable P)
    (orders : s.MergeOrder order) (run : s.chunkedMergeTables order mmapOk = .ok (done, s'))
    (all : ∀ t ∈ s.tables, P t) : ∀ t ∈ s'.tables, P t := by
  refine chunkedMergeTables_rule (P := fun tables => ∀ t ∈ tables, P t) orders run all ?_ ?_ ?_
  · intro before old after fresh hkey fresh' _ done all
    simp only [List.forall_mem_append, List.forall_mem_cons] at all ⊢
    obtain ⟨⟨older, here, newer⟩, target, none⟩ := all
    exact ⟨⟨older, stable.delete hkey here, newer⟩, stable.putRaw target done, none⟩
  · intro tables _ _ nt made all
    exact List.forall_mem_append.2 ⟨all, List.forall_mem_singleton.2 (stable.fresh made)⟩
  · intro olds fresh _ all
    exact (List.forall_mem_append.1 all).2

/-- All calls keep what the operations on one table keep. -/
theorem perform_tables {call : StorageCall} {answer : StorageAnswer} (stable : Table.Stable P) (meets : s.Meets call)
    (run : s.perform call = .ok (answer, s')) (all : ∀ t ∈ s.tables, P t) : ∀ t ∈ s'.tables, P t := by
  rcases perform_cases run with ⟨hkey, value, mmaps, err, rfl, done⟩ | ⟨hkey, raw, mmaps, err, rfl, done⟩ |
    ⟨hkey, mmapOk, err, rfl, done⟩ | ⟨order, mmapOk, finished, rfl, done⟩ | ⟨rfl, rfl⟩
  · exact retry_tables stable.fresh (fun _ => stable.put) done all
  · exact retry_tables stable.fresh (fun _ => stable.putRaw) done all
  · exact delete_tables stable.fresh (stable.delete hkey) done all
  · exact chunkedMergeTables_tables stable meets done all
  · exact all

end Tables

end Storage

/-- A region that has been written from its start on, without a gap, and is zero from `offset` on. -/
structure Table.Clean (t : Table) : Prop where
  size : t.memory.size = t.allocated
  minimum : minimumSize ≤ t.allocated
  room : t.offset < t.allocated
  zero : ∀ i, t.offset ≤ i → t.memory.byte i = 0

namespace Table

theorem Clean.append {t : Table} (clean : t.Clean) {bytes : Bytes} (fits : bytes.length + t.offset < t.allocated) :
    (t.append bytes).Clean where
  size := clean.size
  minimum := clean.minimum
  room := by
    change t.offset + bytes.length < t.allocated
    omega
  zero i past := by
    change t.offset + bytes.length ≤ i at past
    have outside : bytes[i - t.offset]? = none := List.getElem?_eq_none (by omega)
    simp [Table.append, ByteMemory.copy, outside, clean.zero i (by omega)]

theorem Clean.delete {t : Table} (clean : t.Clean) (hkey : UInt64) : (t.delete hkey).2.Clean where
  size := by
    rw [delete_memory, delete_allocated]
    exact clean.size
  minimum := by
    rw [delete_allocated]
    exact clean.minimum
  room := by
    rw [delete_offset, delete_allocated]
    exact clean.room
  zero := by
    rw [delete_offset, delete_memory]
    exact clean.zero

theorem Clean.store {t : Table} (clean : t.Clean) (hkey : UInt64) (inuse : Int) {bytes : Bytes}
    (fits : bytes.length + t.offset < t.allocated) :
    ({ t with hkeys := t.hkeys.insert hkey t.offset, inuse }.append bytes).Clean := by
  have indexed : Clean { t with hkeys := t.hkeys.insert hkey t.offset, inuse } :=
    ⟨clean.size, clean.minimum, clean.room, clean.zero⟩
  exact indexed.append fits

theorem newTable_clean {mmapOk : Bool} {size : Int} {nt : Table} (made : newTable mmapOk size = .ok nt) :
    nt.Clean := by
  cases mmapOk with
  | false => cases made
  | true =>
    cases Except.ok.inj made
    have large : minimumSize ≤ if size < minimumSize then minimumSize else size := by
      split <;> omega
    have positive : 0 < minimumSize := by decide
    refine ⟨rfl, ?_, ?_, fun _ _ => rfl⟩ <;> dsimp only <;> omega

theorem stable_clean : Table.Stable Table.Clean where
  fresh := newTable_clean
  delete hkey clean := clean.delete hkey
  putRaw := by
    intro t stored hkey raw clean done
    obtain ⟨room, rfl⟩ := putRaw_ok done
    exact clean.store hkey _ room
  put := by
    intro t stored hkey value clean done
    obtain ⟨small, room⟩ := put_ok done
    rw [put_eq small room] at done
    cases Except.ok.inj done
    refine (clean.delete hkey).store hkey _ ?_
    rw [delete_offset, delete_allocated]
    exact room

/-- What is shipped of a clean region is all of it. -/
theorem Clean.copy {t : Table} (clean : t.Clean) :
    (ByteMemory.zeroed t.allocated).copy 0 (t.memory.slice 0 t.offset ++ [0]) = t.memory := by
  rcases region : t.memory with ⟨size, byte⟩
  have room := clean.room
  have same : size = t.allocated := by rw [← clean.size, region]
  have zero (i : Nat) (past : t.offset ≤ i) : byte i = 0 := by
    have zero := clean.zero i past
    rwa [region] at zero
  subst same
  simp only [ByteMemory.copy, ByteMemory.zeroed, ByteMemory.mk.injEq, true_and]
  funext i
  by_cases shipped : i < t.offset
  · simp [show i < t.allocated by omega, List.getElem?_append_left, shipped, ByteMemory.slice]
  · rw [zero i (Nat.not_lt.1 shipped)]
    rcases Nat.eq_or_lt_of_le (Nat.not_lt.1 shipped) with rfl | past
    · simp
    · have none : (ByteMemory.slice ⟨t.allocated, byte⟩ 0 t.offset ++ [0])[i]? = none :=
        List.getElem?_eq_none (by simp; omega)
      simp [none]

end Table

namespace Storage

/-- A storage in use. It may have been sent from another node, and `Close` may have been tried. -/
inductive Reached : Storage → Prop
  | new {s mmapOk size} : new mmapOk size = .ok s → Reached s
  | call {s call answer s'} : Reached s → s.Meets call → s.perform call = .ok (answer, s') → Reached s'
  | close {s} (munmapOk : Bool) : Reached s → Reached (s.close munmapOk).1
  | sent {s tr mmapOk s'} : Reached s → s.exportTable = .ok tr → importTable mmapOk tr = .ok s' → Reached s'

/-- All calls in sequence, up to one that does not return. -/
def performAll (s : Storage) : List StorageCall → List (Except Halt StorageAnswer) × Storage
  | [] => ([], s)
  | call :: calls =>
    match s.perform call with
    | .error halt => ([.error halt], s)
    | .ok (answer, s) => (.ok answer :: (performAll s calls).1, (performAll s calls).2)

/-- No sequence of calls tells the storages apart, by its answers or by what can be read after it. -/
structure Indistinguishable (s s' : Storage) : Prop where
  answers : ∀ calls, (s'.performAll calls).1 = (s.performAll calls).1
  get : ∀ calls hkey, (s'.performAll calls).2.get hkey = (s.performAll calls).2.get hkey
  getRaw : ∀ calls hkey, (s'.performAll calls).2.getRaw hkey = (s.performAll calls).2.getRaw hkey
  check : ∀ calls hkey, (s'.performAll calls).2.check hkey = (s.performAll calls).2.check hkey
  len : ∀ calls, (s'.performAll calls).2.len = (s.performAll calls).2.len

variable {s : Storage} {t : Table}

theorem importTable_eq {tr : Transport} (single : s.tables = [t]) (clean : t.Clean)
    (exported : s.exportTable = .ok tr) : importTable true tr = .ok ⟨[t], false, false⟩ := by
  obtain ⟨t', single', rfl⟩ := exportTable_eq exported
  cases single.symm.trans single'
  have size : (if (t.allocated : Int) < minimumSize then minimumSize else t.allocated).toNat = t.allocated := by
    rw [if_neg (Int.not_lt.2 clean.minimum), Int.toNat_natCast]
  simp [importTable, newTable, Except.map, size, clean.copy]

theorem Reached.clean (reached : s.Reached) : ∀ t ∈ s.tables, t.Clean := by
  induction reached with
  | @new s mmapOk size made =>
    obtain ⟨t, fresh, rfl⟩ := new_eq made
    exact List.forall_mem_singleton.2 (Table.newTable_clean fresh)
  | call _ meets done ih => exact perform_tables Table.stable_clean meets done ih
  | @close s munmapOk _ ih =>
    unfold Storage.close
    split
    · exact ih
    · split
      · exact nofun
      · exact ih
  | @sent s tr mmapOk s' _ exported imported ih =>
    obtain ⟨t, single, _⟩ := exportTable_eq exported
    cases mmapOk with
    | false => cases imported
    | true =>
      have clean := ih t (by simp [single])
      rw [importTable_eq single clean exported] at imported
      cases imported
      exact List.forall_mem_singleton.2 clean

section Closed

variable (closed : Bool)

theorem retry_closed (write : Table → Except StorageError Table) (mmaps : List Bool) (s : Storage) :
    retry write mmaps { s with closed } = (retry write mmaps s).map fun r => ({ r.1 with closed }, r.2) := by
  induction mmaps generalizing s with
  | nil =>
    unfold retry
    dsimp only
    split
    · rfl
    · split <;> rfl
  | cons mmapOk mmaps ih =>
    unfold retry
    dsimp only
    split
    · rfl
    · split
      · rfl
      · split
        · rfl
        · exact ih { s with tables := s.tables ++ [_], merging := true }
      · rfl

theorem delete_closed (mmapOk : Bool) (hkey : UInt64) (s : Storage) :
    delete { s with closed } mmapOk hkey = (s.delete mmapOk hkey).map fun r => ({ r.1 with closed }, r.2) := by
  unfold delete
  dsimp only
  split
  · rfl
  · split
    · split
      · split
        · rfl
        · split <;> rfl
      · rfl
    · rfl

theorem chunkedMergeTables_closed (order : Nat → List UInt64) (mmapOk : Bool) (s : Storage) :
    chunkedMergeTables { s with closed } order mmapOk =
      (s.chunkedMergeTables order mmapOk).map fun r => (r.1, { r.2 with closed }) := by
  unfold chunkedMergeTables
  dsimp only
  split
  · rfl
  · split
    · rfl
    · split
      · split <;> rfl
      · rfl
      · rfl

/-- The calls do not look at the context. -/
theorem perform_closed (call : StorageCall) (s : Storage) :
    perform { s with closed } call = (s.perform call).map fun r => (r.1, { r.2 with closed }) := by
  have map_map {α β γ : Type} (x : Except Halt α) (f : α → β) (g : β → γ) : (x.map f).map g = x.map fun a =>
      g (f a) := by
    cases x <;> rfl
  cases call with
  | put hkey value mmaps => simp only [perform, put, retry_closed, map_map]
  | putRaw hkey raw mmaps => simp only [perform, putRaw, retry_closed, map_map]
  | delete hkey mmapOk => simp only [perform, delete_closed, map_map]
  | merge order mmapOk => simp only [perform, chunkedMergeTables_closed, map_map]
  | mergeExit => rfl

theorem performAll_closed (calls : List StorageCall) (s : Storage) :
    performAll { s with closed } calls = ((s.performAll calls).1, { (s.performAll calls).2 with closed }) := by
  induction calls generalizing s with
  | nil => rfl
  | cons call calls ih =>
    unfold performAll
    rw [perform_closed]
    cases done : s.perform call with
    | error halt => rfl
    | ok r =>
      simp only [Except.map]
      rw [ih r.2]

theorem indistinguishable_closed (s : Storage) : Indistinguishable s { s with closed } where
  answers calls := by rw [performAll_closed]
  get calls hkey := by rw [performAll_closed]; rfl
  getRaw calls hkey := by rw [performAll_closed]; rfl
  check calls hkey := by rw [performAll_closed]; rfl
  len calls := by rw [performAll_closed]; rfl

end Closed

/-- A storage with one table that is not merged is received as it was sent. -/
theorem import_exported (reached : s.Reached) (single : s.tables = [t]) (idle : s.merging = false) :
    ∃ tr s', s.exportTable = .ok tr ∧ importTable true tr = .ok s' ∧ Indistinguishable s s' := by
  have clean := reached.clean t (by simp [single])
  obtain ⟨tr, exported⟩ : ∃ tr, s.exportTable = .ok tr := by
    unfold exportTable
    rw [single]
    exact ⟨_, rfl⟩
  have copy : ({ s with closed := false } : Storage) = ⟨[t], false, false⟩ := by rw [single, idle]
  refine ⟨tr, _, exported, importTable_eq single clean exported, ?_⟩
  rw [← copy]
  exact indistinguishable_closed false s

theorem import_exported_small : ∃ s t tr s', s.Reached ∧ s.tables = [t] ∧ (7 : UInt64) ∈ t.hkeys ∧ s.merging = false ∧
    s.exportTable = .ok tr ∧ importTable true tr = .ok s' ∧ Indistinguishable s s' := by
  obtain ⟨v, small, length⟩ : ∃ v : VData, v.key.length < maxKeyLen ∧ v.encode.length = 16 :=
    ⟨⟨[107], 5, [1, 2]⟩, by decide, by decide⟩
  obtain ⟨t, table, created, offset, size⟩ := new_empty
  obtain ⟨stored, done, _, _⟩ := Table.put_fits 7 small (show v.encode.length + t.offset < t.allocated by omega)
  have performed : perform ⟨[t], false, false⟩ (.put 7 v []) = .ok (.err none, ⟨[stored], false, false⟩) := by
    rw [perform, put_of_fits rfl done]
    rfl
  have meets : Meets ⟨[t], false, false⟩ (.put 7 v []) := trivial
  have reached : Reached ⟨[stored], false, false⟩ := .call (.new created) meets performed
  obtain ⟨tr, s', exported, imported, same⟩ := import_exported reached rfl rfl
  exact ⟨_, stored, tr, s', reached, rfl, (Table.mem_put done).2 (.inl rfl), rfl, exported, imported, same⟩

end Storage

end Olric
