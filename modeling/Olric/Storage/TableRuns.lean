import Mathlib.Order.CompletePartialOrder
import Mathlib.Order.Interval.Set.Disjoint
import Olric.Lib.Transitions
import Olric.Storage.TableSpec

namespace Olric

/-- The calls that change a table. What is put raw is an encoded entry with any bytes after it. -/
inductive TableCall
  | put (hkey : UInt64) (value : VData)
  | putRaw (hkey : UInt64) (entry : VData) (rest : Bytes)
  | delete (hkey : UInt64)

namespace TableCall

def hkey : TableCall → UInt64
  | .put hkey _ | .putRaw hkey _ _ | .delete hkey => hkey

/-- What the call leaves under its key. -/
def value : TableCall → Option VData
  | .put _ v | .putRaw _ v _ => some v
  | .delete _ => none

/-- Values are shorter than 2^32 bytes. A raw entry also has a key of less than 256 bytes, as its
length is one byte. -/
def WellFormed : TableCall → Prop
  | .put _ v => v.value.length < 2 ^ 32
  | .putRaw _ v _ => v.Fits
  | .delete _ => True

end TableCall

/-- The last call for the key that has not failed determines what is there. -/
def lastWritten (history : List (TableCall × Option StorageError)) (hkey : UInt64) : Option VData :=
  (history.reverse.find? fun call => call.2 = none ∧ call.1.hkey = hkey).bind (·.1.value)

theorem lastWritten_failed (history : List (TableCall × Option StorageError)) (call : TableCall) (e : StorageError) :
    lastWritten (history ++ [(call, some e)]) = lastWritten history := by
  funext hkey
  simp [lastWritten]

theorem lastWritten_done (history : List (TableCall × Option StorageError)) (call : TableCall) :
    lastWritten (history ++ [(call, none)]) = Function.update (lastWritten history) call.hkey call.value := by
  funext hkey
  rcases Function.update_cases (lastWritten history) call.hkey call.value hkey with ⟨rfl, same⟩ | ⟨differs, same⟩
  · rw [same]
    simp [lastWritten]
  · rw [same]
    simp [lastWritten, Ne.symm differs]

namespace Table

/-- A call that returns an error leaves the table as it is. -/
def settle (t : Table) : Except StorageError Table → Table × Option StorageError
  | .ok stored => (stored, none)
  | .error e => (t, some e)

def perform (t : Table) : TableCall → Table × Option StorageError
  | .put hkey value => t.settle (t.put hkey value)
  | .putRaw hkey entry rest => t.settle (t.putRaw hkey (entry.encode ++ rest))
  | .delete hkey => ((t.delete hkey).2, none)

/-- A new table of any size and all calls for it, with what they return. -/
def system : Transitions Table (TableCall × Option StorageError) where
  init t := ∃ mmapOk size, newTable mmapOk size = .ok t
  step t call t' := call.1.WellFormed ∧ t.perform call.1 = (t', call.2)

variable {t stored : Table} {hkey hkey' : UInt64} {start start' : Nat} {v v' : VData}

theorem settle_cases {result : Except StorageError Table} {err : Option StorageError}
    (run : t.settle result = (stored, err)) :
    result = .ok stored ∧ err = none ∨ stored = t ∧ ∃ e, result = .error e ∧ err = some e := by
  cases result with
  | ok _ =>
    cases run
    exact .inl ⟨rfl, rfl⟩
  | error e =>
    cases run
    exact .inr ⟨rfl, e, rfl, rfl⟩

/-- The entries of different keys have no byte in common. -/
def Apart (t : Table) : Prop :=
  ∀ ⦃hkey hkey' start start' v v'⦄, hkey ≠ hkey' → t.hkeys.lookup hkey = some start →
    t.hkeys.lookup hkey' = some start' →
    t.EntryAt start v → t.EntryAt start' v' → start + v.encode.length ≤ start' ∨ start' + v'.encode.length ≤ start

theorem Apart.disjoint (apart : t.Apart) (differs : hkey ≠ hkey') (here : t.hkeys.lookup hkey = some start)
    (there : t.hkeys.lookup hkey' = some start') (entry : t.EntryAt start v) (entry' : t.EntryAt start' v') :
    Disjoint (Set.Ico start (start + v.encode.length)) (Set.Ico start' (start' + v'.encode.length)) := by
  rw [Set.Ico_disjoint_Ico]
  rcases apart differs here there entry entry' with before | after <;> omega

theorem EntryAt.eq_of_lookup (here : t.hkeys.lookup hkey = some start) (entry : t.EntryAt start v)
    (entry' : t.EntryAt start v') : v = v' :=
  Option.some.inj ((get_of_entry here entry).symm.trans (get_of_entry here entry'))

theorem newTable_apart {mmapOk : Bool} {size : Int} (run : newTable mmapOk size = .ok t) : t.Apart := by
  intro hkey _ start _ v _ _ here _ _ _
  have empty : t.get hkey = none := congrFun (newTable_spec run).2 hkey
  have absent := get_eq_none_iff.1 empty
  rw [Finmap.lookup_eq_none.2 absent] at here
  cases here

theorem Apart.delete (apart : t.Apart) (hkey : UInt64) : (t.delete hkey).2.Apart := by
  have earlier {other : UInt64} {start : Nat} (there : (t.delete hkey).2.hkeys.lookup other = some start) :
      t.hkeys.lookup other = some start := by
    rw [delete_lookup] at there
    split at there
    · cases there
    · exact there
  have same {start : Nat} {v : VData} (entry : (t.delete hkey).2.EntryAt start v) : t.EntryAt start v := by
    have below := entry.below
    have bytes := entry.bytes
    rw [delete_offset] at below
    rw [delete_memory] at bytes
    exact ⟨entry.fits, below, bytes⟩
  intro _ _ _ _ _ _ differs here there entry entry'
  exact apart differs (earlier here) (earlier there) (same entry) (same entry')

/-- A new entry begins where all the others have ended. -/
theorem Apart.store (apart : t.Apart) (valid : t.Valid) (hkey : UInt64) (inuse : Int) (bytes : Bytes) :
    ({ t with hkeys := t.hkeys.insert hkey t.offset, inuse := inuse }.append bytes).Apart := by
  set stored := { t with hkeys := t.hkeys.insert hkey t.offset, inuse := inuse }.append bytes with store
  have atOther {other : UInt64} (ne : other ≠ hkey) : stored.hkeys.lookup other = t.hkeys.lookup other :=
    Finmap.lookup_insert_of_ne _ ne
  have atKey : stored.hkeys.lookup hkey = some t.offset := Finmap.lookup_insert _
  -- What is an entry of another key now has been one before.
  have earlier {other : UInt64} {start : Nat} {v : VData} (ne : other ≠ hkey)
    (there : stored.hkeys.lookup other = some start)
      (entry : stored.EntryAt start v) : t.hkeys.lookup other = some start ∧ t.EntryAt start v := by
    have before := (atOther ne).symm.trans there
    obtain ⟨w, old⟩ := valid.entries before
    have kept := old.append bytes
    obtain rfl : w = v := EntryAt.eq_of_lookup there ⟨kept.fits, kept.below, kept.bytes⟩ entry
    exact ⟨before, old⟩
  intro key key' start start' v v' differs here there entry entry'
  by_cases new : key = hkey
  · subst new
    obtain rfl : t.offset = start := Option.some.inj (atKey.symm.trans here)
    exact .inr (earlier differs.symm there entry').2.below
  · by_cases new' : key' = hkey
    · subst new'
      obtain rfl : t.offset = start' := Option.some.inj (atKey.symm.trans there)
      exact .inl (earlier new here entry).2.below
    · obtain ⟨here, entry⟩ := earlier new here entry
      obtain ⟨there, entry'⟩ := earlier new' there entry'
      exact apart differs here there entry entry'

theorem Apart.put (apart : t.Apart) (valid : t.Valid) (run : t.put hkey v = .ok stored) : stored.Apart := by
  obtain ⟨small, room⟩ := put_ok run
  rw [put_eq small room] at run
  cases Except.ok.inj run
  exact (apart.delete hkey).store (valid.delete hkey) hkey _ _

theorem Apart.putRaw {raw : Bytes} (apart : t.Apart) (valid : t.Valid) (run : t.putRaw hkey raw = .ok stored) :
    stored.Apart := by
  obtain ⟨_, rfl⟩ := putRaw_ok run
  exact apart.store valid hkey _ _

theorem put_error {e : StorageError} (run : t.put hkey v = .error e) : e = .keyTooLarge ∨ e = .notEnoughSpace := by
  unfold Table.put at run
  split at run
  · exact .inl (Except.error.inj run).symm
  · dsimp only at run
    split at run
    · exact .inr (Except.error.inj run).symm
    · cases run

theorem putRaw_error {raw : Bytes} {e : StorageError} (run : t.putRaw hkey raw = .error e) : e = .notEnoughSpace := by
  unfold Table.putRaw at run
  dsimp only at run
  split at run
  · exact (Except.error.inj run).symm
  · cases run

/-- One call: it does what it is for, or it fails and changes nothing. -/
theorem perform_spec {call : TableCall} {err : Option StorageError} (valid : t.Valid) (apart : t.Apart)
    (formed : call.WellFormed) (run : t.perform call = (stored, err)) :
    stored.Valid ∧ stored.Apart ∧
      (err = none ∧ stored.get = Function.update t.get call.hkey call.value ∨
        stored = t ∧ (err = some .keyTooLarge ∨ err = some .notEnoughSpace)) := by
  cases call with
  | put hkey v =>
    rcases settle_cases run with ⟨done, rfl⟩ | ⟨rfl, e, failed, rfl⟩
    · obtain ⟨_, valid', get⟩ := put_spec valid formed done
      exact ⟨valid', apart.put valid done, .inl ⟨rfl, get⟩⟩
    · exact ⟨valid, apart, .inr ⟨rfl, (put_error failed).imp (congrArg some) (congrArg some)⟩⟩
  | putRaw hkey v rest =>
    rcases settle_cases run with ⟨done, rfl⟩ | ⟨rfl, e, failed, rfl⟩
    · obtain ⟨valid', get⟩ := putRaw_spec valid formed done
      exact ⟨valid', apart.putRaw valid done, .inl ⟨rfl, get⟩⟩
    · exact ⟨valid, apart, .inr ⟨rfl, .inr (congrArg some (putRaw_error failed))⟩⟩
  | delete hkey =>
    cases run
    exact ⟨valid.delete hkey, apart.delete hkey, .inl ⟨rfl, delete_get t hkey⟩⟩

/-- A table is valid, its entries are apart, and it has what the calls so far have written. -/
structure Holds (history : List (TableCall × Option StorageError)) (t : Table) : Prop where
  valid : t.Valid
  apart : t.Apart
  contents : t.get = lastWritten history

theorem Holds.step {history : List (TableCall × Option StorageError)} {call : TableCall × Option StorageError}
    (holds : t.Holds history) (step : system.step t call stored) : stored.Holds (history ++ [call]) := by
  obtain ⟨formed, run⟩ := step
  obtain ⟨call, err⟩ := call
  obtain ⟨valid, apart, ⟨rfl, get⟩ | ⟨rfl, failed⟩⟩ := perform_spec holds.valid holds.apart formed run
  · refine ⟨valid, apart, ?_⟩
    rw [get, lastWritten_done, holds.contents]
  · refine ⟨valid, apart, ?_⟩
    rcases failed with rfl | rfl <;> rw [lastWritten_failed, holds.contents]

theorem holds_of_run {history : List (TableCall × Option StorageError)} (run : system.AnyRun history t) :
    t.Holds history := by
  refine run.history_invariant (fun history t => t.Holds history) ?_ ?_
  · rintro t ⟨mmapOk, size, created⟩
    exact ⟨(newTable_spec created).1, newTable_apart created, (newTable_spec created).2⟩
  · intro history t call t' holds _ step
    exact holds.step step

end Table

/-- After any calls the entries of a table lie in its used part and apart from each other, and it has
what was written last under each key. A call that fails changes nothing. -/
theorem table_refines_map {history : List (TableCall × Option StorageError)} {t : Table}
    (run : Table.system.AnyRun history t) :
    t.offset < t.allocated ∧ t.allocated = t.memory.size ∧
      (∀ hkey, t.get hkey = lastWritten history hkey) ∧
      (∀ hkey start, t.hkeys.lookup hkey = some start → ∃ v, t.get hkey = some v ∧
        start + v.encode.length ≤ t.offset ∧ t.memory.slice start v.encode.length = v.encode) ∧
      (∀ hkey hkey' start start' v v', hkey ≠ hkey' → t.hkeys.lookup hkey = some start →
        t.hkeys.lookup hkey' = some start' → t.get hkey = some v → t.get hkey' = some v' →
        Disjoint (Set.Ico start (start + v.encode.length)) (Set.Ico start' (start' + v'.encode.length))) ∧
      ∀ call e t', Table.system.step t (call, some e) t' → t' = t ∧ (e = .keyTooLarge ∨ e = .notEnoughSpace) := by
  have holds := Table.holds_of_run run
  refine ⟨holds.valid.room, holds.valid.size.symm, congrFun holds.contents, fun hkey start here => ?_,
    fun hkey hkey' start start' v v' differs here there got got' => ?_, fun call e t' step => ?_⟩
  · obtain ⟨v, entry⟩ := holds.valid.entries here
    exact ⟨v, Table.get_of_entry here entry, entry.below, entry.bytes⟩
  · have entry {key : UInt64} {at' : Nat} {w : VData} (found : t.hkeys.lookup key = some at')
        (got : t.get key = some w) :
        t.EntryAt at' w := by
      obtain ⟨at'', found', entry⟩ := holds.valid.entry_of_get got
      cases found.symm.trans found'
      exact entry
    exact holds.apart.disjoint differs here there (entry here got) (entry there got')
  · obtain ⟨formed, done⟩ := step
    obtain ⟨_, _, ⟨wrong, _⟩ | ⟨same, failed⟩⟩ := Table.perform_spec holds.valid holds.apart formed done
    · cases wrong
    · exact ⟨same, by simpa using failed⟩

/-- A put and a raw put under two keys, and a put whose key is too large. -/
theorem table_refines_map_two : ∃ history t, Table.system.AnyRun history t ∧ history.length = 3 ∧
    t.get 1 = some ⟨[97], -5, [1, 2]⟩ ∧ t.get 2 = some ⟨[98], 9, [3]⟩ ∧ t.get 3 = none ∧ t.offset < t.allocated := by
  obtain ⟨t₀, created, offset, size⟩ : ∃ t₀, newTable true 0 = .ok t₀ ∧ t₀.offset = 0 ∧ t₀.allocated = 1048576 :=
    ⟨_, rfl, rfl, rfl⟩
  have start : Table.system.AnyRun [] t₀ := .start ⟨true, 0, created⟩
  obtain ⟨t₁, put, offset₁, size₁⟩ := Table.put_fits (t := t₀) (v := ⟨[97], -5, [1, 2]⟩) 1 (by decide)
    (by rw [VData.encode_length, offset, size]; decide)
  have first :=
    start.andThen (.put 1 ⟨[97], -5, [1, 2]⟩, none) ⟨show 2 < 2 ^ 32 by decide, by rw [Table.perform, put]; rfl⟩
  obtain ⟨t₂, raw⟩ : ∃ t₂, t₁.putRaw 2 (VData.encode ⟨[98], 9, [3]⟩ ++ [0]) = .ok t₂ := by
    refine ⟨_, if_neg ?_⟩
    rw [List.length_append, VData.encode_length, size₁, offset₁, size, offset, VData.encode_length]
    decide
  have second :=
    first.andThen (.putRaw 2 ⟨[98], 9, [3]⟩ [0], none) ⟨⟨by decide, by decide⟩, by rw [Table.perform, raw]; rfl⟩
  have large : t₂.put 3 ⟨List.replicate 256 0, 0, []⟩ = .error .keyTooLarge :=
    if_pos (by rw [List.length_replicate]; decide)
  have third := second.andThen (.put 3 ⟨List.replicate 256 0, 0, []⟩, some .keyTooLarge)
    ⟨show 0 < 2 ^ 32 by decide, by rw [Table.perform, large]; rfl⟩
  obtain ⟨room, _, contents, _⟩ := table_refines_map third
  refine ⟨_, t₂, third, rfl, ?_, ?_, ?_, room⟩
  · rw [contents]; rfl
  · rw [contents]; rfl
  · rw [contents]; rfl

end Olric
