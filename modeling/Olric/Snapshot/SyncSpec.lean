import Olric.Snapshot.SnapshotSpec

namespace Olric

/-- A batch that has been made from a store and the hkeys of a dmap by operations of an oplog. -/
structure Batch.From (db : Badger) (hkeys : Finset UInt64) (log : OpLog) (wb : Batch) : Prop where
  outside : ∀ key, (∀ hkey ∈ log.m, key ≠ bkey hkey) → wb.db key = db key
  listed : ∀ hkey ∈ wb.hkeys, hkey ∈ hkeys ∨ hkey ∈ log.m
  kept : ∀ hkey ∈ wb.hkeys, (∃ val, wb.db (bkey hkey) = some (.raw val)) ∨
    hkey ∈ hkeys ∧ wb.db (bkey hkey) = db (bkey hkey)
  values : ∀ hkey, wb.db (bkey hkey) = db (bkey hkey) ∨ wb.db (bkey hkey) = none ∨
    ∃ val, log.str.getRaw hkey = .ok (.ok val) ∧ wb.db (bkey hkey) = some (.raw val)
  failed : ∀ e ∈ wb.failed, e.1 ∈ log.m

namespace Batch

variable {db : Badger} {hkeys : Finset UInt64} {log : OpLog} {wb : Batch} {hkey : UInt64}

theorem from_start : Batch.From db hkeys log ⟨db, hkeys, []⟩ where
  outside _ _ := rfl
  listed _ mem := .inl mem
  kept _ mem := .inr ⟨mem, rfl⟩
  values _ := .inl rfl
  failed _ mem := by cases mem

theorem From.fail (made : wb.From db hkeys log) (logged : hkey ∈ log.m) (op : LogOp) :
    (wb.fail hkey op).From db hkeys log where
  outside := made.outside
  listed := made.listed
  kept := made.kept
  values := made.values
  failed e mem := by
    rcases List.mem_append.1 mem with old | new
    · exact made.failed e old
    · cases List.mem_singleton.1 new
      exact logged

theorem From.set (made : wb.From db hkeys log) (logged : hkey ∈ log.m) {val : Bytes}
    (stored : log.str.getRaw hkey = .ok (.ok val)) :
    Batch.From db hkeys log { wb with db := wb.db.set (bkey hkey) (.raw val), hkeys := insert hkey wb.hkeys } where
  outside key ne := by
    dsimp only [Badger.set]
    rw [Function.update_of_ne (ne hkey logged)]
    exact made.outside key ne
  listed other mem := by
    rcases Finset.mem_insert.1 mem with rfl | old
    · exact .inr logged
    · exact made.listed other old
  kept other mem := by
    by_cases same : other = hkey
    · subst same
      exact .inl ⟨val, Function.update_self ..⟩
    · have ne : bkey other ≠ bkey hkey := fun eq => same (bkey_injective eq)
      simp only [Badger.set, Function.update_of_ne ne]
      exact made.kept other ((Finset.mem_insert.1 mem).resolve_left same)
  values other := by
    by_cases same : other = hkey
    · subst same
      exact .inr (.inr ⟨val, stored, Function.update_self ..⟩)
    · have ne : bkey other ≠ bkey hkey := fun eq => same (bkey_injective eq)
      simp only [Badger.set, Function.update_of_ne ne]
      exact made.values other
  failed := made.failed

theorem From.delete (made : wb.From db hkeys log) (logged : hkey ∈ log.m) :
    Batch.From db hkeys log { wb with db := wb.db.delete (bkey hkey), hkeys := wb.hkeys.erase hkey } where
  outside key ne := by
    dsimp only [Badger.delete]
    rw [Function.update_of_ne (ne hkey logged)]
    exact made.outside key ne
  listed other mem := made.listed other (Finset.mem_of_mem_erase mem)
  kept other mem := by
    have ne : bkey other ≠ bkey hkey := fun eq => Finset.ne_of_mem_erase mem (bkey_injective eq)
    simp only [Badger.delete, Function.update_of_ne ne]
    exact made.kept other (Finset.mem_of_mem_erase mem)
  values other := by
    by_cases same : other = hkey
    · subst same
      exact .inr (.inl (Function.update_self ..))
    · have ne : bkey other ≠ bkey hkey := fun eq => same (bkey_injective eq)
      simp only [Badger.delete, Function.update_of_ne ne]
      exact made.values other
  failed := made.failed

/-- What becomes of a logged operation: it is in the batch, it is to be logged again, or it was a put
of a key that is not in the storage any more. -/
inductive Adds (str : Storage) (wb : Batch) (hkey : UInt64) : LogOp → Bool → Batch → Prop
  | put {val : Bytes} (read : str.getRaw hkey = .ok (.ok val)) :
      Adds str wb hkey .put true { wb with db := wb.db.set (bkey hkey) (.raw val), hkeys := insert hkey wb.hkeys }
  | delete : Adds str wb hkey .delete true { wb with db := wb.db.delete (bkey hkey), hkeys := wb.hkeys.erase hkey }
  | missing {ok : Bool} (read : str.getRaw hkey = .ok (.error .keyNotFound)) : Adds str wb hkey .put ok wb
  | failed {op : LogOp} {ok : Bool} : Adds str wb hkey op ok (wb.fail hkey op)

theorem add_adds {wb' : Batch} {accepts : UInt64 → Bool} {str : Storage} {op : LogOp}
    (run : wb.add str accepts hkey op = .ok wb') : Adds str wb hkey op (accepts hkey) wb' := by
  cases op with
  | put =>
    rw [Batch.add] at run
    cases read : str.getRaw hkey with
    | error halt =>
      rw [read] at run
      cases run
    | ok answer =>
      rw [read] at run
      cases answer with
      | ok val =>
        dsimp only [bind, Except.bind] at run
        split at run <;> rename_i taken <;> cases run
        · rw [taken]
          exact .put read
        · exact .failed
      | error e =>
        cases e with
        | keyNotFound =>
          cases run
          exact .missing read
        | notEnoughSpace | keyTooLarge | fragmented | mmap =>
          cases run
          exact .failed
  | delete =>
    rw [Batch.add] at run
    split at run <;> rename_i taken <;> cases run
    · rw [taken]
      exact .delete
    · exact .failed

theorem From.add {wb' : Batch} {accepts : UInt64 → Bool} {op : LogOp} (made : wb.From db hkeys log)
    (logged : hkey ∈ log.m) (run : wb.add log.str accepts hkey op = .ok wb') : wb'.From db hkeys log := by
  have adds := add_adds run
  generalize accepts hkey = ok at adds
  cases adds with
  | put read => exact made.set logged read
  | delete => exact made.delete logged
  | missing => exact made
  | failed => exact made.fail logged op

theorem From.addAll {wb' : Batch} {accepts : UInt64 → Bool} {ops : List (Sigma fun _ : UInt64 => LogOp)}
    (made : wb.From db hkeys log) (logged : ∀ e ∈ ops, e.1 ∈ log.m)
    (run : wb.addAll log.str accepts ops = .ok wb') : wb'.From db hkeys log := by
  induction ops generalizing wb with
  | nil =>
    cases run
    exact made
  | cons e ops ih =>
    rw [Batch.addAll] at run
    cases first : wb.add log.str accepts e.1 e.2 with
    | error halt =>
      rw [first] at run
      cases run
    | ok mid =>
      rw [first] at run
      exact ih (made.add (logged e (.head _)) first) (fun other mem => logged other (.tail _ mem)) run

end Batch

section

variable {db db' : Badger} {partID : UInt64} {name : Bytes} {log : OpLog} {out : SyncOutcome}
  {failed : List (UInt64 × LogOp)}

/-- A sync leaves the store as it is or flushes a batch, with the new record of hkeys or, if Badger
does not take it, without. -/
theorem syncDMap_cases (run : syncDMap db partID name log out = .ok (db', failed)) :
    (∀ e ∈ failed, e.1 ∈ log.m) ∧ (db' = db ∧ (log.m.entries = [] ∨ out.view = false ∨ out.flush = false ∨
      ∃ e, db.hkeysOrNew partID name = .error e) ∨
      ∃ hkeys, ∃ wb : Batch, db.hkeysOrNew partID name = .ok hkeys ∧ wb.From db hkeys log ∧
        (out.record = true ∧ db' = wb.db.set (dmapKey partID name) (.hkeys wb.hkeys) ∨
          out.record = false ∧ db' = wb.db)) := by
  unfold syncDMap at run
  split at run
  · rename_i idle
    cases run
    refine ⟨by simp, .inl ⟨rfl, ?_⟩⟩
    rcases idle with none | unread
    · exact .inl none
    · exact .inr (.inl (by simpa using unread))
  · split at run
    · rename_i e unread
      cases run
      exact ⟨by simp, .inl ⟨rfl, .inr (.inr (.inr ⟨e, unread⟩))⟩⟩
    · rename_i hkeys found
      cases added : Batch.addAll log.str out.accepts ⟨db, hkeys, []⟩ log.m.entries with
      | error halt =>
        rw [added] at run
        cases run
      | ok wb =>
        have logged : ∀ e ∈ log.m.entries, e.1 ∈ log.m := fun e mem => List.mem_map_of_mem mem
        have made := Batch.from_start.addAll logged added
        rw [added] at run
        dsimp only [bind, Except.bind] at run
        split at run <;> rename_i recorded
        · cases run
          refine ⟨made.failed, ?_⟩
          split
          · exact .inr ⟨hkeys, wb, found, made, .inl ⟨recorded, rfl⟩⟩
          · rename_i unflushed
            exact .inl ⟨rfl, .inr (.inr (.inl (by simpa using unflushed)))⟩
        · cases run
          refine ⟨?_, ?_⟩
          · intro e mem
            obtain ⟨entry, listed, rfl⟩ := List.mem_map.1 mem
            exact logged entry listed
          · split
            · exact .inr ⟨hkeys, wb, found, made, .inr ⟨by simpa using recorded, rfl⟩⟩
            · rename_i unflushed
              exact .inl ⟨rfl, .inr (.inr (.inl (by simpa using unflushed)))⟩

/-- A sync changes the record of hkeys and the values of logged hkeys only. -/
theorem syncDMap_frame (run : syncDMap db partID name log out = .ok (db', failed)) {key : Bytes}
    (record : key ≠ dmapKey partID name) (values : ∀ hkey ∈ log.m, key ≠ bkey hkey) : db' key = db key := by
  rcases (syncDMap_cases run).2 with ⟨rfl, _⟩ | ⟨hkeys, wb, _, made, ⟨_, rfl⟩ | ⟨_, rfl⟩⟩
  · rfl
  · rw [Badger.set, Function.update_of_ne record]
    exact made.outside key values
  · exact made.outside key values

theorem OpLog.mem_relog {hkey : UInt64} (mem : hkey ∈ (log.relog failed).m) :
    hkey ∈ log.m ∨ ∃ e ∈ failed, e.1 = hkey := by
  unfold OpLog.relog at mem
  dsimp only at mem
  induction failed generalizing log with
  | nil => exact .inl mem
  | cons e failed ih =>
    rw [List.foldl_cons] at mem
    let log' : OpLog := { log with m := if e.1 ∈ log.m then log.m else log.m.insert e.1 e.2 }
    rcases @ih log' mem with old | ⟨e', listed, same⟩
    · dsimp only [log'] at old
      split at old
      · exact .inl old
      · rcases (AList.mem_insert _).1 old with same | old
        · exact .inr ⟨e, .head _, same.symm⟩
        · exact .inl old
    · exact .inr ⟨e', .tail _ listed, same⟩

end

end Olric
