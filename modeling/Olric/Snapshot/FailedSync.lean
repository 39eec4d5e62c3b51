import Olric.Snapshot.SyncSpec

namespace Olric

/-- How far the worker has got with a dmap. `returned` is what `syncDMap` returns to be logged again. -/
inductive RoundPhase
  | drained
  | adding (todo : List (UInt64 × LogOp)) (wb : Batch)
  | flushing (store : Badger) (returned : List (UInt64 × LogOp))
  | relogging (returned : List (UInt64 × LogOp))
  | done

/-- The operations that are to be logged again, as far as they are known. -/
def RoundPhase.returned : RoundPhase → List (UInt64 × LogOp)
  | .drained | .done => []
  | .adding _ wb => wb.failed
  | .flushing _ returned | .relogging returned => returned

/-- A sync round of a dmap: the storage and the oplog, which others use meanwhile, the operations
that have been taken from the oplog, and the store. -/
structure SyncRound where
  str : Storage
  log : Finmap fun _ : UInt64 => LogOp
  wcopy : List (UInt64 × LogOp)
  db : Badger
  phase : RoundPhase

/-- The steps of the worker carry the outcome of the call that they make. -/
inductive RoundLabel
  | change (str : Storage)
  | log (hkey : UInt64) (op : LogOp)
  | view (ok : Bool)
  | put (hkey : UInt64) (reply : Except StorageError Bytes) (ok : Bool)
  | delete (hkey : UInt64) (ok : Bool)
  | record (ok : Bool)
  | flush (ok : Bool)
  | relog

namespace SyncRound

variable (partID : UInt64) (name : Bytes)

/-- Every call of Badger may fail, and so may the decoding of the hkeys. A flush that fails may have
committed a part of the batch. -/
inductive Step : SyncRound → RoundLabel → SyncRound → Prop
  | change {s str} : Step s (.change str) { s with str }
  | log {s hkey op} : Step s (.log hkey op) { s with log := s.log.insert hkey op }
  | viewed {s hkeys} (drained : s.phase = .drained) (read : s.db.hkeysOrNew partID name = .ok hkeys) :
      Step s (.view true) { s with phase := .adding s.wcopy ⟨s.db, hkeys, []⟩ }
  | unread {s} (drained : s.phase = .drained) : Step s (.view false) { s with phase := .done }
  | put {s hkey todo wb reply ok wb'} (adding : s.phase = .adding ((hkey, .put) :: todo) wb)
      (read : s.str.getRaw hkey = .ok reply) (added : wb.add s.str (fun _ => ok) hkey .put = .ok wb') :
      Step s (.put hkey reply ok) { s with phase := .adding todo wb' }
  | delete {s hkey todo wb ok wb'} (adding : s.phase = .adding ((hkey, .delete) :: todo) wb)
      (added : wb.add s.str (fun _ => ok) hkey .delete = .ok wb') :
      Step s (.delete hkey ok) { s with phase := .adding todo wb' }
  | recorded {s wb} (adding : s.phase = .adding [] wb) :
      Step s (.record true) { s with phase := .flushing (wb.db.set (dmapKey partID name) (.hkeys wb.hkeys)) wb.failed
          }
  | unrecorded {s wb} (adding : s.phase = .adding [] wb) :
      Step s (.record false) { s with phase := .flushing wb.db s.wcopy }
  | flushed {s store returned} (flushing : s.phase = .flushing store returned) :
      Step s (.flush true) { s with db := store, phase := .relogging returned }
  | unflushed {s store returned db} (flushing : s.phase = .flushing store returned)
      (partly : ∀ key, db key = s.db key ∨ db key = store key) :
      Step s (.flush false) { s with db, phase := .relogging returned }
  | relog {s returned} (relogging : s.phase = .relogging returned) :
      Step s .relog { s with
        log := returned.foldl (fun log e => if e.1 ∈ log then log else log.insert e.1 e.2) s.log
        phase := .done }

/-- The round starts with what the oplog had in it, whatever it was. -/
def system : Transitions SyncRound RoundLabel where
  init s := s.phase = .drained ∧ s.log = ∅ ∧ (s.wcopy.map Prod.fst).Nodup ∧ s.wcopy ≠ []
  step := Step partID name

/-- The hkeys can be read, and a flush fails only if everything is to be logged again. -/
def KeepsCopy (s : SyncRound) : RoundLabel → Prop
  | .view ok => ok = true
  | .flush ok => ok = true ∨ ∀ store returned, s.phase = .flushing store returned → ∀ e ∈ s.wcopy, e ∈ returned
  | _ => True

/-- The operation is on disk: the value that was read for a put is there and listed, that of a
delete is not. -/
def Durable (db : Badger) (labels : List RoundLabel) (hkey : UInt64) : LogOp → Prop
  | .put => ∃ val hkeys, .put hkey (.ok val) true ∈ labels ∧ db (bkey hkey) = some (.raw val) ∧
      db.hkeys partID name = .ok hkeys ∧ hkey ∈ hkeys
  | .delete => ∃ hkeys, db (bkey hkey) = none ∧ db.hkeys partID name = .ok hkeys ∧ hkey ∉ hkeys

/-- A put of a key that is not in memory any more. -/
def Missing (labels : List RoundLabel) (hkey : UInt64) (op : LogOp) : Prop :=
  op = .put ∧ ∃ ok, .put hkey (.error .keyNotFound) ok ∈ labels

/-- The operation, or one that has been logged during the round, is in the oplog. -/
def Relogged (log : Finmap fun _ : UInt64 => LogOp) (labels : List RoundLabel) (hkey : UInt64) (op : LogOp) : Prop :=
  ∃ op', log.lookup hkey = some op' ∧ (op' = op ∨ .log hkey op' ∈ labels)

variable {partID : UInt64} {name : Bytes}

/-- A batch that is made while nobody else acts. -/
theorem addAll_runs {s : SyncRound} {labels : List RoundLabel} {accepts : UInt64 → Bool} {wb wb' : Batch}
    (ops : List (Sigma fun _ : UInt64 => LogOp)) (added : wb.addAll s.str accepts ops = .ok wb')
    (run : (system partID name).AnyRun labels { s with phase := .adding (ops.map fun e => (e.1, e.2)) wb }) :
    ∃ labels', (system partID name).AnyRun labels' { s with phase := .adding [] wb' } := by
  induction ops generalizing wb labels with
  | nil =>
    cases added
    exact ⟨labels, run⟩
  | cons e ops ih =>
    obtain ⟨hkey, op⟩ := e
    rw [Batch.addAll] at added
    cases first : wb.add s.str accepts hkey op with
    | error halt =>
      rw [first] at added
      cases added
    | ok mid =>
      rw [first] at added
      have alike : wb.add s.str (fun _ => accepts hkey) hkey op = .ok mid := by
        cases op <;> exact first
      cases op with
      | put =>
        cases read : s.str.getRaw hkey with
        | error halt =>
          rw [Batch.add, read] at first
          cases first
        | ok reply => exact ih added (run.andThen (.put hkey reply (accepts hkey)) (.put rfl read alike))
      | delete => exact ih added (run.andThen (.delete hkey (accepts hkey)) (.delete rfl alike))

/-- `syncDMap` as a whole is a round in which nobody else acts. -/
theorem syncDMap_runs {db db' : Badger} {log : OpLog} {out : SyncOutcome} {failed : List (UInt64 × LogOp)}
    (busy : log.m.entries ≠ []) (run : syncDMap db partID name log out = .ok (db', failed)) :
    ∃ labels s, (system partID name).AnyRun labels s ∧ s.db = db' ∧
      s.wcopy = (log.m.entries.map fun e => (e.1, e.2)) ∧
      (s.phase = .relogging failed ∨ s.phase = .done ∧ failed = []) := by
  let start : SyncRound := ⟨log.str, ∅, log.m.entries.map fun e => (e.1, e.2), db, .drained⟩
  have nodup : (start.wcopy.map Prod.fst).Nodup := by
    rw [List.map_map]
    exact log.m.nodupKeys
  have started : (system partID name).AnyRun [] start := .start ⟨rfl, rfl, nodup, by simpa [start] using busy⟩
  have lost := started.andThen (.view false) (.unread rfl)
  unfold syncDMap at run
  split at run
  · cases run
    exact ⟨_, _, lost, rfl, rfl, .inr ⟨rfl, rfl⟩⟩
  · split at run
    · cases run
      exact ⟨_, _, lost, rfl, rfl, .inr ⟨rfl, rfl⟩⟩
    next hkeys read =>
      cases added : Batch.addAll log.str out.accepts ⟨db, hkeys, []⟩ log.m.entries with
      | error halt =>
        rw [added] at run
        cases run
      | ok wb =>
        rw [added] at run
        dsimp only [bind, Except.bind] at run
        obtain ⟨labels, batch⟩ :=
          addAll_runs (s := start) log.m.entries added (started.andThen (.view true) (.viewed rfl read))
        have flushes {store : Badger} {returned : List (UInt64 × LogOp)} {labels : List RoundLabel}
            (recorded : (system partID name).AnyRun labels { start with phase := .flushing store returned }) :
            ∃ labels', (system partID name).AnyRun labels'
              { start with db := if out.flush then store else db, phase := .relogging returned } := by
          cases out.flush with
          | true => exact ⟨_, recorded.andThen (.flush true) (.flushed rfl)⟩
          | false => exact ⟨_, recorded.andThen (.flush false) (.unflushed rfl fun _ => .inl rfl)⟩
        split at run
        · cases run
          obtain ⟨labels', ended⟩ := flushes (batch.andThen (.record true) (.recorded rfl))
          exact ⟨labels', _, ended, rfl, rfl, .inl rfl⟩
        · cases run
          obtain ⟨labels', ended⟩ := flushes (batch.andThen (.record false) (.unrecorded rfl))
          exact ⟨labels', _, ended, rfl, rfl, .inl rfl⟩

/-- The operation is in the batch. -/
def InBatch (wb : Batch) (labels : List RoundLabel) (hkey : UInt64) : LogOp → Prop
  | .put => ∃ val, .put hkey (.ok val) true ∈ labels ∧ wb.db (bkey hkey) = some (.raw val) ∧ hkey ∈ wb.hkeys
  | .delete => wb.db (bkey hkey) = none ∧ hkey ∉ wb.hkeys

/-- What is known of the operations that have been taken, at each point. -/
def Accounted (partID : UInt64) (name : Bytes) (labels : List RoundLabel) (s : SyncRound) : Prop :=
  match s.phase with
  | .drained => True
  | .adding todo wb => ∃ before, s.wcopy = before ++ todo ∧
      ∀ e ∈ before, InBatch wb labels e.1 e.2 ∨ Missing labels e.1 e.2 ∨ e ∈ wb.failed
  | .flushing store returned => ∀ e ∈ s.wcopy,
      Durable partID name store labels e.1 e.2 ∨ Missing labels e.1 e.2 ∨ e ∈ returned
  | .relogging returned => ∀ e ∈ s.wcopy,
      Durable partID name s.db labels e.1 e.2 ∨ Missing labels e.1 e.2 ∨ e ∈ returned
  | .done => ∀ e ∈ s.wcopy,
      Durable partID name s.db labels e.1 e.2 ∨ Missing labels e.1 e.2 ∨ Relogged s.log labels e.1 e.2

section

variable {labels : List RoundLabel} {label : RoundLabel} {hkey : UInt64} {op : LogOp} {db : Badger} {wb wb' : Batch}
  {log : Finmap fun _ : UInt64 => LogOp} {str : Storage} {ok : Bool}

theorem Missing.later (missing : Missing labels hkey op) : Missing (labels ++ [label]) hkey op :=
  ⟨missing.1, missing.2.imp fun _ mem => List.mem_append_left _ mem⟩

theorem Durable.later (durable : Durable partID name db labels hkey op) :
    Durable partID name db (labels ++ [label]) hkey op := by
  cases op with
  | put =>
    obtain ⟨val, hkeys, mem, rest⟩ := durable
    exact ⟨val, hkeys, List.mem_append_left _ mem, rest⟩
  | delete => exact durable

theorem InBatch.later (added : InBatch wb labels hkey op) : InBatch wb (labels ++ [label]) hkey op := by
  cases op with
  | put =>
    obtain ⟨val, mem, rest⟩ := added
    exact ⟨val, List.mem_append_left _ mem, rest⟩
  | delete => exact added

theorem Relogged.later (relogged : Relogged log labels hkey op) : Relogged log (labels ++ [label]) hkey op := by
  obtain ⟨op', found, origin⟩ := relogged
  exact ⟨op', found, origin.imp_right fun mem => List.mem_append_left _ mem⟩

/-- An operation on one hkey does not touch what the batch has for another. -/
theorem adds_other {other : UInt64} {op' : LogOp} (adds : wb.Adds str hkey op' ok wb') (differs : other ≠ hkey)
    (before : InBatch wb labels other op) : InBatch wb' labels other op := by
  have apart : bkey other ≠ bkey hkey := fun same => differs (bkey_injective same)
  cases adds with
  | put | delete =>
    cases op <;> simpa [InBatch, Badger.set, Badger.delete, Function.update_of_ne apart, differs] using before
  | missing | failed => exact before

theorem adds_failed {op' : LogOp} (adds : wb.Adds str hkey op' ok wb') {e : UInt64 × LogOp} (mem : e ∈ wb.failed) :
    e ∈ wb'.failed := by
  cases adds with
  | put | delete | missing => exact mem
  | failed => exact List.mem_append_left _ mem

/-- What has been logged meanwhile stays. -/
theorem relogOne_kept {e : UInt64 × LogOp} (found : log.lookup hkey = some op) :
    (if e.1 ∈ log then log else log.insert e.1 e.2).lookup hkey = some op := by
  split
  · exact found
  next absent =>
    have differs : hkey ≠ e.1 := by
      rintro rfl
      exact absent (Finmap.mem_iff.2 ⟨op, found⟩)
    rwa [Finmap.lookup_insert_of_ne _ differs]

theorem relog_kept {returned : List (UInt64 × LogOp)} (found : log.lookup hkey = some op) :
    (returned.foldl (fun log e => if e.1 ∈ log then log else log.insert e.1 e.2) log).lookup hkey = some op := by
  induction returned generalizing log with
  | nil => exact found
  | cons e returned ih => exact ih (relogOne_kept found)

theorem relog_relogged {returned : List (UInt64 × LogOp)} (listed : (hkey, op) ∈ returned)
    (once : ∀ op', (hkey, op') ∈ returned → op' = op)
    (logged : ∀ op', log.lookup hkey = some op' → .log hkey op' ∈ labels) :
    Relogged (returned.foldl (fun log e => if e.1 ∈ log then log else log.insert e.1 e.2) log) labels hkey op := by
  induction returned generalizing log with
  | nil => cases listed
  | cons e returned ih =>
    rw [List.foldl_cons]
    cases found : log.lookup hkey with
    | some op' => exact ⟨op', relog_kept (relogOne_kept found), .inr (logged op' found)⟩
    | none =>
      by_cases here : e.1 = hkey
      · subst here
        have same : e.2 = op := once e.2 List.mem_cons_self
        rw [if_neg (Finmap.lookup_eq_none.1 found)]
        exact ⟨op, relog_kept (by rw [Finmap.lookup_insert, same]), .inl rfl⟩
      · have listed := (List.mem_cons.1 listed).resolve_left fun same => here (by rw [← same])
        refine ih listed (fun op' mem => once op' (List.mem_cons_of_mem _ mem)) fun op' found' => ?_
        split at found'
        · exact logged op' found'
        · rw [Finmap.lookup_insert_of_ne _ (Ne.symm here)] at found'
          exact logged op' found'

end

/-- The invariant of a round. Up to its end, what is in the oplog has been logged during the round. -/
structure Inv (partID : UInt64) (name : Bytes) (labels : List RoundLabel) (s : SyncRound) : Prop where
  nodup : (s.wcopy.map Prod.fst).Nodup
  logged : s.phase ≠ .done → ∀ hkey op, s.log.lookup hkey = some op → .log hkey op ∈ labels
  taken : ∀ e ∈ s.phase.returned, e ∈ s.wcopy
  accounted : Accounted partID name labels s

section

variable {labels : List RoundLabel} {label : RoundLabel} {s s' : SyncRound}

/-- A step of others. -/
theorem Accounted.later (accounted : Accounted partID name labels s) (wcopy : s'.wcopy = s.wcopy) (db : s'.db = s.db)
    (phase : s'.phase = s.phase)
    (log : ∀ hkey op, Relogged s.log labels hkey op → Relogged s'.log (labels ++ [label]) hkey op) :
    Accounted partID name (labels ++ [label]) s' := by
  unfold Accounted at accounted ⊢
  rw [phase, wcopy, db]
  cases current : s.phase with
  | drained => trivial
  | adding todo wb =>
    rw [current] at accounted
    obtain ⟨before, split, added⟩ := accounted
    exact ⟨before, split, fun e mem => (added e mem).imp .later (.imp_left .later)⟩
  | flushing | relogging =>
    rw [current] at accounted
    exact fun e mem => (accounted e mem).imp .later (.imp_left .later)
  | done =>
    rw [current] at accounted
    exact fun e mem => (accounted e mem).imp .later (.imp .later (log e.1 e.2))

/-- The record of the hkeys does not touch the values. -/
theorem recorded_durable {hkey : UInt64} {op : LogOp} {wb : Batch} (added : InBatch wb labels hkey op) :
    Durable partID name (wb.db.set (dmapKey partID name) (.hkeys wb.hkeys)) labels hkey op := by
  have record : (wb.db.set (dmapKey partID name) (.hkeys wb.hkeys)).hkeys partID name = .ok wb.hkeys := by
    simp [Badger.hkeys, Badger.set]
  have value : wb.db.set (dmapKey partID name) (.hkeys wb.hkeys) (bkey hkey) = wb.db (bkey hkey) :=
    Function.update_of_ne (bkey_ne_dmapKey hkey partID name) _ _
  cases op with
  | put =>
    obtain ⟨val, mem, stored, listed⟩ := added
    exact ⟨val, wb.hkeys, mem, value.trans stored, record, listed⟩
  | delete => exact ⟨wb.hkeys, value.trans added.1, record, added.2⟩

/-- A step of the worker adds one operation to the batch, or does not. -/
theorem Inv.add {hkey : UInt64} {op : LogOp} {todo : List (UInt64 × LogOp)} {wb wb' : Batch} {ok : Bool}
    (inv : Inv partID name labels s) (adding : s.phase = .adding ((hkey, op) :: todo) wb)
    (adds : wb.Adds s.str hkey op ok wb')
    (self : InBatch wb' (labels ++ [label]) hkey op ∨ Missing (labels ++ [label]) hkey op ∨ (hkey, op) ∈ wb'.failed) :
    Inv partID name (labels ++ [label]) { s with phase := .adding todo wb' } := by
  obtain ⟨nodup, logged, taken, accounted⟩ := inv
  unfold Accounted at accounted
  rw [adding] at taken accounted
  obtain ⟨before, split, added⟩ := accounted
  have listed : (hkey, op) ∈ s.wcopy := by
    rw [split]
    exact List.mem_append_right _ List.mem_cons_self
  refine ⟨nodup, fun _ hkey' op' found => ?_, fun e mem => ?_, before ++ [(hkey, op)], by simp [split],
    fun e mem => ?_⟩
  · exact List.mem_append_left _ (logged (by rw [adding]; nofun) hkey' op' found)
  · cases adds with
    | put | delete | missing => exact taken e mem
    | failed =>
      rcases List.mem_append.1 mem with old | new
      · exact taken e old
      · cases List.mem_singleton.1 new
        exact listed
  · rcases List.mem_append.1 mem with old | new
    · have differs : e.1 ≠ hkey := by
        rintro rfl
        rw [split, List.map_append, List.map_cons, List.nodup_middle] at nodup
        exact (List.nodup_cons.1 nodup).1 (List.mem_append_left _ (List.mem_map.2 ⟨e, old, rfl⟩))
      exact (added e old).imp (fun added => adds_other adds differs added.later) (.imp .later (adds_failed adds))
    · cases List.mem_singleton.1 new
      exact self

theorem Inv.step (inv : Inv partID name labels s) (allowed : KeepsCopy s label) (step : Step partID name s label s') :
    Inv partID name (labels ++ [label]) s' := by
  have mem : label ∈ labels ++ [label] := by simp
  have logged (open_ : s.phase ≠ .done) (hkey : UInt64) (op : LogOp) (found : s.log.lookup hkey = some op) :
      RoundLabel.log hkey op ∈ labels ++ [label] := List.mem_append_left _ (inv.logged open_ hkey op found)
  cases step with
  | change => exact ⟨inv.nodup, logged, inv.taken, inv.accounted.later rfl rfl rfl fun _ _ => .later⟩
  | @log hkey op =>
    have inserted {hkey' : UInt64} {op' : LogOp} (found : (s.log.insert hkey op).lookup hkey' = some op') :
        hkey' = hkey ∧ op' = op ∨ s.log.lookup hkey' = some op' := by
      by_cases here : hkey' = hkey
      · subst here
        rw [Finmap.lookup_insert] at found
        exact .inl ⟨rfl, (Option.some.inj found).symm⟩
      · rw [Finmap.lookup_insert_of_ne _ here] at found
        exact .inr found
    refine ⟨inv.nodup, fun open_ hkey' op' found => ?_, inv.taken,
      inv.accounted.later rfl rfl rfl fun hkey' op' relogged => ?_⟩
    · rcases inserted found with ⟨rfl, rfl⟩ | old
      · exact mem
      · exact logged open_ hkey' op' old
    · by_cases here : hkey' = hkey
      · subst here
        exact ⟨op, Finmap.lookup_insert .., .inr mem⟩
      · have after : Relogged _ (_ ++ [.log hkey op]) hkey' op' := relogged.later
        obtain ⟨op'', found, origin⟩ := after
        exact ⟨op'', by rwa [Finmap.lookup_insert_of_ne _ here], origin⟩
  | viewed drained read =>
    exact ⟨inv.nodup, fun _ => logged (by rw [drained]; nofun), by rintro e ⟨⟩, [], rfl, by rintro e ⟨⟩⟩
  | unread => cases allowed
  | @put hkey todo wb reply ok wb' adding read added =>
    have adds := Batch.add_adds added
    refine inv.add adding adds ?_
    cases adds with
    | put found =>
      cases read.symm.trans found
      exact .inl ⟨_, mem, Function.update_self .., Finset.mem_insert_self ..⟩
    | missing absent =>
      cases read.symm.trans absent
      exact .inr (.inl ⟨rfl, ok, mem⟩)
    | failed => exact .inr (.inr (by simp [Batch.fail]))
  | @delete hkey todo wb ok wb' adding added =>
    have adds := Batch.add_adds added
    refine inv.add adding adds ?_
    cases adds with
    | delete => exact .inl ⟨Function.update_self .., Finset.notMem_erase _ _⟩
    | failed => exact .inr (.inr (by simp [Batch.fail]))
  | @recorded wb adding =>
    have accounted := inv.accounted
    have taken := inv.taken
    unfold Accounted at accounted
    rw [adding] at accounted taken
    obtain ⟨before, split, added⟩ := accounted
    rw [List.append_nil] at split
    refine ⟨inv.nodup, fun _ => logged (by rw [adding]; nofun), taken, fun e mem => ?_⟩
    exact (added e (split ▸ mem)).imp (fun added => recorded_durable added.later) (.imp_left .later)
  | @unrecorded wb adding =>
    exact ⟨inv.nodup, fun _ => logged (by rw [adding]; nofun), fun e mem => mem, fun e mem => .inr (.inr mem)⟩
  | @flushed store returned flushing =>
    have accounted := inv.accounted
    have taken := inv.taken
    unfold Accounted at accounted
    rw [flushing] at accounted taken
    exact ⟨inv.nodup, fun _ => logged (by rw [flushing]; nofun), taken,
      fun e mem => (accounted e mem).imp .later (.imp_left .later)⟩
  | @unflushed store returned db flushing partly =>
    have taken := inv.taken
    rw [flushing] at taken
    have all := allowed.resolve_left (by decide)
    exact ⟨inv.nodup, fun _ => logged (by rw [flushing]; nofun), taken,
      fun e mem => .inr (.inr (all store returned flushing e mem))⟩
  | @relog returned relogging =>
    have accounted := inv.accounted
    have taken := inv.taken
    unfold Accounted at accounted
    rw [relogging] at accounted taken
    refine ⟨inv.nodup, fun open_ => absurd rfl open_, by rintro e ⟨⟩, fun e mem => ?_⟩
    refine (accounted e mem).imp .later (.imp .later fun listed => ?_)
    refine relog_relogged listed (fun op' other => ?_) fun op' found =>
      logged (by rw [relogging]; nofun) e.1 op' found
    have same : (e.1, op') = e := List.inj_on_of_nodup_map inv.nodup (taken _ other) mem rfl
    rw [← same]

/-- If the hkeys of the dmap can be read, and a flush fails only if everything is to be logged again,
no operation that a sync round has taken from the oplog is lost. -/
theorem no_change_dropped (run : (system partID name).Run KeepsCopy labels s) (ended : s.phase = .done)
    {hkey : UInt64} {op : LogOp} (taken : (hkey, op) ∈ s.wcopy) :
    Durable partID name s.db labels hkey op ∨ Missing labels hkey op ∨ Relogged s.log labels hkey op := by
  have inv : Inv partID name labels s := by
    refine run.history_invariant (Inv partID name) ?_ fun labels s label s' inv allowed step => inv.step allowed step
    rintro s ⟨phase, log, nodup, _⟩
    refine ⟨nodup, fun _ hkey op found => ?_, fun e mem => ?_, ?_⟩
    · simp [log] at found
    · rw [phase] at mem
      cases mem
    · unfold Accounted
      rw [phase]
      trivial
  have accounted := inv.accounted
  unfold Accounted at accounted
  rw [ended] at accounted
  exact accounted (hkey, op) taken

end

/-- A storage that nobody uses, and two deletes in the oplog. -/
def twoDeletes : SyncRound :=
  ⟨⟨[], false, false⟩, ∅, [(1, .delete), (2, .delete)], Function.update (fun _ => none) (bkey 1) (some (.raw [0])),
    .drained⟩

theorem twoDeletes_starts : (system 0 [100]).init twoDeletes := ⟨rfl, rfl, by decide, nofun⟩

theorem twoDeletes_read : twoDeletes.db.hkeysOrNew 0 [100] = .ok ∅ := by
  have absent : twoDeletes.db (dmapKey 0 [100]) = none := by
    simp only [twoDeletes, Function.update_of_ne (bkey_ne_dmapKey 1 0 [100]).symm]
  simp [Badger.hkeysOrNew, Badger.hkeys, absent]

/-- Badger does not take one of the deletes. -/
theorem refused_delete_relogged : ∃ labels s, (system 0 [100]).Run KeepsCopy labels s ∧ .delete 1 false ∈ labels ∧
    s.phase = .done ∧ (1, .delete) ∈ s.wcopy ∧ (Durable 0 [100] s.db labels 1 .delete ∨ Missing labels 1 .delete ∨
      Relogged s.log labels 1 .delete) := by
  have start : (system 0 [100]).Run KeepsCopy [] twoDeletes := .start twoDeletes_starts
  have viewed := start.andThenAllowed (.view true) rfl (.viewed rfl twoDeletes_read)
  have refused := viewed.andThenAllowed (.delete 1 false) trivial (.delete rfl rfl)
  have taken := refused.andThenAllowed (.delete 2 true) trivial (.delete rfl rfl)
  have recorded := taken.andThenAllowed (.record true) trivial (.recorded rfl)
  have flushed := recorded.andThenAllowed (.flush true) (.inl rfl) (.flushed rfl)
  have ended := flushed.andThenAllowed .relog trivial (.relog rfl)
  exact ⟨_, _, ended, by simp, rfl, .head _, no_change_dropped ended rfl (.head _)⟩

/-- What has been taken from the oplog is lost if the hkeys cannot be read, and if the flush fails. -/
theorem failed_sync_drops_change :
    (∃ s, (system 0 [100]).AnyRun [.view false] s ∧ s.phase = .done ∧ (1, .delete) ∈ s.wcopy ∧
      ¬ (Durable 0 [100] s.db [.view false] 1 .delete ∨ Missing [.view false] 1 .delete ∨
        Relogged s.log [.view false] 1 .delete)) ∧
    ∃ labels s, (system 0 [100]).AnyRun labels s ∧ .view true ∈ labels ∧ s.phase = .done ∧ (1, .delete) ∈ s.wcopy ∧
      ¬ (Durable 0 [100] s.db labels 1 .delete ∨ Missing labels 1 .delete ∨ Relogged s.log labels 1 .delete) := by
  have stored : twoDeletes.db (bkey 1) ≠ none := by simp [twoDeletes]
  have start : (system 0 [100]).AnyRun [] twoDeletes := .start twoDeletes_starts
  have lost {labels : List RoundLabel} : ¬ (Durable 0 [100] twoDeletes.db labels 1 .delete ∨
    Missing labels 1 .delete ∨ Relogged ∅ labels 1 .delete) := by
    rintro (⟨_, gone, _⟩ | ⟨⟨⟩, _⟩ | ⟨_, found, _⟩)
    · exact stored gone
    · simp at found
  have viewed := start.andThen (.view true) (.viewed rfl twoDeletes_read)
  have first := viewed.andThen (.delete 1 true) (.delete rfl rfl)
  have second := first.andThen (.delete 2 true) (.delete rfl rfl)
  have recorded := second.andThen (.record true) (.recorded rfl)
  have unflushed := recorded.andThen (.flush false) (.unflushed rfl fun _ => .inl rfl)
  have ended := unflushed.andThen .relog (.relog rfl)
  exact ⟨⟨_, start.andThen (.view false) (.unread rfl), rfl, .head _, lost⟩, _, _, ended, by simp, rfl, .head _, lost⟩

end SyncRound

end Olric
