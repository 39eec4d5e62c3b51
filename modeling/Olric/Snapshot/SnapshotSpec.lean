import Olric.Snapshot.Snapshot

namespace Olric.Snapshot

variable {s s' : Snapshot} {h : Handle} {str : Storage} {dkey : DKey} {partID : UInt64} {name : Bytes}

@[simp] theorem setLog_db {log : OpLog} : (s.setLog h log).db = s.db := rfl
@[simp] theorem setLog_workers {log : OpLog} : (s.setLog h log).workers = s.workers := rfl
@[simp] theorem setOplogs_workers {dmaps : AList fun _ : Bytes => Handle} :
    (s.setOplogs partID dmaps).workers = s.workers := rfl

theorem setLog_found {log log' : OpLog} {other : Handle} :
    (s.setLog h log).logs other = some log' ↔ other = h ∧ log' = log ∨ other ≠ h ∧ s.logs other = some log' := by
  by_cases same : other = h
  · subst same
    simp [setLog, eq_comm]
  · simp [setLog, same]

/-- What a registration that Badger has taken does. -/
structure Registers (s : Snapshot) (h : Handle) (str : Storage) (s' : Snapshot) : Prop where
  db : s.db.registerOnBadger h.dkey h.partID h.name = .ok s'.db
  oplogs : s'.oplogs = Function.update s.oplogs h.partID ((s.oplogs h.partID).insert h.name h)
  logs : s'.logs = Function.update s.logs h (some ⟨∅, str⟩)
  workers : s'.workers = Function.update s.workers h.partID (some ((s.workers h.partID).getD .running))

theorem registerDMap_cases (s : Snapshot) (h : Handle) (str : Storage) :
    ((s.registerDMap h str).1 = s ∧ ∃ e, s.db.registerOnBadger h.dkey h.partID h.name = .error e) ∨
      s.Registers h str (s.registerDMap h str).1 := by
  unfold registerDMap
  split
  · rename_i e failed
    exact .inl ⟨rfl, e, failed⟩
  · rename_i db registered
    refine .inr ⟨?_, ?_, ?_, ?_⟩
    · rw [registered]
      dsimp only
      split <;> rfl
    · dsimp only
      split <;> rfl
    · dsimp only
      split <;> rfl
    · dsimp only
      split
      · rename_i absent
        have unknown : s.workers h.partID = none := absent
        simp [setWorker, unknown]
      · rename_i present
        obtain ⟨w, known⟩ := Option.ne_none_iff_exists'.1 present
        have kept : s.workers h.partID = some w := known
        rw [kept, Option.getD_some, ← kept, Function.update_eq_self]
        rfl

/-- What an unregistration that gets to the registry does. -/
structure Unregisters (s : Snapshot) (dkey : DKey) (partID : UInt64) (name : Bytes) (s' : Snapshot) : Prop where
  nonempty : (s.oplogs partID).entries ≠ []
  db : s.db.unregisterOnBadger dkey partID name = .ok s'.db
  oplogs : s'.oplogs = Function.update s.oplogs partID ((s.oplogs partID).erase name)
  logs : s'.logs = s.logs
  workers : s'.workers = if ((s.oplogs partID).erase name).entries = [] then
    Function.update s.workers partID (some .cancelled) else s.workers

theorem unregisterDMap_cases (s : Snapshot) (dkey : DKey) (partID : UInt64) (name : Bytes) :
    ((s.unregisterDMap dkey partID name).1 = s ∧
      ((s.oplogs partID).entries = [] ∨ ∃ e, s.db.unregisterOnBadger dkey partID name = .error e)) ∨
      s.Unregisters dkey partID name (s.unregisterDMap dkey partID name).1 := by
  unfold unregisterDMap
  split
  · rename_i none
    exact .inl ⟨rfl, .inl none⟩
  · rename_i nonempty
    split
    · rename_i e failed
      exact .inl ⟨rfl, .inr ⟨e, failed⟩⟩
    · rename_i db unregistered
      refine .inr ⟨nonempty, ?_, ?_, ?_, ?_⟩ <;> dsimp only <;> split
      · exact unregistered
      · exact unregistered
      · rfl
      · rfl
      · rfl
      · rfl
      · rfl
      · rfl

/-- A destroy does nothing without a record of hkeys, or deletes their values and goes on as an
unregistration. -/
theorem destroyDMap_cases (s : Snapshot) (dkey : DKey) (partID : UInt64) (name : Bytes) :
    (s.destroyDMap dkey partID name).1 = s ∨ ∃ hkeys, s.db.hkeys partID name = .ok hkeys ∧
      (s.destroyDMap dkey partID name).1 =
        ({ s with db := s.db.deleteValues hkeys }.unregisterDMap dkey partID name).1 := by
  unfold destroyDMap
  split
  · exact .inl rfl
  · rename_i hkeys found
    exact .inr ⟨hkeys, found, rfl⟩

/-- A sync of one oplog changes the store and that oplog. -/
theorem syncEntry_cases {out : Bytes → SyncOutcome} (run : s.syncEntry partID out name h = .ok s') :
    s.logs h = none ∧ s' = s ∨ ∃ log db failed, s.logs h = some log ∧
      syncDMap s.db partID name log (out name) = .ok (db, failed) ∧
      s' = { s with db := db }.setLog h ({ log with m := ∅ }.relog failed) := by
  unfold syncEntry at run
  split at run
  · rename_i absent
    cases run
    exact .inl ⟨absent, rfl⟩
  · rename_i log found
    cases synced : syncDMap s.db partID name log (out name) with
    | error halt =>
      rw [synced] at run
      cases run
    | ok result =>
      rw [synced] at run
      cases run
      exact .inr ⟨log, result.1, result.2, found, synced, rfl⟩

theorem syncEntry_frame {out : Bytes → SyncOutcome} (run : s.syncEntry partID out name h = .ok s') :
    s'.workers = s.workers ∧ s'.oplogs = s.oplogs := by
  rcases syncEntry_cases run with ⟨_, rfl⟩ | ⟨log, db, failed, _, _, rfl⟩ <;> exact ⟨rfl, rfl⟩

theorem syncEach_cons {out : Bytes → SyncOutcome} {entries : List (Sigma fun _ : Bytes => Handle)}
    (run : s.syncEach partID out (⟨name, h⟩ :: entries) = .ok s') :
    ∃ mid, s.syncEntry partID out name h = .ok mid ∧ mid.syncEach partID out entries = .ok s' := by
  cases first : s.syncEntry partID out name h with
  | error halt =>
    rw [syncEach, first] at run
    cases run
  | ok mid =>
    rw [syncEach, first] at run
    exact ⟨mid, rfl, run⟩

/-- What the sync of each oplog keeps, a round keeps. -/
theorem syncEach_induct {out : Bytes → SyncOutcome} (Inv : Snapshot → Prop)
    {entries : List (Sigma fun _ : Bytes => Handle)}
    (step : ∀ s s', ∀ e ∈ entries, Inv s → s.syncEntry partID out e.1 e.2 = .ok s' → Inv s')
    (before : Inv s) (run : s.syncEach partID out entries = .ok s') : Inv s' := by
  induction entries generalizing s with
  | nil =>
    cases run
    exact before
  | cons e entries ih =>
    obtain ⟨mid, first, rest⟩ := syncEach_cons run
    exact ih (fun s s' e mem => step s s' e (List.mem_cons_of_mem _ mem)) (step s mid e (.head _) before first) rest

/-- What the sync of each of its oplogs keeps, a round of a worker keeps. -/
theorem sync_induct {out : Bytes → SyncOutcome} (Inv : Snapshot → Prop)
    (step : ∀ mid mid' name h, (s.oplogs partID).lookup name = some h → mid.oplogs = s.oplogs → Inv mid →
      mid.syncEntry partID out name h = .ok mid' → Inv mid')
    (before : Inv s) (run : s.sync partID out = .ok s') : Inv s' := by
  unfold sync at run
  split at run
  · refine (syncEach_induct (fun mid => mid.oplogs = s.oplogs ∧ Inv mid) ?_ ⟨rfl, before⟩ run).2
    rintro mid mid' ⟨name, h⟩ mem ⟨same, inv⟩ now
    exact ⟨(syncEntry_frame now).2.trans same, step mid mid' name h (AList.mem_lookup_iff.2 mem) same inv now⟩
  · cases run
    exact before

theorem sync_frame {out : Bytes → SyncOutcome} (run : s.sync partID out = .ok s') :
    s'.workers = s.workers ∧ s'.oplogs = s.oplogs :=
  sync_induct (fun mid => mid.workers = s.workers ∧ mid.oplogs = s.oplogs)
    (fun _ _ _ _ _ _ inv now => ⟨(syncEntry_frame now).1.trans inv.1, (syncEntry_frame now).2.trans inv.2⟩)
      ⟨rfl, rfl⟩ run

/-- Oplogs are kept under the partition and the name of their dmap. -/
def Placed (s : Snapshot) : Prop :=
  ∀ partID name h, (s.oplogs partID).lookup name = some h → h.partID = partID ∧ h.name = name

theorem Registers.placed (run : s.Registers h str s') (placed : s.Placed) : s'.Placed := by
  intro p n h' found
  rw [run.oplogs] at found
  by_cases eq : p = h.partID
  · subst eq
    rw [Function.update_self] at found
    by_cases eq : n = h.name
    · subst eq
      rw [AList.lookup_insert] at found
      cases found
      exact ⟨rfl, rfl⟩
    · rw [AList.lookup_insert_ne eq] at found
      exact placed _ n h' found
  · rw [Function.update_of_ne eq] at found
    exact placed p n h' found

theorem Unregisters.placed (run : s.Unregisters dkey partID name s') (placed : s.Placed) : s'.Placed := by
  intro p n h found
  rw [run.oplogs] at found
  by_cases eq : p = partID
  · subst eq
    rw [Function.update_self] at found
    by_cases eq : n = name
    · subst eq
      rw [AList.lookup_erase] at found
      cases found
    · rw [AList.lookup_erase_ne eq] at found
      exact placed p n h found
  · rw [Function.update_of_ne eq] at found
    exact placed p n h found

end Olric.Snapshot
