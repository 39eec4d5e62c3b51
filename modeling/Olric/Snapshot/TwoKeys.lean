import Olric.Snapshot.Without

namespace Olric

namespace Snapshot

variable {dkey : DKey} {p : UInt64} {n : Bytes} {s s' t : Snapshot}

/-- Conditions under which an operation is the same with and without the other dkey's dmap: that
dmap is not created over a registered one, its oplog has no operations when the partition is synced,
and it is not destroyed while hkeys are recorded under its name. -/
def KeptApart (dkey : DKey) (p : UInt64) (n : Bytes) (s : Snapshot) : SnapshotOp → Prop
  | .create h => h.dkey = dkey.other ∧ h.partID = p ∧ h.name = n →
    ∀ h', (s.oplogs p).lookup n = some h' → h'.dkey = dkey.other
  | .sync q _ => q = p → ∀ h log, (s.oplogs p).lookup n = some h → h.dkey = dkey.other → s.logs h = some log →
    log.m.entries = []
  | .unregister d q m => UnregistersApart dkey p n s d q m
  | .destroy d q m => UnregistersApart dkey p n s d q m ∧
    (d = dkey.other ∧ q = p ∧ m = n → ∀ hkeys, s.db.hkeys p n = .ok hkeys → hkeys = ∅)
  | _ => True

section

variable {hashing : Hashing} {op : SnapshotOp}

theorem Without.step (rel : Without dkey p n s t) (apart : KeptApart dkey p n s op)
    (kept : On dkey.other p n op = false) (step : Step hashing s op s') :
    ∃ t', Step hashing t op t' ∧ Without dkey p n s' t' := by
  cases step with
  | create fresh made =>
    have kept := of_decide_eq_false kept
    exact ⟨_, .create ((rel.logs _ kept).trans fresh) made,
      rel.register kept (registers_of_read rel.read.1) (registers_of_read rel.read.2)⟩
  | put found placed run =>
    exact ⟨_, .put ((rel.logs _ (of_decide_eq_false kept)).trans found) placed run, rel.setLog _ _⟩
  | delete found placed run =>
    exact ⟨_, .delete ((rel.logs _ (of_decide_eq_false kept)).trans found) placed run, rel.setLog _ _⟩
  | merge found orders run =>
    exact ⟨_, .merge ((rel.logs _ (of_decide_eq_false kept)).trans found) orders run, rel.setLog _ _⟩
  | mergeExit found =>
    exact ⟨_, .mergeExit ((rel.logs _ (of_decide_eq_false kept)).trans found), rel.setLog _ _⟩
  | sync run =>
    obtain ⟨t', run', rel'⟩ := rel.sync apart run
    exact ⟨t', .sync run', rel'⟩
  | unregister => exact ⟨_, .unregister, rel.unregisterDMap (of_decide_eq_false kept) apart⟩
  | destroy => exact ⟨_, .destroy, rel.destroyDMap (of_decide_eq_false kept) apart.1⟩

theorem Without.step_other (rel : Without dkey p n s t) (apart : KeptApart dkey p n s op)
    (removed : On dkey.other p n op = true) (step : Step hashing s op s') : Without dkey p n s' t := by
  cases step with
  | create fresh made =>
    have other := of_decide_eq_true removed
    exact rel.register_other other (apart other) (registers_of_read rel.read.1)
  | put | delete | merge | mergeExit => exact rel.setLog_other (of_decide_eq_true removed) _
  | sync => cases removed
  | unregister =>
    obtain ⟨rfl, rfl, rfl⟩ := of_decide_eq_true removed
    exact rel.unregisterDMap_other apart
  | destroy =>
    obtain ⟨rfl, rfl, rfl⟩ := of_decide_eq_true removed
    exact rel.destroyDMap_other apart.1 (apart.2 ⟨rfl, rfl, rfl⟩)

theorem Step.unique {s₁ s₂ : Snapshot} (step : Step hashing s op s₁) (step' : Step hashing s op s₂) : s₁ = s₂ := by
  cases step with
  | create _ made =>
    cases step' with
    | create _ made' =>
      cases made.symm.trans made'
      rfl
  | put found _ run =>
    cases step' with
    | put found' _ run' =>
      cases found.symm.trans found'
      cases run.symm.trans run'
      rfl
  | delete found _ run =>
    cases step' with
    | delete found' _ run' =>
      cases found.symm.trans found'
      cases run.symm.trans run'
      rfl
  | merge found _ run =>
    cases step' with
    | merge found' _ run' =>
      cases found.symm.trans found'
      cases run.symm.trans run'
      rfl
  | mergeExit found =>
    cases step' with
    | mergeExit found' =>
      cases found.symm.trans found'
      rfl
  | sync run =>
    cases step' with
    | sync run' =>
      cases run.symm.trans run'
      rfl
  | unregister =>
    cases step' with
    | unregister => rfl
  | destroy =>
    cases step' with
    | destroy => rfl

theorem run_unique {ops : List SnapshotOp} (run : (system hashing).AnyRun ops s)
    (run' : (system hashing).AnyRun ops s') : s = s' := by
  refine run.unique ?_ (fun _ _ _ _ => Step.unique) run'
  rintro _ _ rfl rfl
  rfl

end

theorem without_empty (dkey : DKey) (p : UInt64) (n : Bytes) : Without dkey p n empty empty where
  db _ _ := rfl
  names _ _ _ := Iff.rfl
  read := ⟨fun _ _ failed => by cases failed; rfl, fun _ _ failed => by cases failed; rfl⟩
  logs _ _ := rfl
  oplogs q := by
    split
    · rfl
    · rfl
  placed _ _ _ found := by cases found
  workers _ := .inl rfl
  started _ used := absurd rfl used

/-- Without the operations on the other dkey's dmap of the same partition and name, the run syncs
and restores the same under the dkey, in every run that keeps the two apart. -/
theorem other_dkey_removable (hashing : Hashing) (dkey : DKey) (p : UInt64) (n : Bytes) {ops : List SnapshotOp}
    {s : Snapshot} (run : (system hashing).Run (KeptApart dkey p n) ops s) :
    ∃ t, (system hashing).AnyRun (ops.filter fun op => !On dkey.other p n op) t ∧ s.db.Agree dkey.other.bytes t.db ∧
      newLoader t.db dkey = newLoader s.db dkey ∧
      ∀ mmaps visits, loadAll t.db mmaps visits = loadAll s.db mmaps visits := by
  obtain ⟨t, run', rel⟩ := run.filter_simulates (fun op => !On dkey.other p n op) (Without dkey p n)
    (fun s start => by
      cases start
      exact ⟨empty, rfl, without_empty dkey p n⟩)
    (fun s s' t op rel apart kept step => rel.step apart (by simpa using kept) step)
    (fun s s' t op rel apart removed step => rel.step_other apart (by simpa using removed) step)
  refine ⟨t, run', rel.db, ?_, loadAll_agree rel.db⟩
  unfold newLoader
  rw [rel.db.dmaps dkey.other_ne.symm]

/-- The backup of the dmap `d` on the member that has the primary, too. -/
def backupDMap : Handle := ⟨.backup, 0, [100], 0⟩

theorem primary_over_backup : ∃ ops s t, (system soloHashing).Run (KeptApart .primary 0 [100]) ops s ∧
    .create backupDMap ∈ ops ∧ (system soloHashing).AnyRun (ops.filter fun op => !On .backup 0 [100] op) t ∧
    s.db.hkeys 0 [100] = .ok {7} ∧ newLoader t.db .primary = newLoader s.db .primary ∧
    loadAll t.db [true] [⟨0, [100], [7]⟩] = loadAll s.db [true] [⟨0, [100], [7]⟩] := by
  obtain ⟨str, made, str', put, s, synced, free, found, recorded⟩ : ∃ str, Storage.new true 0 = .ok str ∧
      ∃ str', str.put [] 7 ⟨[107], 0, [1]⟩ = .ok (str', none) ∧
      ∃ s, (((empty.registerDMap backupDMap str).1.registerDMap firstDMap str).1.setLog firstDMap
        ⟨AList.insert 7 .put ∅, str'⟩).sync 0 (fun _ => .success) = .ok s ∧
      (empty.registerDMap backupDMap str).1.logs firstDMap = none ∧
      ((empty.registerDMap backupDMap str).1.registerDMap firstDMap str).1.logs firstDMap = some ⟨∅, str⟩ ∧
      s.db.hkeys 0 [100] = .ok {7} :=
    ⟨_, rfl, _, rfl, _, rfl, rfl, rfl, rfl⟩
  have puts : Step soloHashing ((empty.registerDMap backupDMap str).1.registerDMap firstDMap str).1
      (.put firstDMap [107] 0 [1] []) _ := .put found (by decide) put
  have start : (system soloHashing).Run (KeptApart .primary 0 [100]) [] empty := .start rfl
  have created := start.andThenAllowed (.create backupDMap) (by rintro _ _ ⟨⟩) (.create rfl made)
  have both := created.andThenAllowed (.create firstDMap) (by rintro ⟨⟨⟩, _⟩) (.create free made)
  have run := (both.andThenAllowed (.put firstDMap [107] 0 [1] []) trivial puts).andThenAllowed
    (.sync 0 fun _ => .success) (by rintro _ h log ⟨⟩ ⟨⟩) (.sync synced)
  obtain ⟨t, run', _, names, loads⟩ := other_dkey_removable soloHashing .primary 0 [100] run
  exact ⟨_, s, t, run, by simp, run', recorded, names, loads _ _⟩

/-- The registration of the backup takes the oplog of the primary away: a put on the primary is not
synced, and the record that its loader asks for is not there. -/
theorem backup_over_primary : ∃ ops s, (system soloHashing).AnyRun ops s ∧ s.db.Registered .primary 0 [100] ∧
    s.db.Registered .backup 0 [100] ∧
    ¬ ∃ t, (system soloHashing).AnyRun (ops.filter fun op => !On .backup 0 [100] op) t ∧
      newLoader t.db .primary = newLoader s.db .primary ∧
      ∀ mmaps visits, loadAll t.db mmaps visits = loadAll s.db mmaps visits := by
  obtain ⟨str, made, str', put, s, synced, t, synced', free, found, primary, backup, missing, recorded, loaded⟩ :
      ∃ str, Storage.new true 0 = .ok str ∧
      ∃ str', str.put [] 7 ⟨[107], 0, [1]⟩ = .ok (str', none) ∧
      ∃ s, (((empty.registerDMap firstDMap str).1.registerDMap backupDMap str).1.setLog firstDMap
        ⟨AList.insert 7 .put ∅, str'⟩).sync 0 (fun _ => .success) = .ok s ∧
      ∃ t, ((empty.registerDMap firstDMap str).1.setLog firstDMap
        ⟨AList.insert 7 .put ∅, str'⟩).sync 0 (fun _ => .success) = .ok t ∧
      (empty.registerDMap firstDMap str).1.logs backupDMap = none ∧
      ((empty.registerDMap firstDMap str).1.registerDMap backupDMap str).1.logs firstDMap = some ⟨∅, str⟩ ∧
      s.db.dmaps .primary = .ok {(0, [100])} ∧ s.db.dmaps .backup = .ok {(0, [100])} ∧
      s.db.hkeys 0 [100] = .error .keyNotFound ∧ t.db.hkeys 0 [100] = .ok {7} ∧
      loadAll t.db [true] [⟨0, [100], []⟩] = .ok [str] :=
    ⟨_, rfl, _, rfl, _, rfl, _, rfl, rfl, rfl, rfl, rfl, rfl, rfl, rfl⟩
  have puts : Step soloHashing ((empty.registerDMap firstDMap str).1.registerDMap backupDMap str).1
      (.put firstDMap [107] 0 [1] []) _ := .put found (by decide) put
  have puts' : Step soloHashing (empty.registerDMap firstDMap str).1 (.put firstDMap [107] 0 [1] []) _ :=
    .put rfl (by decide) put
  have start : (system soloHashing).AnyRun [] empty := .start rfl
  have created := start.andThen (.create firstDMap) (.create rfl made)
  have both := created.andThen (.create backupDMap) (.create free made)
  have run := (both.andThen _ puts).andThen (.sync 0 fun _ => .success) (.sync synced)
  have run' := (created.andThen _ puts').andThen (.sync 0 fun _ => .success) (.sync synced')
  refine ⟨_, s, run, ⟨_, primary, by simp⟩, ⟨_, backup, by simp⟩, ?_⟩
  rintro ⟨t', filtered, _, loads⟩
  cases run_unique run' filtered
  have load := loads [true] [⟨0, [100], []⟩]
  rw [loaded] at load
  simp [loadAll, loadDMap, missing] at load

end Snapshot

end Olric
