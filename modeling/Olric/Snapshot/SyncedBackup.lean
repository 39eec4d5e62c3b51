import Olric.Snapshot.SiteSpec

namespace Olric

namespace Writer

/-- The steps that are left of an operation on a backup. -/
def Remains (steps : List WriteStep) : Prop := ∃ w : Writer, w.OnBackup ∧ steps <:+ w.steps

theorem Remains.tail {step : WriteStep} {rest : List WriteStep} (remains : Remains (step :: rest)) :
    Remains rest := by
  obtain ⟨w, backup, suffix⟩ := remains
  exact ⟨w, backup, (List.suffix_cons step rest).trans suffix⟩

theorem Remains.put {hkey : UInt64} {value : VData} {rest : List WriteStep}
    (remains : Remains (.put hkey value :: rest)) : rest = [.log hkey .put] := by
  obtain ⟨w, backup, suffix⟩ := remains
  cases w with
  | putBackupOperation => simp_all [steps, List.suffix_cons_iff]
  | deleteBackupOperation => simp [steps, List.suffix_cons_iff] at suffix
  | putKeyVal | delKeyVal | givenUp | deletePrevOperation => cases backup

theorem Remains.delete {hkey : UInt64} {rest : List WriteStep} (remains : Remains (.delete hkey :: rest)) :
    rest = [.log hkey .delete, .unlock] := by
  obtain ⟨w, backup, suffix⟩ := remains
  cases w with
  | putBackupOperation => simp [steps, List.suffix_cons_iff] at suffix
  | deleteBackupOperation => simp_all [steps, List.suffix_cons_iff]
  | putKeyVal | delKeyVal | givenUp | deletePrevOperation => cases backup

end Writer

namespace SiteOf

variable {M : Type} (o : SiteOf M)

/-- A goroutine has changed the key, and logs it next. -/
def Owes (s : Site M) (hkey : UInt64) (tid : Tid) : Prop := ∃ op rest, s.writers tid = .log hkey op :: rest

/-- Of the goroutines that have changed a key, the last one to log it logs what has become of it. -/
def InOrder (s : Site M) : SiteLabel → Prop
  | .log tid => ∀ hkey op rest, s.writers tid = .log hkey op :: rest →
      op.Matches (o.store.view s.str hkey) ∨ ∃ other, other ≠ tid ∧ Owes s hkey other
  | _ => True

structure Overlapping (s : Site M) : Prop where
  remains : ∀ tid, Writer.Remains (s.writers tid)
  tracked : ∀ hkey, (∃ tid, Owes s hkey tid) ∨ o.Tracks s hkey (o.store.view s.str hkey)

variable {o} {s s' : Site M} {label : SiteLabel}

/-- A goroutine goes from a step that does not log to the next. -/
theorem Owes.setWriter {hkey : UInt64} {tid other : Tid} {next : List WriteStep} (owes : Owes s hkey other)
    (ne : other ≠ tid) (writers : s'.writers = Function.update s.writers tid next) : Owes s' hkey other := by
  obtain ⟨op, rest, logs⟩ := owes
  exact ⟨op, rest, by rw [writers, Function.update_of_ne ne, logs]⟩

theorem Overlapping.remains_update {tid : Tid} {next : List WriteStep} (inv : o.Overlapping s)
    (writers : s'.writers = Function.update s.writers tid next) (remains : Writer.Remains next) (other : Tid) :
    Writer.Remains (s'.writers other) := by
  rw [writers]
  by_cases same : other = tid
  · subst same
    rwa [Function.update_self]
  · rw [Function.update_of_ne same]
    exact inv.remains other

/-- The keys that a goroutine leaves as they are. -/
theorem Overlapping.unchanged {tid : Tid} {next : List WriteStep} (inv : o.Overlapping s) {hkey : UInt64}
    (silent : ¬ Owes s hkey tid) (writers : s'.writers = Function.update s.writers tid next)
    (view : o.store.view s'.str hkey = o.store.view s.str hkey) (log : s'.log = s.log) (worker : s'.worker = s.worker)
    (db : s'.db = s.db) : (∃ tid, Owes s' hkey tid) ∨ o.Tracks s' hkey (o.store.view s'.str hkey) := by
  rcases inv.tracked hkey with ⟨other, owes⟩ | tracks
  · refine .inl ⟨other, owes.setWriter ?_ writers⟩
    rintro rfl
    exact silent owes
  · rw [view]
    exact .inr (tracks.congr log worker db)

/-- A step that neither changes the memory nor logs. -/
theorem Overlapping.move {tid : Tid} {next : List WriteStep} (inv : o.Overlapping s)
    (silent : ∀ hkey, ¬ Owes s hkey tid) (writers : s'.writers = Function.update s.writers tid next)
    (remains : Writer.Remains next) (view : o.store.view s'.str = o.store.view s.str) (log : s'.log = s.log)
    (worker : s'.worker = s.worker) (db : s'.db = s.db) : o.Overlapping s' :=
  ⟨inv.remains_update writers remains,
    fun hkey => inv.unchanged (silent hkey) writers (congrFun view hkey) log worker db⟩

/-- A change of a key that is logged next. -/
theorem Overlapping.change {tid : Tid} {hkey : UInt64} {op : LogOp} {rest : List WriteStep} {entry : Option VData}
    (inv : o.Overlapping s) (silent : ∀ hkey, ¬ Owes s hkey tid)
    (writers : s'.writers = Function.update s.writers tid (.log hkey op :: rest))
    (remains : Writer.Remains (.log hkey op :: rest))
    (view : o.store.view s'.str = Function.update (o.store.view s.str) hkey entry)
    (log : s'.log = s.log) (worker : s'.worker = s.worker) (db : s'.db = s.db) : o.Overlapping s' := by
  refine ⟨inv.remains_update writers remains, fun key => ?_⟩
  by_cases same : key = hkey
  · subst same
    exact .inl ⟨tid, op, rest, by rw [writers, Function.update_self]⟩
  · exact inv.unchanged (silent key) writers (by rw [view, Function.update_of_ne same]) log worker db

theorem Overlapping.log {tid : Tid} {hkey : UInt64} {op : LogOp} {rest : List WriteStep} (inv : o.Overlapping s)
    (next : s.writers tid = .log hkey op :: rest) (inOrder : o.InOrder s (.log tid)) :
    o.Overlapping { s.setWriter tid rest with log := s.log.insert hkey op } := by
  refine ⟨inv.remains_update rfl (next ▸ inv.remains tid).tail, fun key => ?_⟩
  by_cases same : key = hkey
  · subst same
    rcases inOrder key op rest next with agrees | ⟨other, ne, owes⟩
    · exact .inr (tracks_log tid rest agrees)
    · exact .inl ⟨other, owes.setWriter ne rfl⟩
  · rcases inv.tracked key with ⟨other, owes⟩ | tracks
    · refine .inl ⟨other, owes.setWriter ?_ rfl⟩
      rintro rfl
      obtain ⟨_, _, logs⟩ := owes
      cases next.symm.trans logs
      exact same rfl
    · exact .inr (tracks.log_other same tid rest op)

theorem Overlapping.quiet (inv : o.Overlapping s) (step : o.Step s label s') (quiet : label.Quiet)
    (fine : o.Fine s label) (ready : o.Ready s) : o.Overlapping s' := by
  obtain ⟨_, view, writers, _⟩ := step.quiet_view quiet fine ready
  refine ⟨fun tid => writers ▸ inv.remains tid, fun hkey => ?_⟩
  rcases inv.tracked hkey with ⟨tid, op, rest, logs⟩ | tracks
  · exact .inl ⟨tid, op, rest, writers ▸ logs⟩
  · rw [view]
    exact .inr (step.quiet_tracks quiet ready (.inr rfl) tracks)

theorem Overlapping.step (inv : o.Overlapping s) (only : ∀ w, o.writes w → w.OnBackup) (step : o.Step s label s')
    (fine : o.Fine s label) (inOrder : o.InOrder s label) (ready : o.Ready s) : o.Overlapping s' := by
  have quiet := fun quiet => inv.quiet step quiet fine ready
  have silent {tid : Tid} {next : WriteStep} {rest : List WriteStep} (writing : s.writers tid = next :: rest)
      (other : ∀ hkey op, next ≠ .log hkey op) (hkey : UInt64) : ¬ Owes s hkey tid := by
    rintro ⟨op, rest', logs⟩
    exact other hkey op (List.cons.inj (writing.symm.trans logs)).1
  cases step with
  | @start tid w free may =>
    refine inv.move (fun hkey owes => ?_) rfl ⟨w, only w may, List.suffix_refl _⟩ rfl rfl rfl rfl
    obtain ⟨_, _, logs⟩ := owes
    cases free.symm.trans logs
  | lock next free => exact inv.move (silent next nofun) rfl (next ▸ inv.remains _).tail rfl rfl rfl rfl
  | unlock next => exact inv.move (silent next nofun) rfl (next ▸ inv.remains _).tail rfl rfl rfl rfl
  | @put tid hkey value rest err str next run =>
    have remains := inv.remains tid
    rw [next] at remains
    cases remains.put
    have view := (o.store.put_view ready.valid (fine _ _ _ next) run).2
    by_cases success : err = none
    · rw [if_pos success] at view ⊢
      exact inv.change (silent next nofun) rfl remains.tail view rfl rfl rfl
    · rw [if_neg success] at view ⊢
      exact inv.move (silent next nofun) rfl remains.tail.tail view rfl rfl rfl
  | @delete tid hkey rest err str next run =>
    obtain ⟨_, rfl, view⟩ := o.store.delete_view ready.valid (fine _ _ next) run
    have remains := inv.remains tid
    rw [next] at remains
    cases remains.delete
    exact inv.change (silent next nofun) rfl remains.tail view rfl rfl rfl
  | log next => exact inv.log next inOrder
  | merge | drain | view | addPut | addDelete | flush | relog => exact quiet trivial

/-- In a backup dmap, if no goroutine logs a key that another one has changed meanwhile: after the
writers, one more round saves what is in memory. -/
theorem Run.backup_saved {allow : Site M → SiteLabel → Prop} {before after : List SiteLabel}
    (only : ∀ w, o.writes w → w.OnBackup) (fine : ∀ s label, allow s label → o.Fine s label)
    (inOrder : ∀ s label, allow s label → o.InOrder s label) (run : o.system.Run allow (before ++ after) s)
    (quiet : ∀ label ∈ after, label.Quiet) (round : .drain ∈ after) (stopped : ∀ tid, s.writers tid = [])
    (idle : s.worker = .idle) : o.Saved s.db s.str := by
  have initial (s : Site M) (init : o.system.init s) : o.Overlapping s := by
    obtain ⟨_, log, _, none, idle, saved⟩ := init
    exact ⟨fun tid => ⟨.putBackupOperation 0 ⟨[], 0, []⟩, trivial, none tid ▸ List.nil_suffix⟩,
      fun hkey => .inr (saved.tracks log idle hkey)⟩
  obtain ⟨ready, inv⟩ := Run.ready_invariant fine (fun _ => o.Overlapping) initial
    (fun _ _ _ _ ready inv allowed step => inv.step only step (fine _ _ allowed) (inOrder _ _ allowed) ready) run
  refine saved_of_tracks ready (Run.log_empty fine run quiet round) idle fun hkey => ?_
  rcases inv.tracked hkey with ⟨tid, op, rest, logs⟩ | tracks
  · cases (stopped tid).symm.trans logs
  · exact tracks

end SiteOf

/-- The loader gives the map: a dmap that has never been saved is empty, a loaded one has the
entries, and with values that fit in a new table it can be loaded. -/
structure Badger.Restores (db : Badger) (partID : UInt64) (name : Bytes) (view : UInt64 → Option VData) : Prop where
  unsaved : (∀ hkeys, db.hkeys partID name ≠ .ok hkeys) → ∀ hkey, view hkey = none
  loaded : ∀ hkeys order mmaps str, db.hkeys partID name = .ok hkeys → (∀ hkey, hkey ∈ order ↔ hkey ∈ hkeys) →
    loadDMap db mmaps partID name order = .ok str → ∀ hkey, str.get hkey = .ok (Storage.answer (view hkey))
  loads : ∀ hkeys order, db.hkeys partID name = .ok hkeys → (∀ hkey, hkey ∈ order ↔ hkey ∈ hkeys) →
    (∀ hkey ∈ hkeys, ∀ raw, db (bkey hkey) = some (.raw raw) → raw.length < 2 ^ 20) →
    ∃ str, loadDMap db [true] partID name order = .ok str

theorem Badger.hkeysOrNew_of_ok {db : Badger} {partID : UInt64} {name : Bytes} {hkeys : Finset UInt64}
    (found : db.hkeys partID name = .ok hkeys) : db.hkeysOrNew partID name = .ok hkeys := by
  simp [Badger.hkeysOrNew, found]

theorem SiteOf.Saved.restores {M : Type} {o : SiteOf M} {db : Badger} {m : M} (saved : o.Saved db m) :
    db.Restores o.partID o.name (o.store.view m) := by
  obtain ⟨hkeys, read, listed⟩ := saved.listed
  have same (other : Finset UInt64) (found : db.hkeys o.partID o.name = .ok other) : other = hkeys :=
    Except.ok.inj ((Badger.hkeysOrNew_of_ok found).symm.trans read)
  refine ⟨fun absent hkey => ?_, fun other order mmaps str found complete run => ?_,
    fun other order found complete small => ?_⟩
  · rcases Badger.hkeysOrNew_ok read with found | ⟨_, rfl⟩
    · exact absurd found (absent hkeys)
    · exact not_not.1 (mt (listed hkey).2 (Finset.notMem_empty hkey))
  · cases same other found
    exact loadDMap_spec (fun hkey => (complete hkey).trans (listed hkey)) saved.values run
  · cases same other found
    refine loadDMap_returns found fun hkey mem => ?_
    have present := (complete hkey).1 mem
    obtain ⟨v, shown⟩ := Option.ne_none_iff_exists'.1 ((listed hkey).1 present)
    obtain ⟨raw, stored, _⟩ := saved.values hkey v shown
    exact ⟨raw, stored, small hkey present raw stored⟩

/-- A backup dmap and its storage. -/
def backupDMap (partID : UInt64) (name : Bytes) : SiteOf Storage where
  store := tableStore
  partID := partID
  name := name
  writes := Writer.OnBackup

/-- The operations act on the storage as on a map, and of the handlers that change a key at the same
time the last one to log it logs what has become of it. -/
def SiteOf.Ordered {M : Type} (o : SiteOf M) (s : Site M) (label : SiteLabel) : Prop :=
  o.Fine s label ∧ o.InOrder s label

theorem synced_backup_restored (partID : UInt64) (name : Bytes) {before after : List SiteLabel} {s : Site Storage}
    (run : (backupDMap partID name).system.Run (backupDMap partID name).Ordered (before ++ after) s)
    (quiet : ∀ label ∈ after, label.Quiet) (round : .drain ∈ after) (stopped : ∀ tid, s.writers tid = [])
    (idle : s.worker = .idle) : s.db.Restores partID name s.str.layers.lookup :=
  (SiteOf.Run.backup_saved (fun _ backup => backup) (fun _ _ allowed => allowed.1) (fun _ _ allowed =>
    allowed.2) run quiet
    round stopped idle).restores

/-- A key that is put twice in a new storage, and deleted. -/
theorem put_twice_and_delete : ∃ s₀ s₁ s₂ s₃ : Storage, s₀.Valid ∧ s₀.layers.lookup = (fun _ => none) ∧
    s₀.put [true] 5 ⟨[107], 0, [1]⟩ = .ok (s₁, none) ∧ s₁.put [true] 5 ⟨[107], 0, [1]⟩ = .ok (s₂, none) ∧
    s₂.delete true 5 = .ok (s₃, none) ∧ s₃.Valid ∧ s₃.layers.lookup 5 = none := by
  let v : VData := ⟨[107], 0, [1]⟩
  obtain ⟨t, table, created, offset, size⟩ := Storage.new_empty
  have length : v.encode.length = 15 := by decide
  obtain ⟨t₁, put₁, offset₁, size₁⟩ := Table.put_fits 5 (show v.key.length < maxKeyLen by decide)
    (show v.encode.length + t.offset < t.allocated by omega)
  obtain ⟨t₂, put₂, _⟩ := Table.put_fits 5 (show v.key.length < maxKeyLen by decide)
    (show v.encode.length + t₁.offset < t₁.allocated by omega)
  have step {t stored : Table} (fits : t.put 5 v = .ok stored) :
      Storage.put ⟨[t], false, false⟩ [true] 5 v = .ok (⟨[stored], false, false⟩, none) :=
        Storage.put_of_fits rfl fits
  obtain ⟨valid, empty⟩ := Storage.new_spec created
  obtain ⟨valid₁, _⟩ := Storage.put_spec valid (show v.value.length < 2 ^ 32 by decide) (step put₁)
  obtain ⟨valid₂, _⟩ := Storage.put_spec valid₁ (show v.value.length < 2 ^ 32 by decide) (step put₂)
  obtain ⟨s₃, delete⟩ := Storage.delete_succeeds valid₂.nonempty 5
  refine ⟨_, _, _, s₃, valid, empty, step put₁, step put₂, delete, (Storage.delete_spec valid₂ delete).1, ?_⟩
  rw [Storage.delete_lookup_eq_none_iff valid₂ delete]
  exact List.countP_le_length

/-- A put on a backup, and a round of the worker after it. -/
def putRound (hkey : UInt64) (v : VData) : List SiteLabel :=
  [.start 0 (.putBackupOperation hkey v), .put 0, .log 0] ++ [.drain, .view, .add, .flush]

/-- The disk after the first put has been synced. -/
def firstSaved (hkey : UInt64) (v : VData) : Badger :=
  Badger.set (Badger.set (fun _ => none) (bkey hkey) (.raw (v.encode ++ [0]))) (dmapKey 3 [100]) (.hkeys {hkey})

theorem putRound_run {s₀ s₁ : Storage} {v : VData} (valid : s₀.Valid) (empty : s₀.layers.lookup = fun _ => none)
    (short : v.value.length < 2 ^ 32) (put : s₀.put [true] 5 v = .ok (s₁, none)) :
    ∃ writers, (∀ tid, writers tid = []) ∧ (backupDMap 3 [100]).system.Run (backupDMap 3 [100]).Ordered (putRound 5 v)
      ⟨s₁, ∅, none, writers, .idle, firstSaved 5 v⟩ := by
  let log : Finmap fun _ : UInt64 => LogOp := Finmap.insert 5 .put ∅
  let db : Badger := fun _ => none
  let wb := Batch.addPut ⟨db, ∅, []⟩ 5 (.ok (v.encode ++ [0]))
  obtain ⟨valid₁, view⟩ := Storage.put_spec valid short put
  have found : s₁.layers.lookup 5 = some v := by rw [view, Function.update_self]
  have raw : s₁.getRaw 5 = .ok (.ok (v.encode ++ [0])) := by rw [Storage.getRaw_eq valid₁, found]; rfl
  have r : (backupDMap 3 [100]).system.Run (backupDMap 3 [100]).Ordered [] ⟨s₀, ∅, none, fun _ => [], .idle, db⟩ :=
    .start ⟨valid, rfl, rfl, fun _ => rfl, rfl, ⟨∅, rfl, by simp [backupDMap, tableStore, empty]⟩, by
      simp [backupDMap, tableStore, empty]⟩
  have r := r.andThenAllowed (.start 0 (.putBackupOperation 5 v)) ⟨trivial, trivial⟩ (.start rfl trivial)
  have r := r.andThenAllowed (.put 0) ⟨fun _ _ _ next => by cases next; exact short, trivial⟩ (.put rfl ⟨_, put⟩)
  have r : (backupDMap 3 [100]).system.Run (backupDMap 3 [100]).Ordered _ ⟨s₁, log, none, _, .idle, db⟩ :=
    r.andThenAllowed (.log 0) ⟨trivial, fun _ _ _ next => by
      cases next
      exact .inl (by simp [LogOp.Matches, backupDMap, tableStore, found])⟩ (.log rfl)
  generalize done : Site.writers _ = writers at r
  have r := r.andThenAllowed .drain ⟨trivial, trivial⟩
      (@SiteOf.Step.drain _ _ _ [(5, .put)] rfl (by decide) (mem_single_iff_lookup 5 .put))
  have r := r.andThenAllowed .view ⟨trivial, trivial⟩ (.view rfl rfl)
  have r := r.andThenAllowed .add ⟨trivial, trivial⟩ (.addPut rfl raw)
  refine ⟨writers, fun tid => ?_, r.andThenAllowed .flush ⟨trivial, trivial⟩ (@SiteOf.Step.flush _ _ _ wb rfl)⟩
  subst done
  by_cases zero : tid = 0 <;> simp [Site.setWriter, zero]

/-- A put, and a round of the worker after it. -/
theorem synced_backup_restored_put : ∃ (before after : List SiteLabel) (s : Site Storage),
    (backupDMap 3 [100]).system.Run (backupDMap 3 [100]).Ordered (before ++ after) s ∧
      (∀ label ∈ after, label.Quiet) ∧ .drain ∈ after ∧ (∀ tid, s.writers tid = []) ∧ s.worker = .idle ∧
      s.str.layers.lookup 5 = some ⟨[107], 0, [1]⟩ ∧ s.db.Restores 3 [100] s.str.layers.lookup := by
  obtain ⟨s₀, s₁, _, _, valid, empty, put, _⟩ := put_twice_and_delete
  obtain ⟨writers, stopped, run⟩ := putRound_run valid empty (by decide) put
  have quiet : ∀ label ∈ [SiteLabel.drain, .view, .add, .flush], label.Quiet := by simp [SiteLabel.Quiet]
  have restored := synced_backup_restored 3 [100] run quiet (.head _) stopped rfl
  refine ⟨_, _, _, run, ?_⟩
  refine ⟨quiet, .head _, stopped, rfl, ?_, restored⟩
  rw [(Storage.put_spec valid (by decide) put).2, Function.update_self]

/-- A handler has stored a key, the delete of another one comes before it has logged the put, and
then it does. The sync skips the put, and the key that has been on disk before stays there. -/
theorem deleted_backup_key_restored : ∃ (before after : List SiteLabel) (s : Site Storage),
    (backupDMap 3 [100]).system.AnyRun (before ++ after) s ∧ (∀ label ∈ after, label.Quiet) ∧ .drain ∈ after ∧
      (∀ tid, s.writers tid = []) ∧ s.worker = .idle ∧ s.str.get 5 = .ok (.error .keyNotFound) ∧
      s.db.hkeys 3 [100] = .ok {5} ∧ ∃ str, loadDMap s.db [true] 3 [100] [5] = .ok str ∧
        str.get 5 = .ok (.ok ⟨[107], 0, [1]⟩) := by
  let v : VData := ⟨[107], 0, [1]⟩
  obtain ⟨s₀, s₁, s₂, s₃, valid, empty, put₁, put₂, delete, valid₃, gone⟩ := put_twice_and_delete
  obtain ⟨writers, stopped, run⟩ := putRound_run valid empty (by decide) put₁
  let db := firstSaved 5 v
  have listed : db.hkeys 3 [100] = .ok {5} := by simp [db, firstSaved, Badger.hkeys, Badger.set]
  have saved : db (bkey 5) = some (.raw (v.encode ++ [0])) := by
    simp only [db, firstSaved, Badger.set]
    rw [Function.update_of_ne (bkey_ne_dmapKey 5 3 [100]), Function.update_self]
  let wb := Batch.addPut ⟨db, {5}, []⟩ 5 (.error .keyNotFound)
  have missing : s₃.getRaw 5 = .ok (.error .keyNotFound) := by rw [Storage.getRaw_eq valid₃, gone]; rfl
  have r : (backupDMap 3 [100]).system.AnyRun (putRound 5 v) ⟨s₁, ∅, none, writers, .idle, db⟩ :=
    run.mono fun _ _ _ => trivial
  have r := r.andThen (.start 0 (.putBackupOperation 5 v)) (.start (stopped 0) trivial)
  have r := r.andThen (.put 0) (.put rfl ⟨_, put₂⟩)
  have r := r.andThen (.start 1 (.deleteBackupOperation 5)) (.start (stopped 1) trivial)
  have r := r.andThen (.lock 1) (.lock rfl rfl)
  have r := r.andThen (.delete 1 none) (.delete rfl ⟨_, delete⟩)
  have r := r.andThen (.log 1) (.log rfl)
  have r := r.andThen (.unlock 1) (.unlock rfl)
  have r : (backupDMap 3 [100]).system.AnyRun _ ⟨s₃, Finmap.insert 5 .put (Finmap.insert 5 .delete ∅), none, _,
      .idle, db⟩ :=
    r.andThen (.log 0) (.log rfl)
  generalize done : Site.writers _ = writers' at r
  have last : ∀ other op', (other, op') ∈ [((5 : UInt64), LogOp.put)] ↔
      (Finmap.insert 5 .put (Finmap.insert 5 .delete ∅) : Finmap fun _ : UInt64 => LogOp).lookup other =
          some op' := by
    rw [Finmap.insert_insert]
    exact mem_single_iff_lookup 5 .put
  have r := r.andThen .drain (@SiteOf.Step.drain _ _ _ [(5, .put)] rfl (by decide) last)
  have r := r.andThen .view (.view rfl (Badger.hkeysOrNew_of_ok listed))
  have r := r.andThen .add (.addPut rfl missing)
  have r : (backupDMap 3 [100]).system.AnyRun _ ⟨s₃, ∅, none, writers', .idle,
      db.set (dmapKey 3 [100]) (.hkeys {5})⟩ :=
    r.andThen .flush (@SiteOf.Step.flush _ _ _ wb rfl)
  have same : db.set (dmapKey 3 [100]) (.hkeys {5}) = db := by simp [db, firstSaved, Badger.set]
  rw [same, List.append_assoc, List.append_assoc, List.append_assoc] at r
  obtain ⟨str, load⟩ : ∃ str, loadDMap db [true] 3 [100] [5] = .ok str := loadDMap_returns listed fun hkey mem => by
    cases List.mem_singleton.1 mem
    exact ⟨_, saved, by decide⟩
  let restored (hkey : UInt64) : Option VData := if hkey = 5 then some v else none
  have values (hkey : UInt64) (w : VData) (shown : restored hkey = some w) :
      ∃ raw, db (bkey hkey) = some (.raw raw) ∧ decodeRaw raw = .ok w := by
    by_cases same : hkey = 5
    · subst same
      cases shown
      exact ⟨_, saved, decodeRaw_encode ⟨by decide, by decide⟩ _⟩
    · simp [restored, same] at shown
  have back := loadDMap_spec (by simp [restored]) values load 5
  have finished (tid : Tid) : writers' tid = [] := by
    subst done
    by_cases zero : tid = 0
    · simp [Site.setWriter, zero]
    · by_cases one : tid = 1 <;> simp [Site.setWriter, zero, one, stopped]
  have absent : s₃.get 5 = .ok (.error .keyNotFound) := by
    rw [Storage.get_eq valid₃.nonempty, gone]
    rfl
  have quiet : ∀ label ∈ [SiteLabel.drain, .view, .add, .flush], label.Quiet := by simp [SiteLabel.Quiet]
  refine ⟨_, _, _, r, ?_⟩
  exact ⟨quiet, .head _, finished, rfl, absent, listed, str, load, back⟩

end Olric
