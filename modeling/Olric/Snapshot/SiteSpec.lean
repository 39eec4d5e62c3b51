import Olric.Snapshot.Keyed
import Olric.Snapshot.Site

namespace Olric

/-- A logged operation that agrees with what is in memory. -/
def LogOp.Matches : LogOp → Option VData → Prop
  | .put, entry => entry ≠ none
  | .delete, entry => entry = none

/-- The batch would leave the entry of the hkey on disk. -/
structure Batch.Holds (wb : Batch) (hkey : UInt64) (entry : Option VData) : Prop where
  listed : hkey ∈ wb.hkeys ↔ entry ≠ none
  value : ∀ v, entry = some v → ∃ raw, wb.db (bkey hkey) = some (.raw raw) ∧ decodeRaw raw = .ok v

namespace Batch

variable {wb : Batch} {hkey other : UInt64} {entry : Option VData}

theorem Holds.addPut_of_ne (ne : other ≠ hkey) (holds : wb.Holds other entry) (reply : Except StorageError Bytes) :
    (wb.addPut hkey reply).Holds other entry := by
  unfold addPut
  split
  · exact ⟨by simp [ne, holds.listed], fun v found => by
      dsimp only [Badger.set]
      rw [Function.update_of_ne fun eq => ne (bkey_injective eq)]
      exact holds.value v found⟩
  · exact holds
  · exact ⟨holds.listed, holds.value⟩

theorem Holds.addDelete_of_ne (ne : other ≠ hkey) (holds : wb.Holds other entry) :
    (wb.addDelete hkey).Holds other entry where
  listed := by simp [addDelete, ne, holds.listed]
  value v found := by
    dsimp only [addDelete, Badger.delete]
    rw [Function.update_of_ne fun eq => ne (bkey_injective eq)]
    exact holds.value v found

theorem addPut_holds {v : VData} (fits : v.Fits) (wb : Batch) (hkey : UInt64) :
    (wb.addPut hkey (.ok (v.encode ++ [0]))).Holds hkey (some v) where
  listed := by simp [addPut]
  value w same := by
    cases same
    exact ⟨_, Function.update_self .., decodeRaw_encode fits _⟩

theorem addPut_failed (wb : Batch) (hkey : UInt64) (entry : Option VData) (f : VData → Bytes) :
    (wb.addPut hkey ((Storage.answer entry).map f)).failed = wb.failed := by
  cases entry <;> rfl

theorem addDelete_holds (wb : Batch) (hkey : UInt64) : (wb.addDelete hkey).Holds hkey none where
  listed := by simp [addDelete]
  value := nofun

theorem Holds.flush (holds : wb.Holds hkey entry) (partID : UInt64) (name : Bytes) :
    Batch.Holds ⟨wb.db.set (dmapKey partID name) (.hkeys wb.hkeys), wb.hkeys, []⟩ hkey entry where
  listed := holds.listed
  value v found := by
    dsimp only [Badger.set]
    rw [Function.update_of_ne (bkey_ne_dmapKey hkey partID name)]
    exact holds.value v found

end Batch

namespace Site

variable {M : Type}

/-- The drained operations that are not in the batch yet. -/
def todo (s : Site M) : List (UInt64 × LogOp) :=
  match s.worker with
  | .drained wcopy => wcopy
  | .adding todo _ => todo
  | .idle | .relogging _ => []

end Site

theorem mem_single_iff_lookup (hkey : UInt64) (op : LogOp) (other : UInt64) (op' : LogOp) :
    (other, op') ∈ [(hkey, op)] ↔ ((∅ : Finmap fun _ : UInt64 => LogOp).insert hkey op).lookup other = some op' := by
  by_cases same : other = hkey
  · subst same
    simp [eq_comm]
  · simp [same]

namespace SiteOf

variable {M : Type} (o : SiteOf M)

/-- What will be on disk when the worker has flushed the batch as it is. -/
def staged (s : Site M) : Except BadgerError Batch :=
  match s.worker with
  | .adding _ wb => .ok wb
  | .idle | .drained _ | .relogging _ => (s.db.hkeysOrNew o.partID o.name).map fun hkeys => ⟨s.db, hkeys, []⟩

/-- The next syncs bring the entry of the hkey to the disk. The last logged operation decides,
then the drained one; without them it is there. -/
structure Tracks (s : Site M) (hkey : UInt64) (entry : Option VData) : Prop where
  logged : ∀ op, s.log.lookup hkey = some op → op.Matches entry
  drained : s.log.lookup hkey = none → ∀ op, (hkey, op) ∈ s.todo → op.Matches entry
  staged : s.log.lookup hkey = none → (∀ op, (hkey, op) ∉ s.todo) → ∀ wb, o.staged s = .ok wb → wb.Holds hkey entry

theorem staged_flush (s : Site M) (db : Badger) (hkeys : Finset UInt64) :
    o.staged { s with db := db.set (dmapKey o.partID o.name) (.hkeys hkeys), worker := .idle } =
      .ok ⟨db.set (dmapKey o.partID o.name) (.hkeys hkeys), hkeys, []⟩ := by
  simp [staged, Badger.hkeysOrNew, Badger.hkeys, Badger.set, Except.map]

/-- The worker is in order. -/
structure Ready (s : Site M) : Prop where
  valid : o.store.Valid s.str
  nodup : (s.todo.map Prod.fst).Nodup
  batch : ∃ wb, o.staged s = .ok wb ∧ wb.failed = []
  noRelog : ∀ failed, s.worker ≠ .relogging failed

section Worker

variable {o} {s s' : Site M} {label : SiteLabel}

/-- Neither the worker nor a merge changes what is in memory, and no operation comes to the oplog. -/
theorem Step.quiet_view (step : o.Step s label s') (quiet : label.Quiet) (fine : o.Fine s label) (ready : o.Ready s) :
    o.store.Valid s'.str ∧ o.store.view s'.str = o.store.view s.str ∧ s'.writers = s.writers ∧
      s'.mutex = s.mutex := by
  cases step with
  | merge run =>
    obtain ⟨valid, same⟩ := o.store.merge_view ready.valid fine run
    exact ⟨valid, same, rfl, rfl⟩
  | drain => exact ⟨ready.valid, rfl, rfl, rfl⟩
  | view => exact ⟨ready.valid, rfl, rfl, rfl⟩
  | addPut => exact ⟨ready.valid, rfl, rfl, rfl⟩
  | addDelete => exact ⟨ready.valid, rfl, rfl, rfl⟩
  | flush => exact ⟨ready.valid, rfl, rfl, rfl⟩
  | relog => exact ⟨ready.valid, rfl, rfl, rfl⟩
  | start | lock | unlock | put | delete | log => cases quiet

/-- The worker stays in order. -/
theorem Step.quiet_ready (step : o.Step s label s') (quiet : label.Quiet) (fine : o.Fine s label)
    (ready : o.Ready s) : o.Ready s' := by
  have valid := (step.quiet_view quiet fine ready).1
  obtain ⟨wb, staged, clean⟩ := ready.batch
  have nodup := ready.nodup
  cases step with
  | merge => exact ⟨valid, nodup, ⟨wb, staged, clean⟩, ready.noRelog⟩
  | @drain wcopy idle distinct complete =>
    simp only [SiteOf.staged, idle] at staged
    refine ⟨valid, ?_, ⟨wb, ?_, clean⟩, fun failed relogging => ?_⟩
    · by_cases empty : wcopy = [] <;> simp [Site.todo, empty, distinct]
    · by_cases empty : wcopy = [] <;> simpa [SiteOf.staged, empty] using staged
    · by_cases empty : wcopy = [] <;> simp [empty] at relogging
  | view drained read =>
    simp only [Site.todo, drained] at nodup
    exact ⟨valid, nodup, ⟨_, rfl, rfl⟩, nofun⟩
  | addPut adding read =>
    simp only [Site.todo, adding] at nodup
    simp only [SiteOf.staged, adding] at staged
    cases Except.ok.inj staged
    refine ⟨valid, (List.nodup_cons.1 nodup).2, ⟨_, rfl, ?_⟩, nofun⟩
    rw [o.store.getRaw_view ready.valid read, Batch.addPut_failed, clean]
  | addDelete adding =>
    simp only [Site.todo, adding] at nodup
    simp only [SiteOf.staged, adding] at staged
    cases Except.ok.inj staged
    exact ⟨valid, (List.nodup_cons.1 nodup).2, ⟨_, rfl, clean⟩, nofun⟩
  | @flush wb' adding =>
    simp only [SiteOf.staged, adding] at staged
    cases Except.ok.inj staged
    rw [if_pos clean]
    exact ⟨valid, .nil, ⟨_, o.staged_flush s _ _, rfl⟩, nofun⟩
  | relog relogging => exact absurd relogging (ready.noRelog _)
  | start | lock | unlock | put | delete | log => cases quiet

/-- A step of the worker keeps track of what is in memory, and of an entry that is to be deleted. -/
theorem Step.quiet_tracks (step : o.Step s label s') (quiet : label.Quiet) (ready : o.Ready s) {hkey : UInt64}
    {entry : Option VData} (real : entry = none ∨ entry = o.store.view s.str hkey) (tracks : o.Tracks s hkey entry) :
    o.Tracks s' hkey entry := by
  obtain ⟨logged, drained, staged⟩ := tracks
  have nodup := ready.nodup
  cases step with
  | merge => exact ⟨logged, drained, staged⟩
  | @drain wcopy idle distinct complete =>
    have todo : Site.todo { s with log := ∅, worker := if wcopy = [] then .idle else .drained wcopy } = wcopy := by
      by_cases empty : wcopy = [] <;> simp [Site.todo, empty]
    refine ⟨by simp, fun _ op mem => logged op ((complete _ _).1 (todo ▸ mem)), fun _ rest wb image => ?_⟩
    have unlogged : s.log.lookup hkey = none := by
      rw [Option.eq_none_iff_forall_ne_some]
      exact fun op found => rest op (todo.symm ▸ (complete _ _).2 found)
    refine staged unlogged (by simp [Site.todo, idle]) wb ?_
    simp only [SiteOf.staged, idle]
    by_cases empty : wcopy = [] <;> simpa [SiteOf.staged, empty] using image
  | view atDrained read =>
    simp only [Site.todo, SiteOf.staged, atDrained, read] at drained staged
    exact ⟨logged, drained, staged⟩
  | @addPut key todo wb reply adding read =>
    simp only [Site.todo, SiteOf.staged, adding, Except.ok.injEq, forall_eq'] at drained staged nodup
    refine ⟨logged, fun unlogged op mem => drained unlogged op (.tail _ mem), fun unlogged rest wb' image => ?_⟩
    cases Except.ok.inj image
    by_cases same : hkey = key
    · subst same
      -- the key is in memory, and it is the entry that is read
      have present : entry ≠ none := drained unlogged .put (.head _)
      obtain ⟨v, found⟩ := Option.ne_none_iff_exists'.1 present
      have inMemory := (real.resolve_left present).symm.trans found
      rw [o.store.getRaw_view ready.valid read, inMemory, found]
      exact Batch.addPut_holds (o.store.fits ready.valid inMemory) wb hkey
    · refine (staged unlogged fun op mem => ?_).addPut_of_ne same reply
      rcases List.mem_cons.1 mem with head | tail
      · exact same (congrArg Prod.fst head)
      · exact rest op tail
  | @addDelete key todo wb adding =>
    simp only [Site.todo, SiteOf.staged, adding, Except.ok.injEq, forall_eq'] at drained staged
    refine ⟨logged, fun unlogged op mem => drained unlogged op (.tail _ mem), fun unlogged rest wb' image => ?_⟩
    cases Except.ok.inj image
    by_cases same : hkey = key
    · subst same
      have absent : entry = none := drained unlogged .delete (.head _)
      rw [absent]
      exact wb.addDelete_holds hkey
    · refine (staged unlogged fun op mem => ?_).addDelete_of_ne same
      rcases List.mem_cons.1 mem with head | tail
      · exact same (congrArg Prod.fst head)
      · exact rest op tail
  | @flush wb adding =>
    obtain ⟨batch, image, clean⟩ := ready.batch
    simp only [Site.todo, SiteOf.staged, adding, Except.ok.injEq, forall_eq'] at drained staged image
    subst image
    rw [if_pos clean]
    refine ⟨logged, fun _ op mem => (by cases mem), fun unlogged _ wb' image => ?_⟩
    cases Except.ok.inj ((o.staged_flush s _ _).symm.trans image)
    exact (staged unlogged (by simp)).flush ..
  | relog relogging => exact absurd relogging (ready.noRelog _)
  | start | lock | unlock | put | delete | log => cases quiet

theorem Step.ready (step : o.Step s label s') (fine : o.Fine s label) (ready : o.Ready s) : o.Ready s' := by
  cases step with
  | put next run =>
    exact ⟨(o.store.put_view ready.valid (fine _ _ _ next) run).1, ready.nodup, ready.batch, ready.noRelog⟩
  | delete next run =>
    exact ⟨(o.store.delete_view ready.valid (fine _ _ next) run).1, ready.nodup, ready.batch, ready.noRelog⟩
  | start | lock | unlock | log => exact ⟨ready.valid, ready.nodup, ready.batch, ready.noRelog⟩
  | merge run => exact (Step.merge run).quiet_ready trivial fine ready
  | drain idle nodup complete => exact (Step.drain idle nodup complete).quiet_ready trivial fine ready
  | view drained read => exact (Step.view drained read).quiet_ready trivial fine ready
  | addPut adding read => exact (Step.addPut adding read).quiet_ready trivial fine ready
  | addDelete adding => exact (Step.addDelete adding).quiet_ready trivial fine ready
  | flush adding => exact (Step.flush adding).quiet_ready trivial fine ready
  | relog relogging => exact absurd relogging (ready.noRelog _)

/-- The steps of the goroutines and the memory have no part in it. -/
theorem Tracks.congr {hkey : UInt64} {entry : Option VData} (tracks : o.Tracks s hkey entry) (log : s'.log = s.log)
    (worker : s'.worker = s.worker) (db : s'.db = s.db) : o.Tracks s' hkey entry := by
  cases s
  cases s'
  subst log worker db
  exact ⟨tracks.logged, tracks.drained, tracks.staged⟩

/-- A logged operation is what counts from now on. -/
theorem tracks_log (tid : Tid) (rest : List WriteStep) {hkey : UInt64} {op : LogOp} {entry : Option VData}
    (agrees : op.Matches entry) : o.Tracks { s.setWriter tid rest with log := s.log.insert hkey op } hkey entry where
  logged op' found := by
    rw [Finmap.lookup_insert] at found
    exact Option.some.inj found ▸ agrees
  drained unlogged := by simp at unlogged
  staged unlogged := by simp at unlogged

theorem Tracks.log_other {hkey other : UInt64} {entry : Option VData} (tracks : o.Tracks s other entry)
    (ne : other ≠ hkey) (tid : Tid) (rest : List WriteStep) (op : LogOp) :
    o.Tracks { s.setWriter tid rest with log := s.log.insert hkey op } other entry := by
  have same : (s.log.insert hkey op).lookup other = s.log.lookup other := Finmap.lookup_insert_of_ne _ ne
  exact ⟨fun op' found => tracks.logged op' (same ▸ found), fun unlogged => tracks.drained (same ▸ unlogged),
    fun unlogged => tracks.staged (same ▸ unlogged)⟩

theorem Saved.tracks (saved : o.Saved s.db s.str) (log : s.log = ∅) (idle : s.worker = .idle) (hkey : UInt64) :
    o.Tracks s hkey (o.store.view s.str hkey) := by
  refine ⟨by simp [log], by simp [Site.todo, idle], fun _ _ wb image => ?_⟩
  obtain ⟨hkeys, read, listed⟩ := saved.listed
  simp only [SiteOf.staged, idle, read, Except.map] at image
  cases Except.ok.inj image
  exact ⟨listed hkey, saved.values hkey⟩

/-- With nothing logged and nothing to sync, what is tracked is on disk. -/
theorem saved_of_tracks (ready : o.Ready s) (log : s.log = ∅) (idle : s.worker = .idle)
    (tracks : ∀ hkey, o.Tracks s hkey (o.store.view s.str hkey)) : o.Saved s.db s.str := by
  obtain ⟨wb, image, _⟩ := ready.batch
  have holds (hkey : UInt64) : wb.Holds hkey (o.store.view s.str hkey) :=
    (tracks hkey).staged (by simp [log]) (by simp [Site.todo, idle]) wb image
  simp only [SiteOf.staged, idle] at image
  cases read : s.db.hkeysOrNew o.partID o.name with
  | error e => simp [read, Except.map] at image
  | ok hkeys =>
    simp only [read, Except.map] at image
    cases Except.ok.inj image
    exact ⟨⟨hkeys, read, fun hkey => (holds hkey).listed⟩, fun hkey => (holds hkey).value⟩

end Worker

section Runs

variable {o} {allow : Site M → SiteLabel → Prop} {labels before after : List SiteLabel} {s : Site M}

theorem ready_init (init : o.system.init s) : o.Ready s := by
  obtain ⟨valid, log, _, _, idle, saved⟩ := init
  obtain ⟨hkeys, read, _⟩ := saved.listed
  exact ⟨valid, by simp [Site.todo, idle], ⟨⟨s.db, hkeys, []⟩, by simp [SiteOf.staged, idle, read, Except.map], rfl⟩,
    by simp [idle]⟩

/-- An invariant of the runs, for steps that start with the worker in order. -/
theorem Run.ready_invariant (fine : ∀ s label, allow s label → o.Fine s label) (Inv : List SiteLabel → Site M → Prop)
    (initial : ∀ s, o.system.init s → Inv [] s)
    (preserved : ∀ labels s label s', o.Ready s → Inv labels s → allow s label → o.Step s label s' →
      Inv (labels ++ [label]) s')
    (run : o.system.Run allow labels s) : o.Ready s ∧ Inv labels s :=
  run.history_invariant (fun labels s => o.Ready s ∧ Inv labels s) (fun s init => ⟨ready_init init, initial s init⟩)
    fun _ _ _ _ inv allowed step =>
      ⟨Step.ready step (fine _ _ allowed) inv.1, preserved _ _ _ _ inv.1 inv.2 allowed step⟩

/-- Once the writers have stopped, a drain leaves the oplog empty for good. -/
theorem Run.log_empty (fine : ∀ s label, allow s label → o.Fine s label)
    (run : o.system.Run allow (before ++ after) s)
    (quiet : ∀ label ∈ after, label.Quiet) (round : .drain ∈ after) : s.log = ∅ := by
  let Inv (labels : List SiteLabel) (s : Site M) : Prop := ∀ before after, labels = before ++ after →
    (∀ label ∈ after, label.Quiet) → .drain ∈ after → s.log = ∅
  refine (Run.ready_invariant fine Inv ?_ ?_ run).2 before after rfl quiet round
  · intro s init before after nil _ round
    rw [(List.append_eq_nil_iff.1 nil.symm).2] at round
    cases round
  · intro labels s label s' ready empty _ step before after split quiet round
    rcases List.eq_nil_or_concat after with rfl | ⟨earlier, last, rfl⟩
    · cases round
    · rw [List.concat_eq_append, ← List.append_assoc] at split
      obtain ⟨same, atEnd⟩ := List.append_inj' split rfl
      cases atEnd
      simp only [List.concat_eq_append, List.mem_append, List.mem_singleton] at quiet round
      have still (stays : label ≠ .drain) : s.log = ∅ :=
        empty before earlier same (fun other mem => quiet other (.inl mem)) (round.resolve_right fun eq =>
          stays eq.symm)
      cases step with
      | drain => rfl
      | merge | view | addPut | addDelete | flush => exact still nofun
      | relog relogging => exact absurd relogging (ready.noRelog _)
      | start | lock | unlock | put | delete | log => cases quiet _ (.inr rfl)

/-- After a logged operation there is a record of hkeys, or one is on its way. -/
theorem Run.recorded (fine : ∀ s label, allow s label → o.Fine s label) (run : o.system.Run allow labels s)
    (logged : ∃ tid, .log tid ∈ labels) :
    s.log ≠ ∅ ∨ s.worker ≠ .idle ∨ ∃ hkeys, s.db.hkeys o.partID o.name = .ok hkeys := by
  let Inv (labels : List SiteLabel) (s : Site M) : Prop := (∃ tid, .log tid ∈ labels) →
    s.log ≠ ∅ ∨ s.worker ≠ .idle ∨ ∃ hkeys, s.db.hkeys o.partID o.name = .ok hkeys
  refine (Run.ready_invariant fine Inv (fun _ _ => nofun) ?_ run).2 logged
  rintro labels s label s' ready recorded - step ⟨tid, mem⟩
  rw [List.mem_append, List.mem_singleton] at mem
  have before (other : ∀ tid, label ≠ .log tid) := recorded ⟨tid, mem.resolve_right fun eq => other tid eq.symm⟩
  cases step with
  | start | lock | unlock | put | delete | merge => exact before nofun
  | @log tid hkey op rest next =>
    refine .inl fun empty => ?_
    have found : (s.log.insert hkey op).lookup hkey = (∅ : Finmap fun _ : UInt64 => LogOp).lookup hkey :=
      congrArg (Finmap.lookup hkey) empty
    rw [Finmap.lookup_insert, Finmap.lookup_empty] at found
    cases found
  | @drain wcopy idle nodup complete =>
    rcases before nofun with some | busy | record
    · refine .inr (.inl ?_)
      have nonempty : wcopy ≠ [] := by
        rintro rfl
        refine some (Finmap.ext_lookup fun hkey => ?_)
        rw [Finmap.lookup_empty, Option.eq_none_iff_forall_ne_some]
        exact fun op found => nomatch (complete _ _).2 found
      simp [nonempty]
    · exact absurd idle busy
    · exact .inr (.inr record)
  | view | addPut | addDelete => exact .inr (.inl nofun)
  | @flush wb => exact .inr (.inr ⟨wb.hkeys, by simp [Badger.hkeys, Badger.set]⟩)
  | relog relogging => exact absurd relogging (ready.noRelog _)

end Runs

end SiteOf

end Olric
