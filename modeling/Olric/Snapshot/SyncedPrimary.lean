import Olric.Snapshot.SiteSpec

namespace Olric.SiteOf

variable {M : Type} (o : SiteOf M)

/-- Every entry in memory is tracked. -/
def Clean (s : Site M) : Prop := ∀ hkey, o.Tracks s hkey (o.store.view s.str hkey)

/-- Where the holder of the mutex is. A key that `delKeyVal` has logged is tracked as deleted while
it still is in memory. -/
inductive Stage (s : Site M) : List WriteStep → Prop
  | putting {hkey value} (clean : o.Clean s) : Stage s [.put hkey value, .log hkey .put, .unlock]
  | dooming {hkey} (clean : o.Clean s) : Stage s [.log hkey .delete, .delete hkey, .unlock]
  | deleting {hkey} (clean : o.Clean s) : Stage s [.delete hkey, .log hkey .delete, .unlock]
  | logging {hkey op} (agrees : op.Matches (o.store.view s.str hkey))
      (others : ∀ other, other ≠ hkey → o.Tracks s other (o.store.view s.str other)) : Stage s [.log hkey op, .unlock]
  | doomed {hkey} (gone : o.Tracks s hkey none)
      (others : ∀ other, other ≠ hkey → o.Tracks s other (o.store.view s.str other)) : Stage s [.delete hkey, .unlock]
  | done (clean : o.Clean s) : Stage s [.unlock]

/-- A goroutine that has nothing to do or waits for the mutex. -/
def Waiting (steps : List WriteStep) : Prop := steps = [] ∨ ∃ w : Writer, w.OnPrimary ∧ steps = w.steps

structure Exclusive (s : Site M) : Prop where
  free : s.mutex = none → o.Clean s
  held : ∀ tid, s.mutex = some tid → o.Stage s (s.writers tid)
  waiting : ∀ tid, s.mutex ≠ some tid → Waiting (s.writers tid)

variable {o} {s s' : Site M} {label : SiteLabel}

/-- Nothing in memory changes, and what is tracked stays so. -/
theorem Stage.map {steps : List WriteStep} (stage : o.Stage s steps) (view : o.store.view s'.str = o.store.view s.str)
    (kept : ∀ hkey entry, entry = none ∨ entry = o.store.view s.str hkey → o.Tracks s hkey entry →
      o.Tracks s' hkey entry) :
    o.Stage s' steps := by
  have clean (hkey : UInt64) (tracks : o.Tracks s hkey (o.store.view s.str hkey)) :
      o.Tracks s' hkey (o.store.view s'.str hkey) := by
    rw [view]
    exact kept hkey _ (.inr rfl) tracks
  cases stage with
  | putting all => exact .putting fun hkey => clean hkey (all hkey)
  | dooming all => exact .dooming fun hkey => clean hkey (all hkey)
  | deleting all => exact .deleting fun hkey => clean hkey (all hkey)
  | logging agrees others => exact .logging (view ▸ agrees) fun other ne => clean other (others other ne)
  | doomed gone others => exact .doomed (kept _ _ (.inl rfl) gone) fun other ne => clean other (others other ne)
  | done all => exact .done fun hkey => clean hkey (all hkey)

theorem Exclusive.quiet (inv : o.Exclusive s) (step : o.Step s label s') (quiet : label.Quiet) (fine : o.Fine s label)
    (ready : o.Ready s) : o.Exclusive s' := by
  obtain ⟨_, view, writers, mutex⟩ := step.quiet_view quiet fine ready
  have kept (hkey : UInt64) (entry : Option VData) (real : entry = none ∨ entry = o.store.view s.str hkey)
      (tracks : o.Tracks s hkey entry) : o.Tracks s' hkey entry := step.quiet_tracks quiet ready real tracks
  refine ⟨fun free hkey => ?_, fun tid held => ?_, fun tid other => ?_⟩
  · rw [view]
    exact kept hkey _ (.inr rfl) (inv.free (mutex ▸ free) hkey)
  · rw [writers]
    exact (inv.held tid (mutex ▸ held)).map view kept
  · rw [writers]
    exact inv.waiting tid (mutex ▸ other)

/-- Only the holder of the mutex takes a step other than to lock it. -/
theorem Exclusive.holder (inv : o.Exclusive s) {tid : Tid} {next : WriteStep} {rest : List WriteStep}
    (writing : s.writers tid = next :: rest) (ne : next ≠ .lock) : s.mutex = some tid := by
  by_contra other
  rcases inv.waiting tid other with done | ⟨w, primary, waits⟩
  · cases writing.symm.trans done
  · cases w with
    | putKeyVal | delKeyVal | givenUp | deletePrevOperation => exact ne (List.cons.inj (writing.symm.trans waits)).1
    | putBackupOperation | deleteBackupOperation => cases primary

/-- The holder of the mutex has taken a step. -/
theorem Exclusive.act (inv : o.Exclusive s) {tid : Tid} {rest : List WriteStep} (held : s.mutex = some tid)
    (writers : s'.writers = Function.update s.writers tid rest) (mutex : s'.mutex = s.mutex)
    (stage : o.Stage s' rest) : o.Exclusive s' := by
  refine ⟨fun free => ?_, fun other atOther => ?_, fun other ne => ?_⟩
  · cases (mutex.symm.trans free).symm.trans held
  · cases (mutex.symm.trans atOther).symm.trans held
    rw [writers, Function.update_self]
    exact stage
  · have differs : other ≠ tid := by
      rintro rfl
      exact ne (mutex.trans held)
    rw [writers, Function.update_of_ne differs]
    exact inv.waiting other (mutex ▸ ne)

theorem Exclusive.start {tid : Tid} {w : Writer} (inv : o.Exclusive s) (free : s.writers tid = [])
    (primary : w.OnPrimary) : o.Exclusive (s.setWriter tid w.steps) := by
  refine ⟨fun open' hkey => (inv.free open' hkey).congr rfl rfl rfl, fun other held => ?_, fun other ne => ?_⟩
  · have stage := inv.held other held
    have differs : other ≠ tid := by
      rintro rfl
      rw [free] at stage
      cases stage
    dsimp only [Site.setWriter]
    rw [Function.update_of_ne differs]
    exact stage.map rfl fun _ _ _ tracks => tracks.congr rfl rfl rfl
  · by_cases same : other = tid
    · subst same
      dsimp only [Site.setWriter]
      rw [Function.update_self]
      exact .inr ⟨w, primary, rfl⟩
    · dsimp only [Site.setWriter]
      rw [Function.update_of_ne same]
      exact inv.waiting other ne

theorem Exclusive.lock {tid : Tid} {rest : List WriteStep} (inv : o.Exclusive s)
    (next : s.writers tid = .lock :: rest)
    (free : s.mutex = none) : o.Exclusive { s.setWriter tid rest with mutex := some tid } := by
  have clean : o.Clean { s.setWriter tid rest with mutex := some tid } :=
    fun hkey => (inv.free free hkey).congr rfl rfl rfl
  have waits (other : Tid) : Waiting (s.writers other) := inv.waiting other (by simp [free])
  refine ⟨nofun, fun other held => ?_, fun other ne => ?_⟩
  · cases held
    dsimp only [Site.setWriter]
    rw [Function.update_self]
    rcases waits tid with done | ⟨w, primary, steps⟩
    · cases next.symm.trans done
    · have rest := next.symm.trans steps
      cases w with
      | putKeyVal =>
        cases rest
        exact .putting clean
      | delKeyVal =>
        cases rest
        exact .dooming clean
      | givenUp =>
        cases rest
        exact .done clean
      | deletePrevOperation =>
        cases rest
        exact .deleting clean
      | putBackupOperation | deleteBackupOperation => cases primary
  · dsimp only [Site.setWriter]
    rw [Function.update_of_ne fun eq => ne (congrArg some eq).symm]
    exact waits other

theorem Exclusive.unlock {tid : Tid} {rest : List WriteStep} (inv : o.Exclusive s)
    (next : s.writers tid = .unlock :: rest) : o.Exclusive { s.setWriter tid rest with mutex := none } := by
  have held := inv.holder next nofun
  have stage := inv.held tid held
  rw [next] at stage
  cases stage with
  | done clean =>
    refine ⟨fun _ hkey => (clean hkey).congr rfl rfl rfl, nofun, fun other _ => ?_⟩
    by_cases same : other = tid
    · subst same
      dsimp only [Site.setWriter]
      rw [Function.update_self]
      exact .inl rfl
    · dsimp only [Site.setWriter]
      rw [Function.update_of_ne same]
      exact inv.waiting other (by simpa [held] using fun eq => same eq.symm)

theorem Exclusive.put {tid : Tid} {hkey : UInt64} {value : VData} {rest : List WriteStep}
    {err : Option StorageError} {str : M} (inv : o.Exclusive s) (next : s.writers tid = .put hkey value :: rest)
    (view : o.store.view str =
      if err = none then Function.update (o.store.view s.str) hkey (some value) else o.store.view s.str) :
    o.Exclusive { s.setWriter tid (if err = none then rest else afterError rest) with str } := by
  have held := inv.holder next nofun
  have stage := inv.held tid held
  rw [next] at stage
  refine inv.act held rfl rfl ?_
  cases stage with
  | putting clean =>
    by_cases success : err = none
    · rw [if_pos success] at view ⊢
      refine .logging ?_ fun other ne => ?_
      · simp [LogOp.Matches, view]
      · rw [view, Function.update_of_ne ne]
        exact (clean other).congr rfl rfl rfl
    · rw [if_neg success] at view ⊢
      refine .done fun other => ?_
      rw [view]
      exact (clean other).congr rfl rfl rfl

theorem Exclusive.delete {tid : Tid} {hkey : UInt64} {rest : List WriteStep} {str : M} (inv : o.Exclusive s)
    (next : s.writers tid = .delete hkey :: rest)
    (view : o.store.view str = Function.update (o.store.view s.str) hkey none) :
    o.Exclusive { s.setWriter tid rest with str } := by
  have held := inv.holder next nofun
  have stage := inv.held tid held
  rw [next] at stage
  have other {key : UInt64} (ne : key ≠ hkey) (tracks : o.Tracks s key (o.store.view s.str key)) :
      o.Tracks { s.setWriter tid rest with str } key (o.store.view str key) := by
    rw [view, Function.update_of_ne ne]
    exact tracks.congr rfl rfl rfl
  refine inv.act held rfl rfl ?_
  cases stage with
  | deleting clean => exact .logging (by simp [LogOp.Matches, view]) fun key ne => other ne (clean key)
  | doomed gone others =>
    refine .done fun key => ?_
    by_cases same : key = hkey
    · subst same
      rw [view, Function.update_self]
      exact gone.congr rfl rfl rfl
    · exact other same (others key same)

theorem Exclusive.log {tid : Tid} {hkey : UInt64} {op : LogOp} {rest : List WriteStep} (inv : o.Exclusive s)
    (next : s.writers tid = .log hkey op :: rest) :
    o.Exclusive { s.setWriter tid rest with log := s.log.insert hkey op } := by
  have held := inv.holder next nofun
  have stage := inv.held tid held
  rw [next] at stage
  refine inv.act held rfl rfl ?_
  cases stage with
  | dooming clean => exact .doomed (tracks_log tid _ rfl) fun other ne => (clean other).log_other ne tid _ _
  | logging agrees others =>
    refine .done fun key => ?_
    by_cases same : key = hkey
    · subst same
      exact tracks_log tid _ agrees
    · exact (others key same).log_other same tid _ _

theorem Exclusive.step (inv : o.Exclusive s) (only : ∀ w, o.writes w → w.OnPrimary) (step : o.Step s label s')
    (fine : o.Fine s label) (ready : o.Ready s) : o.Exclusive s' := by
  have quiet := fun quiet => inv.quiet step quiet fine ready
  cases step with
  | start free may => exact inv.start free (only _ may)
  | lock next free => exact inv.lock next free
  | unlock next => exact inv.unlock next
  | put next run => exact inv.put next (o.store.put_view ready.valid (fine _ _ _ next) run).2
  | delete next run =>
    obtain ⟨_, rfl, view⟩ := o.store.delete_view ready.valid (fine _ _ next) run
    exact inv.delete next view
  | log next => exact inv.log next
  | merge | drain | view | addPut | addDelete | flush | relog => exact quiet trivial

/-- In a primary dmap, whatever the order of its writers and the syncs: after the writers, one more
round saves what is in memory. -/
theorem Run.primary_saved {allow : Site M → SiteLabel → Prop} {before after : List SiteLabel}
    (only : ∀ w, o.writes w → w.OnPrimary) (fine : ∀ s label, allow s label → o.Fine s label)
    (run : o.system.Run allow (before ++ after) s) (quiet : ∀ label ∈ after, label.Quiet) (round : .drain ∈ after)
    (stopped : ∀ tid, s.writers tid = []) (idle : s.worker = .idle) : o.Saved s.db s.str := by
  obtain ⟨ready, inv⟩ := Run.ready_invariant fine (fun _ => o.Exclusive)
    (fun s init => ⟨fun _ => init.2.2.2.2.2.tracks init.2.1 init.2.2.2.2.1, fun tid held => (by
      cases held.symm.trans init.2.2.1), fun tid _ => .inl (init.2.2.2.1 tid)⟩)
    (fun _ _ _ _ ready inv allowed step => inv.step only step (fine _ _ allowed) ready) run
  have free : s.mutex = none := by
    rw [Option.eq_none_iff_forall_ne_some]
    intro tid held
    have stage := inv.held tid held
    rw [stopped tid] at stage
    cases stage
  exact saved_of_tracks ready (Run.log_empty fine run quiet round) idle (inv.free free)

end Olric.SiteOf

namespace Olric

/-- A primary dmap whose storage is a finite map. -/
def primaryDMap (partID : UInt64) (name : Bytes) : SiteOf (Finmap fun _ : UInt64 => { v : VData // v.Fits }) where
  store := finiteMap
  partID := partID
  name := name
  writes := Writer.OnPrimary

theorem synced_primary_saved (partID : UInt64) (name : Bytes) {before after : List SiteLabel}
    {s : Site (Finmap fun _ : UInt64 => { v : VData // v.Fits })}
    (run : (primaryDMap partID name).system.AnyRun (before ++ after) s) (quiet : ∀ label ∈ after, label.Quiet)
    (round : .drain ∈ after) (stopped : ∀ tid, s.writers tid = []) (idle : s.worker = .idle) :
    (primaryDMap partID name).Saved s.db s.str ∧
      ((∃ tid, .log tid ∈ before) → ∃ hkeys, s.db.hkeys partID name = .ok hkeys) := by
  have fine (s : Site _) (label : SiteLabel) (_ : True) : (primaryDMap partID name).Fine s label := by
    cases label <;> simp [SiteOf.Fine, primaryDMap, finiteMap]
  refine ⟨SiteOf.Run.primary_saved (fun _ primary => primary) fine run quiet round stopped idle, fun ⟨tid, mem⟩ => ?_⟩
  have log := SiteOf.Run.log_empty fine run quiet round
  have recorded := SiteOf.Run.recorded fine run ⟨tid, List.mem_append_left _ mem⟩
  exact (recorded.resolve_left (not_not.2 log)).resolve_left (not_not.2 idle)

/-- A put, and a round of the worker after it. -/
theorem synced_primary_saved_put : ∃ (before after : List SiteLabel) (s : Site _),
    (primaryDMap 3 [100]).system.AnyRun (before ++ after) s ∧ (∀ label ∈ after, label.Quiet) ∧ .drain ∈ after ∧
      (∀ tid, s.writers tid = []) ∧ s.worker = .idle ∧ s.str.lookup 5 = some ⟨⟨[107], 0, [1]⟩, by decide, by decide⟩ ∧
      (primaryDMap 3 [100]).Saved s.db s.str ∧ ∃ hkeys, s.db.hkeys 3 [100] = .ok hkeys := by
  let v : { v : VData // v.Fits } := ⟨⟨[107], 0, [1]⟩, by decide, by decide⟩
  let str : Finmap fun _ : UInt64 => { v : VData // v.Fits } := Finmap.insert 5 v ∅
  let log : Finmap fun _ : UInt64 => LogOp := Finmap.insert 5 .put ∅
  let db : Badger := fun _ => none
  let wb := Batch.addPut ⟨db, ∅, []⟩ 5 (.ok (v.1.encode ++ [0]))
  have r : (primaryDMap 3 [100]).system.AnyRun [] ⟨∅, ∅, none, fun _ => [], .idle, db⟩ :=
    .start ⟨trivial, rfl, rfl, fun _ => rfl, rfl, ⟨∅, rfl, fun hkey => by simp [primaryDMap, finiteMap]⟩, by
      simp [primaryDMap, finiteMap]⟩
  have r := r.andThen (.start 0 (.putKeyVal 5 v.1)) (.start rfl trivial)
  have r := r.andThen (.lock 0) (.lock rfl rfl)
  have r := r.andThen (.put 0) (.put rfl (.inl ⟨v.2, rfl, rfl⟩))
  have r := r.andThen (.log 0) (.log rfl)
  have r : (primaryDMap 3 [100]).system.AnyRun _ ⟨str, log, none, _, .idle, db⟩ := r.andThen (.unlock 0) (.unlock rfl)
  generalize done : Site.writers _ = writers at r
  have r := r.andThen .drain (@SiteOf.Step.drain _ _ _ [(5, .put)] rfl (by decide) (mem_single_iff_lookup 5 .put))
  have r := r.andThen .view (.view rfl rfl)
  have r := r.andThen .add (.addPut rfl rfl)
  have r : (primaryDMap 3 [100]).system.AnyRun
      ([.start 0 (.putKeyVal 5 v.1), .lock 0, .put 0, .log 0, .unlock 0] ++ [.drain, .view, .add, .flush])
      ⟨str, ∅, none, writers, .idle, _⟩ :=
    r.andThen .flush (@SiteOf.Step.flush _ _ _ wb rfl)
  have stopped (tid : Tid) : writers tid = [] := by
    subst done
    by_cases zero : tid = 0 <;> simp [Site.setWriter, zero]
  have quiet : ∀ label ∈ [SiteLabel.drain, .view, .add, .flush], label.Quiet := by simp [SiteLabel.Quiet]
  obtain ⟨saved, recorded⟩ := synced_primary_saved 3 [100] r quiet (.head _) stopped rfl
  exact ⟨_, _, _, r, quiet, .head _, stopped, rfl, Finmap.lookup_insert _, saved, recorded ⟨0, by simp⟩⟩

end Olric
