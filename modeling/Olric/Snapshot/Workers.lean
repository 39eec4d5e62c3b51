import Olric.Snapshot.SnapshotSpec

namespace Olric.Snapshot

variable {hashing : Hashing}

/-- A partition with oplogs has a worker that runs. -/
def Served (s : Snapshot) : Prop := ∀ partID, (s.oplogs partID).entries ≠ [] → s.workers partID = some .running

/-- A dmap is registered on a partition that has oplogs already or that has never had any. -/
def KeepsWorkers (s : Snapshot) : SnapshotOp → Prop
  | .create h => (s.oplogs h.partID).entries = [] → s.workers h.partID = none
  | _ => True

variable {s s' : Snapshot}

theorem Served.register {h : Handle} {str : Storage} (served : s.Served)
    (allowed : (s.oplogs h.partID).entries = [] → s.workers h.partID = none) (run : s.Registers h str s') :
    s'.Served := by
  intro partID used
  rw [run.workers]
  rw [run.oplogs] at used
  by_cases same : partID = h.partID
  · subst same
    rw [Function.update_self]
    by_cases empty : (s.oplogs h.partID).entries = []
    · rw [allowed empty]
      rfl
    · rw [served _ empty]
      rfl
  · rw [Function.update_of_ne same] at used ⊢
    exact served partID used

theorem Served.unregister {dkey : DKey} {partID : UInt64} {name : Bytes} (served : s.Served)
    (run : s.Unregisters dkey partID name s') : s'.Served := by
  intro other used
  rw [run.workers]
  rw [run.oplogs] at used
  by_cases same : other = partID
  · subst same
    rw [Function.update_self] at used
    rw [if_neg used]
    exact served other run.nonempty
  · rw [Function.update_of_ne same] at used
    split
    · rw [Function.update_of_ne same]
      exact served other used
    · exact served other used

theorem Served.unregisterDMap (served : s.Served) (dkey : DKey) (partID : UInt64) (name : Bytes) :
    (s.unregisterDMap dkey partID name).1.Served := by
  rcases unregisterDMap_cases s dkey partID name with ⟨same, _⟩ | run
  · rwa [same]
  · exact served.unregister run

theorem Served.step {op : SnapshotOp} (served : s.Served) (allowed : s.KeepsWorkers op)
    (step : Step hashing s op s') : s'.Served := by
  cases step with
  | @create h str _ _ =>
    rcases registerDMap_cases s h str with ⟨same, _⟩ | run
    · rwa [same]
    · exact served.register allowed run
  | put | delete | merge | mergeExit => exact served
  | sync run =>
    obtain ⟨workers, oplogs⟩ := sync_frame run
    intro partID used
    rw [workers]
    rw [oplogs] at used
    exact served partID used
  | unregister => exact served.unregisterDMap _ _ _
  | @destroy dkey partID name =>
    rcases destroyDMap_cases s dkey partID name with same | ⟨hkeys, _, same⟩
    · rwa [same]
    · rw [same]
      exact Served.unregisterDMap (s := { s with db := s.db.deleteValues hkeys }) served dkey partID name

/-- Dmaps keep being synced as long as no partition is used again after its last dmap is gone. -/
theorem oplogs_have_worker {ops : List SnapshotOp} (run : (system hashing).Run KeepsWorkers ops s) (partID : UInt64)
    (used : (s.oplogs partID).entries ≠ []) : s.workers partID = some .running := by
  refine run.invariant Served ?_ (fun _ _ _ served allowed step => served.step allowed step) partID used
  rintro _ rfl partID used
  exact absurd rfl used

theorem first_dmap_has_worker : ∃ s, (system soloHashing).Run KeepsWorkers [.create firstDMap] s ∧
    (s.oplogs 0).entries ≠ [] ∧ s.workers 0 = some .running := by
  have run : (system soloHashing).Run KeepsWorkers ([] ++ [.create firstDMap]) _ :=
    .next (.start rfl) (fun _ => rfl) (Step.create rfl rfl)
  exact ⟨_, run, by decide, oplogs_have_worker run 0 (by decide)⟩

theorem recreated_dmap_has_no_worker : ∃ ops s, (system soloHashing).AnyRun ops s ∧
    (s.oplogs 0).entries ≠ [] ∧ s.workers 0 = some .cancelled := by
  have start : (system soloHashing).Reachable empty := .start rfl
  have created := start.next (Step.create (h := firstDMap) rfl rfl)
  have gone := created.next (Step.unregister : Step soloHashing _ (.unregister .primary 0 [100]) _)
  obtain ⟨ops, again⟩ := gone.next (Step.create (h := secondDMap) rfl rfl)
  exact ⟨ops, _, again, by decide, rfl⟩

end Olric.Snapshot
