import Olric.Node.Issued
import Olric.Node.Maps

namespace Olric

open Program

variable {cfg : Config} {tid : Tid} {s s' : Node} {p : Place} {name : Bytes} {r : Ref}

theorem mergeInto_quiet (merr : Option StorageError) (tables : List (List (UInt64 × VData))) :
    (Config.mergeInto r merr tables).Follows quiet () fun _ _ => True :=
  Config.mergeInto_only (fun _ _ => rfl) fun _ _ _ => rfl

theorem mergeDMaps_maps {box : DMapBox} {answer : Response} (stored : box.payload = none ∨ box.name ∈ (s.maps p).1)
    (run : (Config.mergeDMaps p box).Runs (Node.exec tid) s answer s') : s'.maps = s.maps := by
  unfold Config.mergeDMaps at run
  cases payload : box.payload with
  | none =>
    rw [payload] at run
    obtain ⟨_, rfl⟩ := run
    rfl
  | some tr =>
    rw [payload] at run
    obtain ⟨imported, s1, allocated, run⟩ := run
    have same : s1.maps = s.maps := Node.exec_maps allocated
    cases imported with
    | none =>
      obtain ⟨_, rfl⟩ := run
      exact same
    | some fresh =>
      obtain ⟨found, s2, ⟨looked, rfl⟩, run⟩ := run
      cases found with
      | none =>
        rcases stored with absent | stored
        · simp [payload] at absent
        · rw [← same] at stored
          exact absurd stored (Finmap.lookup_eq_none.1 looked.symm)
      | some r =>
        obtain ⟨s3, s4, _, ⟨tables, s5, visited, run⟩, before, after⟩ := runs_withLock run
        dsimp only [bind_eq, act, call_bind, ret_bind, pure_eq] at run
        obtain ⟨merr, s6, merged, run⟩ := runs_bind.1 run
        have quietly : s6.maps = s5.maps := maps_of_quiet (mergeInto_quiet none tables) merged
        have last : s4 = s6 := by
          cases merr <;> exact run.2
        rw [after, last, quietly, Node.exec_maps visited, ← same, ← before]
        rfl

theorem dropMoved_maps (run : (cfg.dropMoved p name r).Runs (Node.exec tid) s () s') :
    s'.maps = (s.maps.remove p name).addCount p (-1) := by
  dsimp only [Config.dropMoved, bind_eq, act, call_bind, ret_bind, pure_eq] at run
  obtain ⟨_, s1, removed, _, s2, counted, _, s3, closed, run⟩ := run
  obtain ⟨_, s4, destroyed, _, rfl⟩ := runs_bind.1 run
  have snapshot : s'.maps = s3.maps := snapshotCall_maps (quiet_act fun _ => rfl) destroyed
  rw [snapshot, Node.exec_maps closed, Node.exec_maps counted, Node.exec_maps removed]
  rfl

theorem moveDMap_maps {owner : Host} (run : (cfg.moveDMap p name r owner).Runs (Node.exec tid) s () s') :
    s'.maps = s.maps ∨ (∃ dm payload, s.dmaps r = some dm ∧ dm.str.exportTable = .ok payload) ∧
      s'.maps = (s.maps.remove p name).addCount p (-1) := by
  obtain ⟨s1, s2, ⟨dm, found, _, rfl⟩, run, before, after⟩ := runs_withLock run
  obtain ⟨locks, s3, counted, run⟩ := runs_bind.1 run
  have same3 : s3 = s.setDMap r { dm with mutex := some tid } := by
    unfold Config.lockCount at counted
    split at counted
    · exact counted.2
    · obtain ⟨_, _, ⟨_, _, _, _, _, rfl⟩, _, rfl⟩ := counted
      rfl
  subst same3
  split at run
  · obtain ⟨_, rfl⟩ := run
    exact .inl after
  · obtain ⟨exported, s4, ⟨dm', found', export_, rfl⟩, run⟩ := run
    have sameDm : dm' = { dm with mutex := some tid } := by
      simpa [Node.setDMap] using found'.symm
    cases exported with
    | error _ =>
      obtain ⟨_, rfl⟩ := run
      exact .inl after
    | ok payload =>
      obtain ⟨answer, s5, requested, run⟩ := run
      have same5 : s5.maps = s.maps := Node.exec_maps requested
      cases answer with
      | ok value =>
        refine .inr ⟨⟨dm, payload, found, ?_⟩, ?_⟩
        · rw [export_, sameDm]
        · rw [after, dropMoved_maps run, same5]
      | keyNotFound | noSuchLock | failed =>
        obtain ⟨_, rfl⟩ := run
        exact .inl (after.trans same5)

theorem destroyIn_maps {ok : Bool} (absent : name ∉ (s.maps p).1)
    (run : (cfg.destroyIn name p).Runs (Node.exec tid) s ok s') : s' = s := by
  obtain ⟨found, s1, ⟨looked, rfl⟩, run⟩ := run
  have none : found = none := looked.trans (Finmap.lookup_eq_none.2 absent)
  subst none
  exact run.2

theorem destroyEach_maps {places : List Place} {answer : Response} (absent : ∀ p ∈ places, name ∉ (s.maps p).1)
    (run : (cfg.destroyEach name places).Runs (Node.exec tid) s answer s') : s' = s := by
  induction places with
  | nil => exact run.2
  | cons p places ih =>
    obtain ⟨ok, s1, first, run⟩ := runs_bind.1 run
    have same := destroyIn_maps (absent p List.mem_cons_self) first
    subst same
    cases ok with
    | false => exact run.2
    | true => exact ih (fun q mem => absent q (List.mem_cons_of_mem _ mem)) run

theorem deleteStaleDMap_maps (run : (cfg.deleteStaleDMap p name r).Runs (Node.exec tid) s () s') :
    s'.maps = s.maps ∨ s'.maps = (s.maps.remove p name).addCount p (-1) := by
  obtain ⟨s1, s2, _, ⟨len, s3, ⟨_, _, _, rfl⟩, run⟩, before, after⟩ := runs_withLock run
  dsimp only [bind_eq, act, call_bind, ret_bind, pure_eq] at run
  split at run
  · obtain ⟨_, rfl⟩ := run
    exact .inl (after.trans before)
  · obtain ⟨ok, s4, closed, run⟩ := run
    have same4 : s4.maps = s.maps := (Node.exec_maps closed).trans before
    cases ok with
    | false =>
      obtain ⟨_, rfl⟩ := run
      exact .inl (after.trans same4)
    | true =>
      obtain ⟨unregistered, s5, unregister, run⟩ := runs_bind.1 run
      have same5 : s5.maps = s.maps := (snapshotCall_maps (quiet_act fun _ => rfl) unregister).trans same4
      cases unregistered with
      | false =>
        obtain ⟨_, rfl⟩ := run
        exact .inl (after.trans same5)
      | true =>
        obtain ⟨_, s6, removed, _, s7, counted, _, rfl⟩ := run
        refine .inr ?_
        rw [after, Node.exec_maps counted, Node.exec_maps removed, same5]
        rfl

end Olric
