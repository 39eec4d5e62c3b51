import Olric.Node.Maintenance
import Olric.Node.Semantics

namespace Olric

open Program

/-- The map and the counter of every partition. -/
abbrev Maps := Place → (Finmap fun _ : Bytes => Ref) × Int

def Node.maps (s : Node) : Maps := fun p => ((s.partition p).m, (s.partition p).count)

def Maps.store (maps : Maps) (p : Place) (name : Bytes) (r : Ref) : Maps :=
  Function.update maps p ((maps p).1.insert name r, (maps p).2)

def Maps.remove (maps : Maps) (p : Place) (name : Bytes) : Maps :=
  Function.update maps p ((maps p).1.erase name, (maps p).2)

def Maps.addCount (maps : Maps) (p : Place) (delta : Int) : Maps :=
  Function.update maps p ((maps p).1, (maps p).2 + delta)

/-- What a command does to the maps and counters. -/
def Cmd.edit (maps : Maps) : Cmd → Maps
  | .store p name r => maps.store p name r
  | .remove p name => maps.remove p name
  | .addCount p delta => maps.addCount p delta
  | _ => maps

@[simp] theorem Node.maps_setDMap (s : Node) (r : Ref) (dm : DMap) : (s.setDMap r dm).maps = s.maps := rfl

@[simp] theorem Node.maps_setOplogs (s : Node) (partID : UInt64) (logs : Finmap fun _ : Bytes => Ref) :
    (s.setOplogs partID logs).maps = s.maps := rfl

@[simp] theorem Node.maps_setSyncing (s : Node) (syncing : List Tid) : (s.setSyncing syncing).maps = s.maps := rfl

@[simp] theorem Node.maps_unregister (s : Node) (partID : UInt64) (name : Bytes) (ok : Bool) :
    (s.unregister partID name ok).maps = s.maps := by
  unfold Node.unregister
  split <;> rfl

theorem Node.maps_setPartition (s : Node) (p : Place) (part : Partition) :
    (s.setPartition p part).maps = Function.update s.maps p (part.m, part.count) := by
  funext q
  by_cases same : q = p
  · subst same
    simp [Node.maps, Node.setPartition]
  · simp [Node.maps, Node.setPartition, same]

@[simp] theorem Node.maps_setMutex (s : Node) (p : Place) (mutex : Option Tid) :
    (s.setPartition p { s.partition p with mutex := mutex }).maps = s.maps := by
  rw [Node.maps_setPartition]
  exact Function.update_eq_self _ _

theorem Node.exec_maps {tid : Tid} {s s' : Node} {c : Cmd} {reply : c.Reply} (run : s.exec tid c reply s') :
    s'.maps = c.edit s.maps := by
  cases c
  case store | remove | addCount =>
    obtain rfl := run
    exact Node.maps_setPartition _ _ _
  case newStorage | importStorage =>
    cases reply <;> simp only [Node.exec] at run
    · rw [run]; rfl
    · obtain ⟨_, _, _, rfl⟩ := run
      rfl
  all_goals
    simp only [Node.exec] at run
    grind [Cmd.edit, Node.maps_setMutex, Node.maps_setDMap, Node.maps_setOplogs, Node.maps_setSyncing,
      Node.maps_unregister]

/-- Commands that leave the maps and counters alone. -/
def quiet : Discipline Cmd Cmd.Reply Unit where
  allows _ c := ∀ maps : Maps, c.edit maps = maps
  after _ _ _ := ()

theorem quiet_act {c : Cmd} (same : ∀ maps : Maps, c.edit maps = maps) : (act c).Follows quiet () fun _ _ => True :=
  ⟨same, fun _ => trivial⟩

section

variable {α : Type} {tid : Tid} {s s' : Node}

theorem maps_of_quiet {p : Prog α} (follows : p.Follows quiet () fun _ _ => True) {a : α}
    (run : p.Runs (Node.exec tid) s a s') : s'.maps = s.maps := by
  apply follows.runs_rel (fun s s' => s'.maps = s.maps) (fun _ => rfl) _ _ run
  · intro a b c first second
    exact second.trans first
  · intro _ c reply s s' allowed now
    exact (Node.exec_maps now).trans (allowed _)

/-- A locked section changes the maps and counters as its body does. -/
theorem runs_withLock {r : Ref} {body : Prog α} {a : α} (run : (withLock r body).Runs (Node.exec tid) s a s') :
    ∃ s1 s2, s.exec tid (.lock r) () s1 ∧ body.Runs (Node.exec tid) s1 a s2 ∧ s1.maps = s.maps ∧
      s'.maps = s2.maps := by
  dsimp only [withLock, bind_eq, act, call_bind, ret_bind, pure_eq] at run
  obtain ⟨_, s1, locked, run⟩ := run
  obtain ⟨b, s2, inner, _, s3, unlocked, rfl, rfl⟩ := runs_bind.1 run
  exact ⟨s1, s2, locked, inner, Node.exec_maps locked, Node.exec_maps unlocked⟩

theorem runs_withPartitionLock {p : Place} {body : Prog α} {a : α}
    (run : (withPartitionLock p body).Runs (Node.exec tid) s a s') :
    ∃ s1 s2, body.Runs (Node.exec tid) s1 a s2 ∧ s1.maps = s.maps ∧ s'.maps = s2.maps := by
  dsimp only [withPartitionLock, bind_eq, act, call_bind, ret_bind, pure_eq] at run
  obtain ⟨_, s1, locked, run⟩ := run
  obtain ⟨b, s2, inner, _, s3, unlocked, rfl, rfl⟩ := runs_bind.1 run
  exact ⟨s1, s2, inner, Node.exec_maps locked, Node.exec_maps unlocked⟩

variable {cfg : Config} {p : Place} {name : Bytes}

theorem snapshotCall_maps {call : Prog Bool} {ok : Bool} (follows : call.Follows quiet () fun _ _ => True)
    (run : (cfg.snapshotCall call).Runs (Node.exec tid) s ok s') : s'.maps = s.maps := by
  unfold Config.snapshotCall at run
  split at run
  · exact maps_of_quiet follows run
  · obtain ⟨_, rfl⟩ := run
    rfl

theorem createFresh_maps {dm : Option Ref} (run : (cfg.createFresh p name).Runs (Node.exec tid) s dm s') :
    s'.maps = s.maps ∨ ∃ r, s'.maps = (s.maps.store p name r).addCount p 1 := by
  obtain ⟨reply, s1, allocated, run⟩ := run
  have same1 : s1.maps = s.maps := Node.exec_maps allocated
  cases reply with
  | none =>
    obtain ⟨_, rfl⟩ := run
    exact .inl same1
  | some r =>
    dsimp only [bind_eq, act, call_bind, ret_bind, pure_eq] at run
    obtain ⟨_, s2, locker, run⟩ := run
    obtain ⟨registered, s3, register, run⟩ := runs_bind.1 run
    have same3 : s3.maps = s.maps :=
      (snapshotCall_maps (quiet_act fun _ => rfl) register).trans ((Node.exec_maps locker).trans same1)
    cases registered with
    | false =>
      obtain ⟨_, rfl⟩ := run
      exact .inl same3
    | true =>
      obtain ⟨_, s4, stored, _, s5, counted, _, rfl⟩ := run
      refine .inr ⟨r, ?_⟩
      rw [Node.exec_maps counted, Node.exec_maps stored, same3]
      rfl

theorem createDMap_maps {dm : Option Ref} (run : (cfg.createDMap p name).Runs (Node.exec tid) s dm s') :
    s'.maps = s.maps ∨ name ∉ (s.maps p).1 ∧ ∃ r, s'.maps = (s.maps.store p name r).addCount p 1 := by
  obtain ⟨s1, s2, ⟨reply, s3, ⟨found, rfl⟩, run⟩, before, after⟩ := runs_withPartitionLock run
  cases reply with
  | some r =>
    obtain ⟨_, rfl⟩ := run
    exact .inl (after.trans before)
  | none =>
    have absent : name ∉ (s.maps p).1 := by
      rw [← before]
      exact Finmap.lookup_eq_none.1 found.symm
    rcases createFresh_maps run with same | ⟨r, stored⟩
    · exact .inl (after.trans (same.trans before))
    · exact .inr ⟨absent, r, after.trans (stored.trans (by rw [before]))⟩

theorem restoreDMap_maps {r : Ref} {ok : Bool} (run : (Config.restoreDMap p name r).Runs (Node.exec tid) s ok s') :
    s'.maps = s.maps ∨ s'.maps = (s.maps.store p name r).addCount p 1 := by
  obtain ⟨registered, s1, register, run⟩ := run
  have same : s1.maps = s.maps := Node.exec_maps register
  cases registered with
  | false =>
    obtain ⟨_, rfl⟩ := run
    exact .inl same
  | true =>
    obtain ⟨_, s2, locker, _, s3, stored, _, s4, counted, _, rfl⟩ := run
    refine .inr ?_
    rw [Node.exec_maps counted, Node.exec_maps stored, Node.exec_maps locker, same]
    rfl

end

end Olric
