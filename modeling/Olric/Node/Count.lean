import Olric.Lib.Transitions
import Olric.Node.MaintenanceSpec

namespace Olric

open Program

/-- The operations that add dmaps to partitions or take them out, and `serve` for what requests,
locks, evictions and the snapshot do to the dmap objects. -/
inductive NodeOp
  | createDMap (p : Place) (name : Bytes)
  | restoreDMap (p : Place) (name : Bytes) (r : Ref)
  | mergeDMaps (p : Place) (box : DMapBox)
  | moveDMap (p : Place) (name : Bytes) (r : Ref) (owner : Host)
  | destroyDMapOperation (name : Bytes)
  | deleteStaleDMaps
  | serve

inductive Node.Step (cfg : Config) : Node → NodeOp → Node → Prop
  | createDMap {tid s p name dm s'} (run : (cfg.createDMap p name).Runs (Node.exec tid) s dm s') :
      Node.Step cfg s (.createDMap p name) s'
  | restoreDMap {tid s p name r ok s'} (run : (Config.restoreDMap p name r).Runs (Node.exec tid) s ok s') :
      Node.Step cfg s (.restoreDMap p name r) s'
  | mergeDMaps {tid s p box answer s'} (run : (Config.mergeDMaps p box).Runs (Node.exec tid) s answer s') :
      Node.Step cfg s (.mergeDMaps p box) s'
  | moveDMap {tid s p name r owner s'} (run : (cfg.moveDMap p name r owner).Runs (Node.exec tid) s () s') :
      Node.Step cfg s (.moveDMap p name r owner) s'
  | destroyDMapOperation {tid s name answer s'}
      (run : (cfg.destroyDMapOperation name).Runs (Node.exec tid) s answer s') :
      Node.Step cfg s (.destroyDMapOperation name) s'
  | deleteStaleDMaps {tid s s'} (run : cfg.deleteStaleDMaps.Runs (Node.exec tid) s () s') :
      Node.Step cfg s .deleteStaleDMaps s'
  | serve {s s'} (same : s'.partition = s.partition) : Node.Step cfg s .serve s'

/-- A node with its operations in sequence, from empty partitions on. -/
def Config.nodeSystem (cfg : Config) : Transitions Node NodeOp where
  init s := ∀ p, s.partition p = ⟨0, ∅, none⟩
  step := Node.Step cfg

variable {cfg : Config} {tid : Tid} {s s' : Node} {p : Place} {name : Bytes} {r : Ref}

def Maps.Counted (maps : Maps) : Prop := ∀ p, (maps p).2 = (maps p).1.keys.card

theorem Maps.Counted.add {maps : Maps} (counted : maps.Counted) (absent : name ∉ (maps p).1) :
    ((maps.store p name r).addCount p 1).Counted := by
  have keys : ((maps p).1.insert name r).keys = insert name (maps p).1.keys := by
    ext other
    simp [Finmap.mem_keys]
  intro q
  by_cases same : q = p
  · subst same
    have card : (insert name (maps q).1.keys).card = (maps q).1.keys.card + 1 :=
      Finset.card_insert_of_notMem (by rwa [Finmap.mem_keys])
    simp only [Maps.addCount, Maps.store, Function.update_self, keys, card, counted q]
    push_cast
    rfl
  · simpa [Maps.addCount, Maps.store, same] using counted q

theorem Maps.Counted.drop {maps : Maps} (counted : maps.Counted) (stored : name ∈ (maps p).1) :
    ((maps.remove p name).addCount p (-1)).Counted := by
  intro q
  by_cases same : q = p
  · subst same
    have card := Finset.card_erase_add_one (Finmap.mem_keys.2 stored)
    have total := counted q
    simp only [Maps.addCount, Maps.remove, Function.update_self, Finmap.keys_erase]
    omega
  · simpa [Maps.addCount, Maps.remove, same] using counted q

theorem janitor_counted (run : (cfg.janitor p).Runs (Node.exec tid) s () s') (counted : s.maps.Counted) :
    s'.maps.Counted := by
  dsimp only [Config.janitor, bind_eq, act, call_bind, ret_bind] at run
  obtain ⟨names, s1, ⟨_, _, rfl⟩, run⟩ := run
  refine Runs.forEach_rel (fun s s' : Node => s.maps.Counted → s'.maps.Counted) (fun _ => id) ?_ ?_ run counted
  · intro a b c first second counted
    exact second (first counted)
  · rintro name _ s s' ⟨found, s1, ⟨looked, rfl⟩, run⟩ counted
    cases found with
    | none =>
      obtain ⟨_, rfl⟩ := run
      exact counted
    | some r =>
      have stored : name ∈ (s1.maps p).1 := Finmap.mem_of_lookup_eq_some looked.symm
      rcases deleteStaleDMap_maps run with same | dropped
      · rwa [same]
      · rw [dropped]
        exact counted.drop stored

theorem deleteStaleDMaps_counted (run : cfg.deleteStaleDMaps.Runs (Node.exec tid) s () s')
    (counted : s.maps.Counted) : s'.maps.Counted := by
  refine Runs.forEach_rel (fun s s' : Node => s.maps.Counted → s'.maps.Counted) (fun _ => id) ?_ ?_ run counted
  · intro a b c first second counted
    exact second (first counted)
  · intro p _ s s' run
    exact janitor_counted run

/-- The counter of every partition is the number of dmaps in its map; in particular it is zero
exactly if there is none. -/
def Node.Counted (s : Node) : Prop :=
  ∀ p, (s.partition p).count = (s.partition p).m.keys.card ∧
    ((s.partition p).count = 0 ↔ ∀ name, name ∉ (s.partition p).m)

theorem Node.counted_of_maps (counted : s.maps.Counted) : s.Counted := by
  intro p
  have total : (s.partition p).count = (s.partition p).m.keys.card := counted p
  refine ⟨total, ?_⟩
  rw [total, Int.natCast_eq_zero, Finset.card_eq_zero, Finset.eq_empty_iff_forall_notMem]
  simp [Finmap.mem_keys]

/-- No operation adds a dmap without counting it or counts one that is not added: a dmap is
restored under a new name only, merged into a stored one only, moved away while it is stored (or
not at all, as it cannot be exported), and no destroyed dmap is stored. -/
def Config.KeepsCount (cfg : Config) (s : Node) : NodeOp → Prop
  | .restoreDMap p name _ => name ∉ (s.partition p).m
  | .mergeDMaps p box => box.payload = none ∨ box.name ∈ (s.partition p).m
  | .moveDMap p name r _ => name ∈ (s.partition p).m ∨
      ∀ dm payload, s.dmaps r = some dm → dm.str.exportTable ≠ .ok payload
  | .destroyDMapOperation name => ∀ p ∈ cfg.destroyPlaces, name ∉ (s.partition p).m
  | _ => True

theorem Node.Step.counted {op : NodeOp} (counted : s.maps.Counted) (kept : cfg.KeepsCount s op)
    (step : Node.Step cfg s op s') : s'.maps.Counted := by
  cases step with
  | createDMap run =>
    rcases createDMap_maps run with same | ⟨absent, r, added⟩
    · rwa [same]
    · rw [added]
      exact counted.add absent
  | restoreDMap run =>
    rcases restoreDMap_maps run with same | added
    · rwa [same]
    · rw [added]
      exact counted.add kept
  | mergeDMaps run => rwa [mergeDMaps_maps kept run]
  | moveDMap run =>
    rcases moveDMap_maps run with same | ⟨⟨dm, payload, found, exported⟩, dropped⟩
    · rwa [same]
    · rcases kept with stored | never
      · rw [dropped]
        exact counted.drop stored
      · exact absurd exported (never dm payload found)
  | destroyDMapOperation run => rwa [destroyEach_maps kept run]
  | deleteStaleDMaps run => exact deleteStaleDMaps_counted run counted
  | serve same =>
    have unchanged : s'.maps = s.maps := by
      unfold Node.maps
      rw [same]
    rwa [unchanged]

/-- Along every run of such operations the counters are right. -/
theorem partitions_counted {ops : List NodeOp} (run : cfg.nodeSystem.Run cfg.KeepsCount ops s) : s.Counted := by
  apply Node.counted_of_maps
  refine run.invariant (fun s => s.maps.Counted) ?_ ?_
  · intro s empty p
    simp only [Node.maps, empty p]
    simp
  · intro s op s' counted kept step
    exact step.counted counted kept

theorem created_dmap_counted : ∃ s, soloConfig.nodeSystem.Run soloConfig.KeepsCount [.createDMap ⟨false, 0⟩ [100]] s ∧
    (s.partition ⟨false, 0⟩).count = 1 ∧ s.Counted := by
  have created : ∃ s, (soloConfig.createDMap ⟨false, 0⟩ [100]).Runs (Node.exec 0) emptyNode (some 0) s ∧
      (s.partition ⟨false, 0⟩).count = 1 := by
    dsimp only [Config.createDMap, withPartitionLock, Config.createFresh, Config.snapshotCall, bind_eq,
      act, call_bind, ret_bind, pure_eq]
    refine ⟨_, runs_call.2 ⟨(), _, ⟨rfl, rfl⟩, runs_call.2 ⟨none, _, ⟨?_, rfl⟩, runs_call.2 ⟨some 0, _,
      ⟨rfl, _, rfl, rfl⟩, runs_call.2 ⟨(), _, ⟨_, rfl, rfl⟩, runs_call.2 ⟨(), _, rfl, runs_call.2 ⟨(), _, rfl,
      runs_call.2 ⟨(), _, rfl, rfl, rfl⟩⟩⟩⟩⟩⟩⟩, ?_⟩
    · simp [emptyNode, Node.setPartition]
    · simp [emptyNode, Node.setPartition, Node.setDMap]
  obtain ⟨s, created, count⟩ := created
  have run : soloConfig.nodeSystem.Run soloConfig.KeepsCount ([] ++ [.createDMap ⟨false, 0⟩ [100]]) s :=
    .next (.start fun _ => rfl) trivial (.createDMap created)
  exact ⟨s, run, count, partitions_counted run⟩

/-- What another member sends of an empty dmap. -/
def incoming : DMapBox := ⟨0, [100], some ⟨∅, [0], 0, 1048576, 0, 0⟩⟩

/-- A dmap that arrives at a member which does not have it is stored and not counted. -/
theorem merged_dmap_not_counted : ∃ s, soloConfig.nodeSystem.AnyRun [.mergeDMaps ⟨false, 0⟩ incoming] s ∧
    (s.partition ⟨false, 0⟩).count = 0 ∧ [100] ∈ (s.partition ⟨false, 0⟩).m ∧ ¬ s.Counted := by
  have merged : ∃ s, (Config.mergeDMaps ⟨false, 0⟩ incoming).Runs (Node.exec 0) emptyNode (.ok []) s ∧
      (s.partition ⟨false, 0⟩).count = 0 ∧ [100] ∈ (s.partition ⟨false, 0⟩).m := by
    dsimp only [Config.mergeDMaps, incoming, bind_eq, act, call_bind, ret_bind, pure_eq, Config.newOwnerLocker]
    refine ⟨_, runs_call.2 ⟨some 0, _, ⟨rfl, _, rfl, rfl⟩, runs_call.2 ⟨none, _, ⟨?_, rfl⟩, runs_call.2 ⟨(), _,
      ⟨_, rfl, rfl⟩, runs_call.2 ⟨(), _, rfl, rfl, rfl⟩⟩⟩⟩, ?_⟩
    · simp [emptyNode, Node.setDMap]
    · simp [emptyNode, Node.setPartition, Node.setDMap]
  obtain ⟨s, merged, count, stored⟩ := merged
  have run : soloConfig.nodeSystem.AnyRun ([] ++ [.mergeDMaps ⟨false, 0⟩ incoming]) s :=
    .next (.start fun _ => rfl) trivial (.mergeDMaps merged)
  exact ⟨s, run, count, stored, fun counted => (counted ⟨false, 0⟩).2.1 count _ stored⟩

end Olric
