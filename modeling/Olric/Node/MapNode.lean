import Olric.Lib.Total
import Olric.Node.View

namespace Olric

open Program

/-- A dmap object whose storage is a finite map. -/
structure MapDMap where
  entries : UInt64 → Option VData
  locked : Bool

/-- A member whose storages are finite maps. Counters, lockers, oplogs and the snapshot, which no
answer of a put, get or delete depends on, are left out. -/
structure MapNode where
  names : Place → Bytes → Option Ref
  partLocked : Place → Bool
  dmaps : Ref → Option MapDMap

namespace MapNode

def setName (s : MapNode) (p : Place) (name : Bytes) (r : Ref) : MapNode :=
  { s with names := Function.update s.names p (Function.update (s.names p) name (some r)) }

def setPartLocked (s : MapNode) (p : Place) (locked : Bool) : MapNode :=
  { s with partLocked := Function.update s.partLocked p locked }

def setDMap (s : MapNode) (r : Ref) (dm : MapDMap) : MapNode :=
  { s with dmaps := Function.update s.dmaps r (some dm) }

/-- What the commands of puts, gets and deletes do when nothing fails. The other commands do not
occur. -/
def exec (s : MapNode) : (c : Cmd) → c.Reply → MapNode → Prop
  | .load p name, reply, s' => reply = s.names p name ∧ s' = s
  | .store p name r, _, s' => s' = s.setName p name r
  | .lockPartition p, _, s' => s.partLocked p = false ∧ s' = s.setPartLocked p true
  | .unlockPartition p, _, s' => s' = s.setPartLocked p false
  | .newStorage, reply, s' => ∃ r, reply = some r ∧ s.dmaps r = none ∧ s' = s.setDMap r ⟨fun _ => none, false⟩
  | .lock r, _, s' => ∃ dm, s.dmaps r = some dm ∧ dm.locked = false ∧ s' = s.setDMap r { dm with locked := true }
  | .unlock r, _, s' => ∃ dm, s.dmaps r = some dm ∧ s' = s.setDMap r { dm with locked := false }
  | .put r hkey entry, reply, s' => reply = none ∧ ∃ dm, s.dmaps r = some dm ∧
    s' = s.setDMap r { dm with entries := Function.update dm.entries hkey (some entry) }
  | .get r hkey, reply, s' => ∃ dm, s.dmaps r = some dm ∧ reply = Storage.answer (dm.entries hkey) ∧ s' = s
  | .delete r hkey, reply, s' => reply = none ∧ ∃ dm, s.dmaps r = some dm ∧
    s' = s.setDMap r { dm with entries := Function.update dm.entries hkey none }
  | .register .., reply, s' => reply = true ∧ s' = s
  | .owners p, reply, s' => (p.backup = false → reply ≠ []) ∧ s' = s
  | .addCount .., _, s' | .setLocker _, _, s' | .log .., _, s' | .now, _, s' => s' = s
  | .numMembers, reply, s' => 0 < reply ∧ s' = s
  | _, _, _ => False

/-- The entries of every dmap. -/
def view (s : MapNode) : View := fun p name hkey =>
  (s.names p name).bind fun r => (s.dmaps r).bind fun dm => dm.entries hkey

end MapNode

/-- What a member stores, with its storages taken as finite maps. -/
def Node.mapNode (s : Node) : MapNode where
  names p name := (s.partition p).m.lookup name
  partLocked p := (s.partition p).mutex.isSome
  dmaps r := (s.dmaps r).map fun dm => ⟨dm.str.layers.lookup, dm.mutex.isSome⟩

theorem Node.mapNode_view (s : Node) : s.mapNode.view = s.view := by
  funext p name hkey
  unfold MapNode.view Node.view mapNode
  dsimp only
  cases (s.partition p).m.lookup name with
  | none => rfl
  | some r => exact Option.bind_map ..

/-- The storage does what a map would do, and nothing fails. A storage that has two versions of a
key does not forget the key at a delete. -/
def Cmd.Maplike (s : Node) : (c : Cmd) → c.Reply → Prop
  | .put _ _ entry, reply => reply = none ∧ entry.value.length < 2 ^ 32
  | .delete r hkey, reply => reply = none ∧ ∀ dm, s.dmaps r = some dm → dm.str.copies hkey ≤ 1
  | .newStorage, reply => reply ≠ none
  | .register .., reply => reply = true
  | .load .., _ | .store .., _ | .lockPartition _, _ | .unlockPartition _, _ | .lock _, _ | .unlock _, _ | .get .., _
  | .owners _, _ | .addCount .., _ | .setLocker _, _ | .log .., _ | .numMembers, _ | .now, _ => True
  | _, _ => False

namespace Node

variable {tid : Tid} {s s' : Node} {r : Ref} {dm dm' : DMap}

/-- All objects have an open storage. -/
def AllOpen (s : Node) : Prop := ∀ r dm, s.dmaps r = some dm → dm.str.Valid

theorem AllOpen.setDMap (opened : s.AllOpen) (valid : dm.str.Valid) : (s.setDMap r dm).AllOpen := by
  intro r' dm' found
  rcases setDMap_found.1 found with ⟨_, rfl⟩ | ⟨_, found⟩
  · exact valid
  · exact opened r' dm' found

theorem mapNode_setDMap : (s.setDMap r dm).mapNode = s.mapNode.setDMap r ⟨dm.str.layers.lookup, dm.mutex.isSome⟩ := by
  unfold mapNode MapNode.setDMap setDMap
  congr 1
  funext r'
  by_cases same : r' = r
  · subst same
    simp
  · simp [same]

theorem mapNode_found (found : s.dmaps r = some dm) :
    s.mapNode.dmaps r = some ⟨dm.str.layers.lookup, dm.mutex.isSome⟩ := by
  simp [mapNode, found]

/-- What a writer of one object leaves alone of it, the map does not show. -/
theorem mapNode_setDMap_self (found : s.dmaps r = some dm) (str : dm'.str = dm.str) (mutex : dm'.mutex = dm.mutex) :
    (s.setDMap r dm').mapNode = s.mapNode := by
  rw [mapNode_setDMap, str, mutex]
  unfold MapNode.setDMap
  rw [← mapNode_found found, Function.update_eq_self]

theorem mapNode_setPartition {p : Place} {part : Partition} (m : part.m = (s.partition p).m) :
    (s.setPartition p part).mapNode = s.mapNode.setPartLocked p part.mutex.isSome := by
  unfold mapNode MapNode.setPartLocked setPartition
  congr 1
  · funext p' name
    by_cases same : p' = p
    · subst same
      simp [m]
    · simp [same]
  · funext p'
    by_cases same : p' = p
    · subst same
      simp
    · simp [same]

theorem mapNode_insert {p : Place} {name : Bytes} :
    (s.setPartition p { s.partition p with m := (s.partition p).m.insert name r }).mapNode =
      s.mapNode.setName p name r := by
  unfold mapNode MapNode.setName setPartition
  congr 1
  · funext p' name'
    by_cases same : p' = p
    · subst same
      by_cases named : name' = name
      · subst named
        simp
      · simp [named]
    · simp [same]
  · funext p'
    by_cases same : p' = p
    · subst same
      simp
    · simp [same]

/-- A storage that acts as a map is one, step by step. -/
theorem exec_mapNode {c : Cmd} {reply : c.Reply} (opened : s.AllOpen) (run : s.exec tid c reply s')
    (maplike : c.Maplike s reply) : s.mapNode.exec c reply s'.mapNode ∧ s'.AllOpen := by
  cases c with
  | load | owners | numMembers =>
    obtain ⟨answer, rfl⟩ := run
    exact ⟨⟨answer, rfl⟩, opened⟩
  | now =>
    obtain rfl := run
    exact ⟨rfl, opened⟩
  | store =>
    obtain rfl := run
    exact ⟨mapNode_insert, opened⟩
  | lockPartition =>
    obtain ⟨free, rfl⟩ := run
    refine ⟨⟨?_, mapNode_setPartition rfl⟩, opened⟩
    change (Partition.mutex _).isSome = false
    rw [free]
    rfl
  | unlockPartition =>
    obtain rfl := run
    exact ⟨mapNode_setPartition rfl, opened⟩
  | addCount p delta =>
    obtain rfl := run
    have counted : (s.setPartition p { s.partition p with count := (s.partition p).count + delta }).mapNode =
        s.mapNode.setPartLocked p (s.partition p).mutex.isSome := mapNode_setPartition rfl
    refine ⟨counted.trans ?_, opened⟩
    exact congrArg (fun locked => { s.mapNode with partLocked := locked })
      (Function.update_eq_self p s.mapNode.partLocked)
  | newStorage =>
    cases reply with
    | none => exact absurd rfl maplike
    | some r =>
      obtain ⟨free, str, made, rfl⟩ := run
      obtain ⟨valid, empty⟩ := Storage.new_spec made
      refine ⟨⟨r, rfl, by simp [mapNode, free], ?_⟩, opened.setDMap valid⟩
      rw [mapNode_setDMap, empty]
      rfl
  | setLocker =>
    obtain ⟨dm, found, rfl⟩ := run
    have valid := opened _ _ found
    exact ⟨mapNode_setDMap_self found rfl rfl, opened.setDMap valid⟩
  | log =>
    obtain ⟨dm, _, found, _, rfl⟩ := run
    have valid := opened _ _ found
    exact ⟨mapNode_setDMap_self found rfl rfl, opened.setDMap valid⟩
  | register =>
    obtain ⟨_, run⟩ := run
    obtain rfl := maplike
    obtain ⟨dm, found, rfl⟩ := run
    have valid := opened _ _ found
    exact ⟨⟨rfl, mapNode_setDMap_self found rfl rfl⟩, AllOpen.setDMap opened valid⟩
  | lock =>
    obtain ⟨dm, found, free, rfl⟩ := run
    have valid := opened _ _ found
    exact ⟨⟨_, mapNode_found found, by rw [free]; rfl, mapNode_setDMap⟩, opened.setDMap valid⟩
  | unlock =>
    obtain ⟨dm, found, rfl⟩ := run
    have valid := opened _ _ found
    exact ⟨⟨_, mapNode_found found, mapNode_setDMap⟩, opened.setDMap valid⟩
  | get r hkey =>
    obtain ⟨dm, found, got, rfl⟩ := run
    rw [Storage.get_eq (opened _ _ found).nonempty] at got
    exact ⟨⟨_, mapNode_found found, (Except.ok.inj got).symm, rfl⟩, opened⟩
  | put r hkey entry =>
    obtain ⟨dm, mmaps, str, found, stored, rfl⟩ := run
    obtain ⟨rfl, short⟩ := maplike
    obtain ⟨valid, lookup⟩ := Storage.put_spec (opened _ _ found) short stored
    refine ⟨⟨rfl, _, mapNode_found found, ?_⟩, opened.setDMap valid⟩
    rw [mapNode_setDMap, lookup]
  | delete r hkey =>
    obtain ⟨dm, mmapOk, str, found, deleted, rfl⟩ := run
    obtain ⟨rfl, single⟩ := maplike
    obtain ⟨valid, others, _⟩ := Storage.delete_spec (opened _ _ found) deleted
    refine ⟨⟨rfl, _, mapNode_found found, ?_⟩, opened.setDMap valid⟩
    have gone : str.layers.lookup hkey = none := by
      rw [Storage.delete_lookup_eq_none_iff (opened _ _ found) deleted, ← Storage.copies_eq_holders]
      exact single dm found
    have lookup : str.layers.lookup = Function.update dm.str.layers.lookup hkey none := by
      funext other
      by_cases same : other = hkey
      · subst same
        rw [Function.update_self, gone]
      · rw [Function.update_of_ne same, others other same]
    rw [mapNode_setDMap, lookup]
  | _ => exact maplike.elim

end Node

end Olric
