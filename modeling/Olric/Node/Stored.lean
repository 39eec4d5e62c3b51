import Olric.Lib.Threads
import Olric.Node.Effects
import Olric.Node.Issued
import Olric.Node.Maps
import Olric.Storage.Lifetime

namespace Olric

open Program

abbrev NodePool := Pool Cmd Cmd.Reply Response Node

abbrev NodeLabel := Pool.Label Cmd Cmd.Reply Response

def idlePool : NodePool := ⟨emptyNode, fun _ => none⟩

/-- The dmap object that a member has under a name. -/
def Node.Has (s : Node) (p : Place) (name : Bytes) (r : Ref) : Prop := (s.partition p).m.lookup name = some r

/-- The entry that a member stores under an hkey of the dmap. -/
def Node.Stores (s : Node) (p : Place) (name : Bytes) (hkey : UInt64) (entry : VData) : Prop :=
  ∃ r dm, s.Has p name r ∧ s.dmaps r = some dm ∧ dm.str.get hkey = .ok (.ok entry)

section

variable {tid : Tid} {s s' : Node} {c : Cmd} {reply : c.Reply} {p : Place} {name : Bytes} {r : Ref} {hkey : UInt64}
  {entry : VData}

/-- A name keeps its dmap object unless it is removed or another object is stored under it. -/
theorem Node.exec_has (run : s.exec tid c reply s') (has : s.Has p name r) (stays : c ≠ .remove p name)
    (same : ∀ r', c = .store p name r' → r' = r) : s'.Has p name r := by
  have maps := congrFun (Node.exec_maps run) p
  have after : (s'.partition p).m = (c.edit s.maps p).1 := congrArg Prod.fst maps
  have before : (s.maps p).1.lookup name = some r := has
  unfold Node.Has
  rw [after]
  cases c
  case store p' name' r' =>
    by_cases here : p' = p
    · subst here
      by_cases named : name' = name
      · subst named
        simp [Cmd.edit, Maps.store, same r' rfl]
      · simpa [Cmd.edit, Maps.store, Finmap.lookup_insert_of_ne _ (Ne.symm named)] using before
    · simpa [Cmd.edit, Maps.store, Function.update_of_ne (Ne.symm here)] using before
  case remove p' name' =>
    by_cases here : p' = p
    · subst here
      have named : name ≠ name' := by
        rintro rfl
        exact stays rfl
      simpa [Cmd.edit, Maps.remove, Finmap.lookup_erase_ne named] using before
    · simpa [Cmd.edit, Maps.remove, Function.update_of_ne (Ne.symm here)] using before
  case addCount p' delta =>
    by_cases here : p' = p
    · subst here
      simpa [Cmd.edit, Maps.addCount] using before
    · simpa [Cmd.edit, Maps.addCount, Function.update_of_ne (Ne.symm here)] using before
  all_goals exact has

/-- The storage of a dmap changes by puts and deletes and when it is closed. -/
theorem Node.exec_str {dm : DMap} (run : s.exec tid c reply s') (found : s.dmaps r = some dm)
    (put : ∀ hkey value, c ≠ .put r hkey value) (delete : ∀ hkey, c ≠ .delete r hkey) (close : c ≠ .close r) :
    ∃ dm', s'.dmaps r = some dm' ∧ dm'.str = dm.str := by
  obtain ⟨dm', found', change⟩ := Node.exec_change run found
  refine ⟨dm', found', ?_⟩
  cases change with
  | put => exact absurd rfl (put _ _)
  | delete => exact absurd rfl (delete _)
  | close => exact absurd rfl close
  | other | lock | unlock | setLocker | enter | acquire | dec | release | oplog => rfl

/-- An entry stays under commands that neither write to the dmap nor take it away. -/
theorem Node.exec_stores (run : s.exec tid c reply s') (stores : s.Stores p name hkey entry)
    (stays : c ≠ .remove p name) (kept : ∀ r, c ≠ .store p name r) (put : ∀ r hkey value, c ≠ .put r hkey value)
    (delete : ∀ r hkey, s.Has p name r → c ≠ .delete r hkey) (close : ∀ r, s.Has p name r → c ≠ .close r) :
    s'.Stores p name hkey entry := by
  obtain ⟨r, dm, has, found, get⟩ := stores
  obtain ⟨dm', found', same⟩ := Node.exec_str run found (put r) (fun hkey => delete r hkey has) (close r has)
  exact ⟨r, dm', Node.exec_has run has stays fun r' stored => absurd stored (kept r'), found', by rw [same, get]⟩

end

end Olric
