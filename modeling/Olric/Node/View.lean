import Olric.Node.GetDMap
import Olric.Storage.Refinement

namespace Olric

open Program

/-- The entries of every dmap of a member, as the tables show them. -/
abbrev View := Place → Bytes → UInt64 → Option VData

def View.set (v : View) (p : Place) (name : Bytes) (entries : UInt64 → Option VData) : View :=
  Function.update v p (Function.update (v p) name entries)

theorem View.set_self (v : View) (p : Place) (name : Bytes) (entries : UInt64 → Option VData) :
    v.set p name entries p name = entries := by
  simp [View.set]

theorem View.set_of_ne (v : View) {p p' : Place} {name name' : Bytes} (entries : UInt64 → Option VData)
    (other : ¬ (p' = p ∧ name' = name)) : v.set p name entries p' name' = v p' name' := by
  unfold View.set
  by_cases here : p' = p
  · subst here
    rw [Function.update_self, Function.update_of_ne fun named => other ⟨rfl, named⟩]
  · rw [Function.update_of_ne here]

namespace Node

def view (s : Node) : View := fun p name hkey =>
  ((s.partition p).m.lookup name).bind fun r => (s.dmaps r).bind fun dm => dm.str.layers.lookup hkey

/-- Every name has an object of its own, with an open storage. -/
structure Sound (s : Node) : Prop where
  valid : ∀ {p name r}, s.Has p name r → ∃ dm, s.dmaps r = some dm ∧ dm.str.Valid
  apart : ∀ {p p' name name' r}, s.Has p name r → s.Has p' name' r → p' = p ∧ name' = name

variable {tid : Tid} {s s' : Node} {p : Place} {name : Bytes} {r : Ref} {dm : DMap} {hkey : UInt64} {entry : VData}

theorem view_of_has (has : s.Has p name r) (found : s.dmaps r = some dm) : s.view p name = dm.str.layers.lookup := by
  unfold Has at has
  funext hkey
  simp [view, has, found]

theorem view_of_absent (absent : (s.partition p).m.lookup name = none) : s.view p name = fun _ => none := by
  funext hkey
  simp [view, absent]

theorem Sound.stores_iff (sound : s.Sound) : s.Stores p name hkey entry ↔ s.view p name hkey = some entry := by
  have gets {dm : DMap} (valid : dm.str.Valid) :
      dm.str.get hkey = .ok (.ok entry) ↔ dm.str.layers.lookup hkey = some entry := by
    rw [Storage.get_eq valid.nonempty]
    cases dm.str.layers.lookup hkey <;> simp [Storage.answer]
  constructor
  · rintro ⟨r, dm, has, found, get⟩
    obtain ⟨_, found', valid⟩ := sound.valid has
    cases found.symm.trans found'
    rw [view_of_has has found]
    exact (gets valid).1 get
  · intro seen
    cases has : (s.partition p).m.lookup name with
    | none =>
      rw [view_of_absent has] at seen
      cases seen
    | some r =>
      obtain ⟨dm, found, valid⟩ := sound.valid has
      rw [view_of_has has found] at seen
      exact ⟨r, dm, has, found, (gets valid).2 seen⟩

/-- Another state in which the names have the same objects, and all objects but one the same entries. -/
theorem Sound.write {dm' : DMap} (sound : s.Sound) (same : ∀ p, (s'.partition p).m = (s.partition p).m)
    (others : ∀ r' dm, r' ≠ r → s.dmaps r' = some dm → ∃ dm', s'.dmaps r' = some dm' ∧ dm'.str = dm.str)
    (has : s.Has p name r) (found' : s'.dmaps r = some dm') (valid : dm'.str.Valid) :
    s'.Sound ∧ s'.view = s.view.set p name dm'.str.layers.lookup := by
  have hasIff {p name r} : s'.Has p name r ↔ s.Has p name r := by unfold Has; rw [same]
  refine ⟨⟨fun {p₁ name₁ r₁} has₁ => ?_, fun has₁ has₂ => sound.apart (hasIff.1 has₁) (hasIff.1 has₂)⟩, ?_⟩
  · by_cases this : r₁ = r
    · subst this
      exact ⟨dm', found', valid⟩
    · obtain ⟨dm, found, valid⟩ := sound.valid (hasIff.1 has₁)
      obtain ⟨dm₁, found₁, str⟩ := others r₁ dm this found
      exact ⟨dm₁, found₁, str ▸ valid⟩
  · funext p₁ name₁
    by_cases this : p₁ = p ∧ name₁ = name
    · obtain ⟨rfl, rfl⟩ := this
      rw [View.set_self, view_of_has (hasIff.2 has) found']
    · rw [View.set_of_ne _ _ this]
      cases has₁ : (s.partition p₁).m.lookup name₁ with
      | none => rw [view_of_absent has₁, view_of_absent (by rw [same, has₁])]
      | some r₁ =>
        have differs : r₁ ≠ r := by
          rintro rfl
          exact this (sound.apart has has₁)
        obtain ⟨dm, found, _⟩ := sound.valid has₁
        obtain ⟨dm₁, found₁, str⟩ := others r₁ dm differs found
        rw [view_of_has has₁ found, view_of_has (hasIff.2 has₁) found₁, str]

end Node

/-- The commands that change neither what the names stand for nor a storage. -/
def Cmd.Calm : Cmd → Prop
  | .store .. | .remove .. | .put .. | .delete .. | .close .. => False
  | _ => True

namespace Node

variable {tid : Tid} {s s' : Node} {p : Place} {name : Bytes} {r : Ref} {dm : DMap} {hkey : UInt64} {entry : VData}
  {c : Cmd} {reply : c.Reply}

theorem exec_m (run : s.exec tid c reply s') (stored : ∀ p name r, c ≠ .store p name r)
    (removed : ∀ p name, c ≠ .remove p name) (p : Place) : (s'.partition p).m = (s.partition p).m := by
  have maps := congrArg Prod.fst (congrFun (Node.exec_maps run) p)
  change (s'.partition p).m = _ at maps
  rw [maps]
  cases c
  case store => exact absurd rfl (stored _ _ _)
  case remove => exact absurd rfl (removed _ _)
  case addCount p' _ =>
    by_cases here : p = p'
    · subst here
      simp [Cmd.edit, Maps.addCount, Node.maps]
    · simp [Cmd.edit, Maps.addCount, Function.update_of_ne here, Node.maps]
  all_goals rfl

theorem exec_calm (run : s.exec tid c reply s') (calm : c.Calm) (sound : s.Sound) :
    s'.Sound ∧ s'.view = s.view ∧ ∀ p, (s'.partition p).m = (s.partition p).m := by
  have same := exec_m run (by rintro _ _ _ rfl; exact calm) (by rintro _ _ rfl; exact calm)
  have kept {r dm} (found : s.dmaps r = some dm) : ∃ dm', s'.dmaps r = some dm' ∧ dm'.str = dm.str :=
    Node.exec_str run found (by rintro _ _ rfl; exact calm) (by rintro _ rfl; exact calm) (by rintro rfl; exact calm)
  have hasIff {p name r} : s'.Has p name r ↔ s.Has p name r := by unfold Has; rw [same]
  refine ⟨⟨fun has => ?_, fun has₁ has₂ => sound.apart (hasIff.1 has₁) (hasIff.1 has₂)⟩, ?_, same⟩
  · obtain ⟨dm, found, valid⟩ := sound.valid (hasIff.1 has)
    obtain ⟨dm', found', str⟩ := kept found
    exact ⟨dm', found', str ▸ valid⟩
  · funext p name
    cases has : (s.partition p).m.lookup name with
    | none => rw [view_of_absent has, view_of_absent (by rw [same, has])]
    | some r =>
      obtain ⟨dm, found, _⟩ := sound.valid has
      obtain ⟨dm', found', str⟩ := kept found
      rw [view_of_has has found, view_of_has (hasIff.2 has) found', str]

theorem exec_put_view {err : Option StorageError} (run : s.exec tid (.put r hkey entry) err s') (sound : s.Sound)
    (has : s.Has p name r) (short : entry.value.length < 2 ^ 32) :
    s'.Sound ∧ s'.view = if err = none then s.view.set p name (Function.update (s.view p name) hkey (some entry))
      else s.view := by
  have same := exec_m run nofun nofun
  obtain ⟨dm, mmaps, str, found, stored, rfl⟩ := run
  obtain ⟨_, found', valid⟩ := sound.valid has
  cases found.symm.trans found'
  have others (r' : Ref) (dm₁ : DMap) (differs : r' ≠ r) (found₁ : s.dmaps r' = some dm₁) :
      ∃ dm', (s.setDMap r { dm with str := str }).dmaps r' = some dm' ∧ dm'.str = dm₁.str :=
    ⟨dm₁, setDMap_found.2 (.inr ⟨differs, found₁⟩), rfl⟩
  rw [view_of_has has found]
  cases err with
  | none =>
    obtain ⟨valid', lookup⟩ := Storage.put_spec valid short stored
    have written := sound.write same others has (setDMap_found.2 (.inl ⟨rfl, rfl⟩)) valid'
    exact ⟨written.1, by rw [written.2, if_pos rfl, lookup]⟩
  | some e =>
    obtain ⟨valid', lookup⟩ := Storage.put_failed valid stored
    have written := sound.write same others has (setDMap_found.2 (.inl ⟨rfl, rfl⟩)) valid'
    refine ⟨written.1, ?_⟩
    rw [written.2, lookup, ← view_of_has has found]
    simp [View.set]

/-- A delete leaves the other hkeys alone. -/
theorem exec_delete_view {err : Option StorageError} (run : s.exec tid (.delete r hkey) err s') (sound : s.Sound)
    (has : s.Has p name r) : s'.Sound ∧ ∃ entries, s'.view = s.view.set p name entries ∧
      ∀ other, other ≠ hkey → entries other = s.view p name other := by
  have same := exec_m run nofun nofun
  obtain ⟨dm, mmapOk, str, found, deleted, rfl⟩ := run
  obtain ⟨_, found', valid⟩ := sound.valid has
  cases found.symm.trans found'
  have others (r' : Ref) (dm₁ : DMap) (differs : r' ≠ r) (found₁ : s.dmaps r' = some dm₁) :
      ∃ dm', (s.setDMap r { dm with str := str }).dmaps r' = some dm' ∧ dm'.str = dm₁.str :=
    ⟨dm₁, setDMap_found.2 (.inr ⟨differs, found₁⟩), rfl⟩
  obtain ⟨valid', lookup, _⟩ := Storage.delete_spec valid deleted
  have written := sound.write same others has (setDMap_found.2 (.inl ⟨rfl, rfl⟩)) valid'
  refine ⟨written.1, _, written.2, fun other differs => ?_⟩
  rw [view_of_has has found]
  exact lookup other differs

theorem exec_check_view {there : Bool} (sound : s.Sound) (has : s.Has p name r)
    (run : s.exec tid (.check r hkey) there s') : s' = s ∧ there = (s.view p name hkey).isSome := by
  obtain ⟨dm, found, checked, rfl⟩ := run
  obtain ⟨_, found', valid⟩ := sound.valid has
  cases found.symm.trans found'
  rw [Storage.check_eq valid.nonempty, ← view_of_has has found] at checked
  exact ⟨rfl, (Except.ok.inj checked).symm⟩

/-- An object that has just been made, with an empty storage, and that no name stands for. -/
def Unstored (s : Node) (r : Ref) : Prop :=
  (∃ dm, s.dmaps r = some dm ∧ dm.str.Valid ∧ dm.str.layers.lookup = fun _ => none) ∧ ∀ p name, ¬ s.Has p name r

theorem exec_unstored (run : s.exec tid c reply s') (calm : c.Calm) (unstored : s.Unstored r) : s'.Unstored r := by
  obtain ⟨⟨dm, found, valid, empty⟩, free⟩ := unstored
  obtain ⟨dm', found', str⟩ := Node.exec_str run found (by rintro _ _ rfl; exact calm) (by rintro _ rfl; exact calm)
    (by rintro rfl; exact calm)
  refine ⟨⟨dm', found', str ▸ valid, str ▸ empty⟩, fun p name has => free p name ?_⟩
  unfold Has at has
  rwa [exec_m run (by rintro _ _ _ rfl; exact calm) (by rintro _ _ rfl; exact calm)] at has

theorem exec_newStorage (run : s.exec tid .newStorage (some r) s') (sound : s.Sound) : s'.Unstored r := by
  have same := exec_m run nofun nofun
  obtain ⟨free, str, made, rfl⟩ := run
  refine ⟨⟨_, setDMap_found.2 (.inl ⟨rfl, rfl⟩), Storage.new_spec made⟩, fun p name has => ?_⟩
  obtain ⟨_, found, _⟩ := sound.valid has
  rw [free] at found
  cases found

/-- Storing an object that no name stands for. -/
theorem exec_store_content (run : s.exec tid (.store p name r) () s') (sound : s.Sound) (found : s.dmaps r = some dm)
    (valid : dm.str.Valid) (free : ∀ p name, ¬ s.Has p name r) :
    s'.Sound ∧ s'.view = s.view.set p name dm.str.layers.lookup ∧ s'.Has p name r := by
  obtain rfl := run
  have hasIff {p₁ name₁ r₁} : (s.setPartition p { s.partition p with m := (s.partition p).m.insert name r }).Has
    p₁ name₁ r₁ ↔
      (p₁ = p ∧ name₁ = name) ∧ r₁ = r ∨ ¬ (p₁ = p ∧ name₁ = name) ∧ s.Has p₁ name₁ r₁ := by
    unfold Has setPartition
    by_cases here : p₁ = p
    · subst here
      by_cases named : name₁ = name
      · subst named
        simp [eq_comm]
      · simp [named, Finmap.lookup_insert_of_ne _ named]
    · simp [here]
  have has : (s.setPartition p { s.partition p with m := (s.partition p).m.insert name r }).Has p name r :=
    hasIff.2 (.inl ⟨⟨rfl, rfl⟩, rfl⟩)
  refine ⟨⟨fun has₁ => ?_, fun {p₁ p₂ name₁ name₂ r₁} has₁ has₂ => ?_⟩, ?_, has⟩
  · rcases hasIff.1 has₁ with ⟨_, rfl⟩ | ⟨_, before⟩
    · exact ⟨dm, found, valid⟩
    · exact sound.valid before
  · rcases hasIff.1 has₁ with ⟨⟨rfl, rfl⟩, rfl⟩ | ⟨_, before₁⟩
    · rcases hasIff.1 has₂ with ⟨same, _⟩ | ⟨_, before₂⟩
      · exact same
      · exact absurd before₂ (free _ _)
    · rcases hasIff.1 has₂ with ⟨_, rfl⟩ | ⟨_, before₂⟩
      · exact absurd before₁ (free _ _)
      · exact sound.apart before₁ before₂
  · funext p₁ name₁
    by_cases this : p₁ = p ∧ name₁ = name
    · obtain ⟨rfl, rfl⟩ := this
      rw [View.set_self, view_of_has has found]
    · rw [View.set_of_ne _ _ this]
      cases has₁ : (s.partition p₁).m.lookup name₁ with
      | none =>
        rw [view_of_absent has₁, view_of_absent]
        cases has₂ : ((s.setPartition p { s.partition p with m := (s.partition p).m.insert name r }).partition
            p₁).m.lookup name₁ with
        | none => rfl
        | some r₂ =>
          rcases hasIff.1 has₂ with ⟨same, _⟩ | ⟨_, before⟩
          · exact absurd same this
          · cases has₁.symm.trans before
      | some r₁ =>
        obtain ⟨dm₁, found₁, _⟩ := sound.valid has₁
        rw [view_of_has has₁ found₁, view_of_has (hasIff.2 (.inr ⟨this, has₁⟩)) found₁]

theorem exec_store_view (run : s.exec tid (.store p name r) () s') (sound : s.Sound) (unstored : s.Unstored r)
    (absent : (s.partition p).m.lookup name = none) : s'.Sound ∧ s'.view = s.view ∧ s'.Has p name r := by
  obtain ⟨⟨dm, found, valid, empty⟩, free⟩ := unstored
  obtain ⟨sound', view, has⟩ := exec_store_content run sound found valid free
  refine ⟨sound', ?_, has⟩
  rw [view, empty, ← view_of_absent absent]
  simp [View.set]

end Node

/-- What a goroutine that looks for a dmap knows when nobody else acts. -/
def Search.Knows (p : Place) (name : Bytes) (s : Node) : Search → Prop
  | .absent => (s.partition p).m.lookup name = none
  | .made r => (s.partition p).m.lookup name = none ∧ s.Unstored r
  | .stored r | .found r => s.Has p name r
  | _ => True

section

variable {cfg : Config} {p : Place} {name : Bytes} {tid : Tid} {s s' : Node}

theorem searching_knows {g : Search} {c : Cmd} {reply : c.Reply} (allowed : (searching p name).allows g c)
    (sound : s.Sound) (knows : g.Knows p name s) (run : s.exec tid c reply s') :
    s'.Sound ∧ s'.view = s.view ∧ ((searching p name).after g c reply).Knows p name s' := by
  cases g with
  | start =>
    obtain rfl := allowed
    obtain ⟨rfl, rfl⟩ := run
    refine ⟨sound, rfl, ?_⟩
    cases has : (s'.partition p).m.lookup name with
    | none => trivial
    | some r => exact has
  | missing =>
    obtain rfl := allowed
    have after := Node.exec_calm run trivial sound
    exact ⟨after.1, after.2.1, trivial⟩
  | inside =>
    obtain rfl := allowed
    obtain ⟨rfl, rfl⟩ := run
    refine ⟨sound, rfl, ?_⟩
    cases has : (s'.partition p).m.lookup name with
    | none => exact has
    | some r => exact has
  | absent =>
    obtain rfl := allowed
    have after := Node.exec_calm run trivial sound
    refine ⟨after.1, after.2.1, ?_⟩
    cases reply with
    | none => trivial
    | some r => exact ⟨by rw [after.2.2]; exact knows, Node.exec_newStorage run sound⟩
  | made r =>
    rcases allowed with rfl | rfl | rfl | rfl
    · have after := Node.exec_calm run trivial sound
      exact ⟨after.1, after.2.1, by rw [after.2.2]; exact knows.1, Node.exec_unstored run trivial knows.2⟩
    · have after := Node.exec_calm run trivial sound
      exact ⟨after.1, after.2.1, by rw [after.2.2]; exact knows.1, Node.exec_unstored run trivial knows.2⟩
    · exact Node.exec_store_view run sound knows.2 knows.1
    · have after := Node.exec_calm run trivial sound
      exact ⟨after.1, after.2.1, trivial⟩
  | stored r =>
    rcases allowed with rfl | rfl
    · have after := Node.exec_calm run trivial sound
      exact ⟨after.1, after.2.1, by unfold Search.Knows Node.Has; rw [after.2.2]; exact knows⟩
    · have after := Node.exec_calm run trivial sound
      exact ⟨after.1, after.2.1, by unfold Search.Knows Node.Has; rw [after.2.2]; exact knows⟩
  | leaving =>
    obtain rfl := allowed
    have after := Node.exec_calm run trivial sound
    exact ⟨after.1, after.2.1, trivial⟩
  | found r => exact allowed.elim
  | failed => exact allowed.elim

/-- Names get objects and keep them. -/
def Node.Grows (s s' : Node) : Prop := ∀ p name r, s.Has p name r → s'.Has p name r

theorem Node.Grows.refl (s : Node) : s.Grows s := fun _ _ _ has => has

theorem Node.Grows.trans {s₁ s₂ s₃ : Node} (first : s₁.Grows s₂) (second : s₂.Grows s₃) : s₁.Grows s₃ :=
  fun p name r has => second p name r (first p name r has)

theorem Node.exec_grows {c : Cmd} {reply : c.Reply} (run : s.exec tid c reply s')
    (stored : ∀ p name r, c ≠ .store p name r) (removed : ∀ p name, c ≠ .remove p name) : s.Grows s' :=
  fun _ _ _ has => Node.exec_has run has (removed _ _) fun _ same => absurd same (stored _ _ _)

theorem searching_grows {g : Search} {c : Cmd} {reply : c.Reply} (allowed : (searching p name).allows g c)
    (knows : g.Knows p name s) (run : s.exec tid c reply s') : s.Grows s' := by
  have calm (same : ∀ p name r, c ≠ .store p name r) (removed : ∀ p name, c ≠ .remove p name) : s.Grows s' :=
    Node.exec_grows run same removed
  cases g with
  | start | missing | inside | absent | leaving =>
    obtain rfl := allowed
    exact calm nofun nofun
  | made r =>
    rcases allowed with rfl | rfl | rfl | rfl
    · exact calm nofun nofun
    · exact calm nofun nofun
    · intro p' name' r' has
      refine Node.exec_has run has nofun ?_
      rintro r'' ⟨⟩
      exact absurd (has.symm.trans knows.1) nofun
    · exact calm nofun nofun
  | stored r =>
    rcases allowed with rfl | rfl
    · exact calm nofun nofun
    · exact calm nofun nofun
  | found r => exact allowed.elim
  | failed => exact allowed.elim

/-- Looking for a dmap, alone, changes no entry, and leaves the dmap that it finds under the name. -/
theorem getDMap_runs {dm : Option Ref} (sound : s.Sound) (run : (cfg.getDMap p name).Runs (Node.exec tid) s dm s') :
    s'.Sound ∧ s'.view = s.view ∧ s.Grows s' ∧ ∀ r, dm = some r → s'.Has p name r := by
  obtain ⟨g, rfl, sound', same, grows, knows⟩ := getDMap_searches.runs
    (fun g s' => s'.Sound ∧ s'.view = s.view ∧ s.Grows s' ∧ g.Knows p name s')
    (fun allowed now exec => by
      have after := searching_knows allowed now.1 now.2.2.2 exec
      have grown := searching_grows allowed now.2.2.2 exec
      exact ⟨after.1, after.2.1.trans now.2.1, now.2.2.1.trans grown, after.2.2⟩)
    ⟨sound, rfl, .refl s, trivial⟩ run
  refine ⟨sound', same, grows, ?_⟩
  rintro r rfl
  exact knows

end

end Olric
