import Olric.Node.Transfer
import Olric.Node.View

namespace Olric

namespace Node

variable {tid : Tid} {s s' : Node} {p : Place} {name : Bytes} {r : Ref} {c : Cmd} {reply : c.Reply}

/-- A name stands for what it stood for, or for what has been stored. -/
theorem exec_has_origin (run : s.exec tid c reply s') (has : s'.Has p name r) :
    s.Has p name r ∨ c = .store p name r := by
  have after : (s'.partition p).m = (c.edit s.maps p).1 := congrArg Prod.fst (congrFun (Node.exec_maps run) p)
  have old (before : (s.maps p).1.lookup name = some r) : s.Has p name r ∨ c = .store p name r := .inl before
  unfold Node.Has at has
  rw [after] at has
  cases c
  case store p' name' r' =>
    by_cases here : p' = p
    · subst here
      by_cases named : name' = name
      · subst named
        simp only [Cmd.edit, Maps.store, Function.update_self, Finmap.lookup_insert, Option.some.injEq] at has
        exact .inr (by rw [has])
      · exact old (by simpa [Cmd.edit, Maps.store, Finmap.lookup_insert_of_ne _ (Ne.symm named)] using has)
    · exact old (by simpa [Cmd.edit, Maps.store, Function.update_of_ne (Ne.symm here)] using has)
  case remove p' name' =>
    by_cases here : p' = p
    · subst here
      by_cases named : name = name'
      · subst named
        simp [Cmd.edit, Maps.remove, Finmap.lookup_erase] at has
      · exact old (by simpa [Cmd.edit, Maps.remove, Finmap.lookup_erase_ne named] using has)
    · exact old (by simpa [Cmd.edit, Maps.remove, Function.update_of_ne (Ne.symm here)] using has)
  case addCount p' delta =>
    by_cases here : p' = p
    · subst here
      exact old (by simpa [Cmd.edit, Maps.addCount] using has)
    · exact old (by simpa [Cmd.edit, Maps.addCount, Function.update_of_ne (Ne.symm here)] using has)
  all_goals exact .inl has

theorem exec_makes {str : Storage} (run : s.exec tid c reply s') (makes : c.Makes r str reply) :
    s.dmaps r = none ∧ ∃ str, s'.dmaps r = some ⟨str, none, none, none⟩ ∧ c.Makes r str reply := by
  cases c
  case newStorage | importStorage =>
    obtain ⟨rfl, _⟩ := id makes
    obtain ⟨free, str', made, rfl⟩ := run
    exact ⟨free, str', setDMap_found.2 (.inl ⟨rfl, rfl⟩), rfl, made⟩
  all_goals exact makes.elim

/-- A command that neither writes to the storage under a name nor gives the name another object. -/
theorem exec_view_same (run : s.exec tid c reply s') (known : ∀ r, s.Has p name r → ∃ dm, s.dmaps r = some dm)
    (stores : ∀ r, c ≠ .store p name r) (stays : c ≠ .remove p name)
    (unwritten : ∀ r, s.Has p name r → (∀ hkey entry, c ≠ .put r hkey entry) ∧ (∀ hkey, c ≠ .delete r hkey) ∧
      c ≠ .close r) :
    s'.view p name = s.view p name ∧ (s'.partition p).m.lookup name = (s.partition p).m.lookup name := by
  cases has : (s.partition p).m.lookup name with
  | none =>
    have still : (s'.partition p).m.lookup name = none := by
      cases has' : (s'.partition p).m.lookup name with
      | none => rfl
      | some r =>
        rcases exec_has_origin run has' with before | stored
        · cases has.symm.trans before
        · exact absurd stored (stores r)
    exact ⟨by rw [view_of_absent still, view_of_absent has], still⟩
  | some r =>
    obtain ⟨dm, found⟩ := known r has
    obtain ⟨puts, deletes, closes⟩ := unwritten r has
    obtain ⟨dm', found', str⟩ := exec_str run found puts deletes closes
    have has' : s'.Has p name r := exec_has run has stays fun r' stored => absurd stored (stores r')
    exact ⟨by rw [view_of_has has' found', view_of_has has found, str], has'⟩

/-- Every name has an object of its own. The objects that goroutines have made and not stored yet
are under no name, and each of them belongs to one goroutine. -/
structure Apart (s : Node) (fresh : Tid → Option Ref) : Prop where
  known : ∀ {p name r}, s.Has p name r → ∃ dm, s.dmaps r = some dm
  names : ∀ {p p' name name' r}, s.Has p name r → s.Has p' name' r → p' = p ∧ name' = name
  made : ∀ {tid r}, fresh tid = some r → ∃ dm, s.dmaps r = some dm
  unnamed : ∀ {tid p name r}, fresh tid = some r → ¬ s.Has p name r
  own : ∀ {tid tid' r}, fresh tid = some r → fresh tid' = some r → tid' = tid

/-- What a goroutine may have at hand after a command: what it had, unless it has stored it, or
what it has made. -/
def Gives (c : Cmd) (reply : c.Reply) (before after : Option Ref) : Prop :=
  after = none ∨ (after = before ∧ ∀ p name r, c ≠ .store p name r) ∨ ∃ r str, after = some r ∧ c.Makes r str reply

/-- Objects stay apart when goroutines store only what they have made. -/
theorem Apart.exec {fresh : Tid → Option Ref} {after : Option Ref} (apart : s.Apart fresh)
    (run : s.exec tid c reply s') (stores : ∀ p name r, c = .store p name r → fresh tid = some r)
    (gives : Gives c reply (fresh tid) after) : s'.Apart (Function.update fresh tid after) := by
  have stays {r} (there : ∃ dm, s.dmaps r = some dm) : ∃ dm, s'.dmaps r = some dm := by
    obtain ⟨dm, found⟩ := there
    obtain ⟨dm', found', _⟩ := exec_change run found
    exact ⟨dm', found'⟩
  have new {r} (now : after = some r) : s.dmaps r = none ∧ (∃ dm, s'.dmaps r = some dm) ∧
    (∀ p name r, c ≠ .store p name r) ∨
      fresh tid = some r ∧ ∀ p name r, c ≠ .store p name r := by
    rcases gives with rfl | ⟨same, unstored⟩ | ⟨r', str, rfl, makes⟩
    · cases now
    · exact .inr ⟨same ▸ now, unstored⟩
    · cases now
      obtain ⟨free, _, found, _⟩ := exec_makes run makes
      refine .inl ⟨free, ⟨_, found⟩, ?_⟩
      rintro _ _ _ rfl
      exact makes
  have split {tid' r} (now : Function.update fresh tid after tid' = some r) :
      tid' = tid ∧ after = some r ∨ tid' ≠ tid ∧ fresh tid' = some r := by
    by_cases same : tid' = tid
    · subst same
      exact .inl ⟨rfl, by simpa using now⟩
    · exact .inr ⟨same, by simpa [same] using now⟩
  refine { known := fun {p name r} has => ?_, names := fun {p p' name name' r} has has' => ?_,
           made := fun {tid' r} now => ?_, unnamed := fun {tid' p name r} now has => ?_,
           own := fun {tid₁ tid₂ r} now₁ now₂ => ?_ }
  · rcases exec_has_origin run has with before | rfl
    · exact stays (apart.known before)
    · exact stays (apart.made (stores _ _ _ rfl))
  · rcases exec_has_origin run has with before | rfl
    · rcases exec_has_origin run has' with before' | rfl
      · exact apart.names before before'
      · exact absurd before (apart.unnamed (stores _ _ _ rfl))
    · rcases exec_has_origin run has' with before' | same
      · exact absurd before' (apart.unnamed (stores _ _ _ rfl))
      · cases same
        exact ⟨rfl, rfl⟩
  · rcases split now with ⟨rfl, mine⟩ | ⟨_, now⟩
    · rcases new mine with ⟨_, there, _⟩ | ⟨before, _⟩
      · exact there
      · exact stays (apart.made before)
    · exact stays (apart.made now)
  · rcases split now with ⟨rfl, mine⟩ | ⟨differs, now⟩
    · rcases new mine with ⟨free, _, unstored⟩ | ⟨before, unstored⟩
      · rcases exec_has_origin run has with old | stored
        · obtain ⟨dm, found⟩ := apart.known old
          rw [free] at found
          cases found
        · exact unstored _ _ _ stored
      · rcases exec_has_origin run has with old | stored
        · exact apart.unnamed before old
        · exact unstored _ _ _ stored
    · rcases exec_has_origin run has with old | stored
      · exact apart.unnamed now old
      · exact differs (apart.own (stores _ _ _ stored) now)
  · have alone {tid' r} (differs : tid' ≠ tid) (other : fresh tid' = some r) (now : after = some r) : False := by
      rcases new now with ⟨free, _⟩ | ⟨before, _⟩
      · obtain ⟨dm, found⟩ := apart.made other
        rw [free] at found
        cases found
      · exact differs (apart.own before other)
    rcases split now₁ with ⟨same₁, mine₁⟩ | ⟨differs₁, now₁⟩
    · rcases split now₂ with ⟨same₂, _⟩ | ⟨differs₂, now₂⟩
      · exact same₂.trans same₁.symm
      · exact (alone differs₂ now₂ mine₁).elim
    · rcases split now₂ with ⟨_, mine₂⟩ | ⟨_, now₂⟩
      · exact (alone differs₁ now₁ mine₂).elim
      · exact apart.own now₁ now₂

end Node

/-- The new dmap that a goroutine has not stored. -/
def Search.fresh : Search → Option Ref
  | .made r => some r
  | _ => none

section

variable {p : Place} {name : Bytes} {g : Search} {c : Cmd} {reply : c.Reply} {tid : Tid} {s s' : Node}

theorem searching_stores (allowed : (searching p name).allows g c) (q : Place) (name' : Bytes) (r : Ref)
    (stored : c = .store q name' r) : g.fresh = some r ∧ q = p ∧ name' = name := by
  subst stored
  cases g with
  | made r' =>
    rcases allowed with wrong | wrong | same | wrong
    · cases wrong
    · cases wrong
    · cases same
      exact ⟨rfl, rfl, rfl⟩
    · cases wrong
  | stored r' => rcases allowed with wrong | wrong <;> cases wrong
  | start | missing | inside | absent | leaving => cases allowed
  | found | failed => exact allowed.elim

theorem searching_gives (allowed : (searching p name).allows g c) (run : s.exec tid c reply s') :
    Node.Gives c reply g.fresh ((searching p name).after g c reply).fresh := by
  cases g with
  | start | inside =>
    obtain rfl := allowed
    cases reply <;> exact .inl rfl
  | missing | leaving =>
    obtain rfl := allowed
    exact .inl rfl
  | absent =>
    obtain rfl := allowed
    cases reply with
    | none => exact .inl rfl
    | some r =>
      obtain ⟨_, str, made, _⟩ := run
      exact .inr (.inr ⟨r, str, rfl, rfl, made⟩)
  | made r =>
    rcases allowed with rfl | rfl | rfl | rfl
    · exact .inr (.inl ⟨rfl, nofun⟩)
    · exact .inr (.inl ⟨rfl, nofun⟩)
    · exact .inl rfl
    · exact .inl rfl
  | stored r => rcases allowed with rfl | rfl <;> exact .inl rfl
  | found | failed => exact allowed.elim

end

/-- The goroutine has the mutex of the dmap. -/
def Move.Holds : Move → Prop
  | .start | .done => False
  | _ => True

section

variable {p : Place} {name : Bytes} {r : Ref} {owner : Host} {m : Move} {c : Cmd}

/-- The commands of a move that change what a name stands for or what is in a storage. -/
theorem moving_cases (allowed : (moving p name r owner).allows m c) :
    c.Calm ∨ m = .accepted ∧ c = .remove p name ∨ m = .removed ∧ c = .close r := by
  cases m with
  | accepted => exact .inr (.inl ⟨rfl, allowed⟩)
  | removed =>
    rcases allowed with rfl | rfl | rfl | rfl
    · exact .inl trivial
    · exact .inr (.inr ⟨rfl, rfl⟩)
    · exact .inl trivial
    · exact .inl trivial
  | start | locked | unused | exported | leaving =>
    obtain rfl : c = _ := allowed
    exact .inl trivial
  | done => exact allowed.elim

theorem moving_keeps (allowed : (moving p name r owner).allows m c) : (∀ p name r, c ≠ .store p name r) ∧
    (∀ r hkey entry, c ≠ .put r hkey entry) ∧ ∀ r hkey, c ≠ .delete r hkey := by
  rcases moving_cases allowed with calm | ⟨_, rfl⟩ | ⟨_, rfl⟩
  · refine ⟨?_, ?_, ?_⟩
    · rintro _ _ _ rfl
      exact calm
    · rintro _ _ _ rfl
      exact calm
    · rintro _ _ rfl
      exact calm
  · exact ⟨nofun, nofun, nofun⟩
  · exact ⟨nofun, nofun, nofun⟩

/-- A goroutine gives back the mutex that it has. -/
theorem moving_unlocks {r' : Ref} (allowed : (moving p name r owner).allows m (.unlock r')) : r' = r ∧ m.Holds := by
  cases m with
  | removed =>
    rcases allowed with wrong | wrong | wrong | same
    · cases wrong
    · cases wrong
    · cases wrong
    · cases same
      exact ⟨rfl, trivial⟩
  | leaving =>
    cases allowed
    exact ⟨rfl, trivial⟩
  | start | locked | unused | exported | accepted => cases allowed
  | done => exact allowed.elim

end

/-- The imported dmap that a goroutine has not stored. -/
def Merge.fresh : Merge → Option Ref
  | .imported fresh | .absent fresh | .found fresh _ | .locked fresh _ => some fresh
  | _ => none

section

variable {p : Place} {name : Bytes} {tr : Transport} {m : Merge} {c : Cmd} {reply : c.Reply} {tid : Tid} {s s' : Node}

/-- The commands of a merge that change what a name stands for or what is in a storage. -/
theorem merging_cases (allowed : (merging p name tr).allows m c) : c.Calm ∨
    (∃ fresh, m = .absent fresh ∧ c = .store p name fresh) ∨
    (∃ r hkey entry left, m = .missing r hkey entry left ∧ c = .put r hkey entry) ∨
    ∃ r hkey entry, m = .astray r ∧ c = .put r hkey entry := by
  cases m with
  | absent fresh =>
    rcases allowed with rfl | rfl
    · exact .inl trivial
    · exact .inr (.inl ⟨fresh, rfl, rfl⟩)
  | missing r hkey entry left =>
    obtain rfl : c = _ := allowed
    exact .inr (.inr (.inl ⟨r, hkey, entry, left, rfl, rfl⟩))
  | astray r =>
    rcases allowed with ⟨_, rfl⟩ | ⟨hkey, entry, rfl⟩ | rfl
    · exact .inl trivial
    · exact .inr (.inr (.inr ⟨r, hkey, entry, rfl, rfl⟩))
    · exact .inl trivial
  | merging r left =>
    cases left <;>
    · obtain rfl : c = _ := allowed
      exact .inl trivial
  | start | imported | found | locked | failing =>
    obtain rfl : c = _ := allowed
    exact .inl trivial
  | stored | merged | failed => exact allowed.elim

theorem merging_stores (allowed : (merging p name tr).allows m c) (q : Place) (name' : Bytes) (r : Ref)
    (stored : c = .store q name' r) : m.fresh = some r ∧ q = p ∧ name' = name := by
  subst stored
  rcases merging_cases allowed with calm | ⟨fresh, rfl, same⟩ | ⟨_, _, _, _, _, wrong⟩ | ⟨_, _, _, _, wrong⟩
  · exact calm.elim
  · cases same
    exact ⟨rfl, rfl, rfl⟩
  · cases wrong
  · cases wrong

theorem merging_gives (allowed : (merging p name tr).allows m c) (run : s.exec tid c reply s') :
    Node.Gives c reply m.fresh ((merging p name tr).after m c reply).fresh := by
  cases m with
  | start =>
    obtain rfl := allowed
    cases reply with
    | none => exact .inl rfl
    | some r =>
      obtain ⟨_, str, made, _⟩ := run
      exact .inr (.inr ⟨r, str, rfl, rfl, made⟩)
  | imported fresh =>
    obtain rfl := allowed
    cases reply <;> exact .inr (.inl ⟨rfl, nofun⟩)
  | absent fresh =>
    rcases allowed with rfl | rfl
    · exact .inr (.inl ⟨rfl, nofun⟩)
    · exact .inl rfl
  | found fresh r =>
    obtain rfl := allowed
    exact .inr (.inl ⟨rfl, nofun⟩)
  | locked fresh r =>
    obtain rfl := allowed
    rcases reply with _ | ⟨entries, _ | ⟨more, tables⟩⟩ <;> exact .inl rfl
  | merging r left =>
    cases left with
    | nil =>
      obtain rfl := allowed
      exact .inl rfl
    | cons e left =>
      obtain rfl := allowed
      cases reply <;> exact .inl rfl
  | missing r hkey entry left =>
    obtain rfl := allowed
    cases reply <;> exact .inl rfl
  | failing r =>
    obtain rfl := allowed
    exact .inl rfl
  | astray r => rcases allowed with ⟨_, rfl⟩ | ⟨_, _, rfl⟩ | rfl <;> exact .inl rfl
  | stored | merged | failed => exact allowed.elim

end

end Olric
