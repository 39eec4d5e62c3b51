import Olric.Node.MapNode
import Mathlib.Data.Set.Insert

namespace Olric

open Program

namespace MapNode

/-- The dmaps of `held` are locked, and nobody is in the way of anybody else. No entry expires. -/
structure Idle (s : MapNode) (held : Set (Place × Bytes)) : Prop where
  valid : ∀ {p name r}, s.names p name = some r → ∃ dm, s.dmaps r = some dm
  apart : ∀ {p p' name name' r}, s.names p name = some r → s.names p' name' = some r → p' = p ∧ name' = name
  parts : ∀ p, s.partLocked p = false
  locked : ∀ {r dm}, s.dmaps r = some dm → dm.locked = true → ∃ p name, (p, name) ∈ held ∧ s.names p name = some r
  fresh : ∃ n : Nat, ∀ r : Nat, n ≤ r → s.dmaps r = none
  eternal : ∀ {r dm hkey entry}, s.dmaps r = some dm → dm.entries hkey = some entry → entry.ttl = 0

/-- What a part of an operation makes of a member: entries are as before, or such as `may` lets
them become. -/
structure Becomes (s : MapNode) (held : Set (Place × Bytes)) (may : Place → Bytes → UInt64 → Option VData → Prop)
    (s' : MapNode) : Prop where
  idle : s'.Idle held
  names : ∀ {p name r}, s.names p name = some r → s'.names p name = some r
  shows : ∀ p name hkey, s'.view p name hkey = s.view p name hkey ∨ may p name hkey (s'.view p name hkey)

variable {s s' : MapNode} {held held' : Set (Place × Bytes)} {p : Place} {name : Bytes} {r : Ref} {dm : MapDMap}
  {hkey : UInt64} {may : Place → Bytes → UInt64 → Option VData → Prop}

theorem setDMap_found {r' : Ref} {dm' : MapDMap} : (s.setDMap r dm).dmaps r' = some dm' ↔
    r' = r ∧ dm' = dm ∨ r' ≠ r ∧ s.dmaps r' = some dm' := by
  unfold setDMap
  by_cases same : r' = r
  · subst same
    simp [eq_comm]
  · simp [same]

theorem view_of_has (has : s.names p name = some r) (found : s.dmaps r = some dm) : s.view p name = dm.entries := by
  funext hkey
  simp [view, has, found]

theorem view_of_absent (absent : s.names p name = none) : s.view p name = fun _ => none := by
  funext hkey
  simp [view, absent]

theorem Idle.view_setDMap (idle : s.Idle held) (has : s.names p name = some r) :
    (s.setDMap r dm).view = s.view.set p name dm.entries := by
  funext p' name'
  by_cases here : p' = p ∧ name' = name
  · obtain ⟨rfl, rfl⟩ := here
    rw [View.set_self]
    exact view_of_has has (setDMap_found.2 (.inl ⟨rfl, rfl⟩))
  · rw [View.set_of_ne _ _ here]
    cases has' : s.names p' name' with
    | none =>
      rw [view_of_absent has']
      exact view_of_absent has'
    | some r' =>
      obtain ⟨dm', found⟩ := idle.valid has'
      have other : r' ≠ r := by
        rintro rfl
        exact here (idle.apart has has')
      rw [view_of_has has' found]
      exact view_of_has has' (setDMap_found.2 (.inr ⟨other, found⟩))

/-- Another content of an object that a name stands for. -/
theorem Idle.setDMap (idle : s.Idle held) (has : s.names p name = some r)
    (lockedHere : dm.locked = true → (p, name) ∈ held') (lockedElsewhere : ∀ x ∈ held, x ≠ (p, name) → x ∈ held')
    (eternal : ∀ hkey entry, dm.entries hkey = some entry → entry.ttl = 0) : (s.setDMap r dm).Idle held' where
  valid {p' name' r'} has' := by
    obtain ⟨dm', found⟩ := idle.valid has'
    by_cases same : r' = r
    · exact ⟨dm, setDMap_found.2 (.inl ⟨same, rfl⟩)⟩
    · exact ⟨dm', setDMap_found.2 (.inr ⟨same, found⟩)⟩
  apart := idle.apart
  parts := idle.parts
  locked {r' dm'} found isLocked := by
    rcases setDMap_found.1 found with ⟨rfl, rfl⟩ | ⟨other, found⟩
    · exact ⟨p, name, lockedHere isLocked, has⟩
    · obtain ⟨p', name', mem, has'⟩ := idle.locked found isLocked
      refine ⟨p', name', lockedElsewhere _ mem ?_, has'⟩
      rintro ⟨rfl, rfl⟩
      exact other (Option.some.inj (has'.symm.trans has))
  fresh := by
    obtain ⟨n, free⟩ := idle.fresh
    obtain ⟨_, found⟩ := idle.valid has
    refine ⟨n, fun r' above => ?_⟩
    have other : r' ≠ r := by
      rintro rfl
      rw [free r' above] at found
      cases found
    exact (Function.update_of_ne other _ _).trans (free r' above)
  eternal {r' dm' hkey entry} found stored := by
    rcases setDMap_found.1 found with ⟨_, rfl⟩ | ⟨_, found⟩
    · exact eternal hkey entry stored
    · exact idle.eternal found stored

theorem Becomes.of_view (idle : s'.Idle held) (names : s'.names = s.names) (view : s'.view = s.view) :
    s.Becomes held may s' :=
  ⟨idle, fun has => by rwa [names], fun p name hkey => .inl (by rw [view])⟩

theorem Idle.refl (idle : s.Idle held) : s.Becomes held may s := .of_view idle rfl rfl

theorem Idle.view_setLocked {locked : Bool} (idle : s.Idle held) (has : s.names p name = some r)
    (found : s.dmaps r = some dm) : (s.setDMap r { dm with locked }).view = s.view := by
  rw [idle.view_setDMap has, ← view_of_has has found]
  simp [View.set]

theorem lock_becomes (idle : s.Idle held) (has : s.names p name = some r) (free : (p, name) ∉ held) :
    (∃ s', s.exec (.lock r) () s') ∧
      ∀ s', s.exec (.lock r) () s' → s.Becomes (insert (p, name) held) (fun _ _ _ _ => False) s' := by
  obtain ⟨dm, found⟩ := idle.valid has
  have unlocked : dm.locked = false := by
    by_contra isLocked
    obtain ⟨p', name', mem, has'⟩ := idle.locked found (by simpa using isLocked)
    obtain ⟨rfl, rfl⟩ := idle.apart has has'
    exact free mem
  refine ⟨⟨_, dm, found, unlocked, rfl⟩, ?_⟩
  rintro s' ⟨dm', found', _, rfl⟩
  cases found.symm.trans found'
  exact .of_view (idle.setDMap has (fun _ => Set.mem_insert _ _) (fun x mem _ => Set.mem_insert_of_mem _ mem)
    fun _ _ stored => idle.eternal found stored) rfl (idle.view_setLocked has found)

theorem unlock_becomes (idle : s.Idle (insert (p, name) held)) (has : s.names p name = some r) :
    (∃ s', s.exec (.unlock r) () s') ∧ ∀ s', s.exec (.unlock r) () s' → s.Becomes held (fun _ _ _ _ => False) s' := by
  obtain ⟨dm, found⟩ := idle.valid has
  refine ⟨⟨_, dm, found, rfl⟩, ?_⟩
  rintro s' ⟨dm', found', rfl⟩
  cases found.symm.trans found'
  exact .of_view (idle.setDMap has (by rintro ⟨⟩) (fun x mem other => Set.mem_of_mem_insert_of_ne mem other)
    fun _ _ stored => idle.eternal found stored) rfl (idle.view_setLocked has found)

/-- A put or a delete, on an object that a name stands for. -/
theorem write_becomes (hkey : UInt64) {entry : Option VData} (idle : s.Idle held) (has : s.names p name = some r)
    (found : s.dmaps r = some dm) (eternal : ∀ v, entry = some v → v.ttl = 0) :
    s.Becomes held (fun p' name' hkey' e => (p' = p ∧ name' = name ∧ hkey' = hkey) ∧ e = entry)
        (s.setDMap r { dm with entries := Function.update dm.entries hkey entry }) ∧
      (s.setDMap r { dm with entries := Function.update dm.entries hkey entry }).view p name hkey = entry := by
  have view : (s.setDMap r { dm with entries := Function.update dm.entries hkey entry }).view =
      s.view.set p name (Function.update dm.entries hkey entry) := idle.view_setDMap has
  have now : (s.setDMap r { dm with entries := Function.update dm.entries hkey entry }).view p name hkey = entry := by
    rw [view, View.set_self, Function.update_self]
  refine ⟨⟨idle.setDMap has (fun isLocked => ?_) (fun _ mem _ => mem) fun hkey' v stored => ?_, fun has => has,
    fun p' name' hkey' => ?_⟩, now⟩
  · obtain ⟨p', name', mem, has'⟩ := idle.locked found isLocked
    obtain ⟨rfl, rfl⟩ := idle.apart has has'
    exact mem
  · by_cases same : hkey' = hkey
    · subst same
      dsimp only at stored
      rw [Function.update_self] at stored
      exact eternal v stored
    · dsimp only at stored
      rw [Function.update_of_ne same] at stored
      exact idle.eternal found stored
  · by_cases here : p' = p ∧ name' = name
    · obtain ⟨rfl, rfl⟩ := here
      by_cases same : hkey' = hkey
      · subst same
        exact .inr ⟨⟨rfl, rfl, rfl⟩, now⟩
      · left
        rw [view, View.set_self, view_of_has has found]
        exact Function.update_of_ne same ..
    · left
      rw [view, View.set_of_ne _ _ here]

/-- A dmap that `getDMap` has made. -/
theorem Idle.addDMap (idle : s.Idle held) (absent : s.names p name = none) (free : s.dmaps r = none) :
    s.Becomes held may ((((s.setPartLocked p true).setDMap r ⟨fun _ => none, false⟩).setName p name r).setPartLocked p
      false) := by
  generalize made : (((s.setPartLocked p true).setDMap r ⟨fun _ => none, false⟩).setName p name r).setPartLocked p
    false = s'
  have hasIff {p' name' r'} : s'.names p' name' = some r' ↔
      (p' = p ∧ name' = name) ∧ r' = r ∨ ¬ (p' = p ∧ name' = name) ∧ s.names p' name' = some r' := by
    subst made
    unfold setPartLocked setName MapNode.setDMap
    dsimp only
    by_cases here : p' = p
    · subst here
      by_cases named : name' = name
      · subst named
        simp [eq_comm]
      · simp [named]
    · simp [here]
  have foundIff {r' dm'} : s'.dmaps r' = some dm' ↔ r' = r ∧ dm' = ⟨fun _ => none, false⟩ ∨ r' ≠ r ∧
      s.dmaps r' = some dm' := by
    subst made
    exact setDMap_found
  have old {r' dm'} (found : s.dmaps r' = some dm') : s'.dmaps r' = some dm' := by
    refine foundIff.2 (.inr ⟨?_, found⟩)
    rintro rfl
    cases free.symm.trans found
  have grows {p' name' r'} (has : s.names p' name' = some r') : s'.names p' name' = some r' := by
    refine hasIff.2 (.inr ⟨?_, has⟩)
    rintro ⟨rfl, rfl⟩
    cases absent.symm.trans has
  refine ⟨⟨fun {p' name' r'} has => ?_, fun {p₁ p₂ name₁ name₂ r'} has₁ has₂ => ?_, fun p' => ?_,
    fun found isLocked => ?_, ?_, fun found stored => ?_⟩, grows, fun p' name' hkey => .inl ?_⟩
  · rcases hasIff.1 has with ⟨_, rfl⟩ | ⟨_, has⟩
    · exact ⟨_, foundIff.2 (.inl ⟨rfl, rfl⟩)⟩
    · obtain ⟨dm, found⟩ := idle.valid has
      exact ⟨dm, old found⟩
  · rcases hasIff.1 has₁ with ⟨here₁, rfl⟩ | ⟨_, has₁⟩ <;> rcases hasIff.1 has₂ with ⟨here₂, same⟩ | ⟨_, has₂⟩
    · exact ⟨here₂.1.trans here₁.1.symm, here₂.2.trans here₁.2.symm⟩
    · obtain ⟨_, found⟩ := idle.valid has₂
      cases free.symm.trans found
    · obtain ⟨_, found⟩ := idle.valid has₁
      rw [same, free] at found
      cases found
    · exact idle.apart has₁ has₂
  · subst made
    unfold setPartLocked setName MapNode.setDMap
    dsimp only
    by_cases here : p' = p
    · subst here
      simp
    · simp [here, idle.parts]
  · rcases foundIff.1 found with ⟨_, rfl⟩ | ⟨_, found⟩
    · cases isLocked
    · obtain ⟨p', name', mem, has⟩ := idle.locked found isLocked
      exact ⟨p', name', mem, grows has⟩
  · obtain ⟨n, above⟩ := idle.fresh
    refine ⟨max n (r + 1), fun r' large => ?_⟩
    have other : r' ≠ r := Nat.ne_of_gt (Nat.lt_of_lt_of_le (Nat.lt_succ_self r) (le_of_max_le_right large))
    by_contra found
    obtain ⟨dm, found⟩ := Option.ne_none_iff_exists'.1 found
    rcases foundIff.1 found with ⟨same, _⟩ | ⟨_, found⟩
    · exact other same
    · rw [above r' (le_of_max_le_left large)] at found
      cases found
  · rcases foundIff.1 found with ⟨_, rfl⟩ | ⟨_, found⟩
    · cases stored
    · exact idle.eternal found stored
  · by_cases here : p' = p ∧ name' = name
    · obtain ⟨rfl, rfl⟩ := here
      rw [view_of_absent absent, view_of_has (hasIff.2 (.inl ⟨⟨rfl, rfl⟩, rfl⟩)) (foundIff.2 (.inl ⟨rfl, rfl⟩))]
    · cases has : s.names p' name' with
      | none =>
        have absent' : s'.names p' name' = none := by
          by_contra there
          obtain ⟨r', there⟩ := Option.ne_none_iff_exists'.1 there
          rcases hasIff.1 there with ⟨same, _⟩ | ⟨_, there⟩
          · exact here same
          · cases has.symm.trans there
        rw [view_of_absent has, view_of_absent absent']
      | some r' =>
        obtain ⟨dm, found⟩ := idle.valid has
        rw [view_of_has has found, view_of_has (grows has) (old found)]

theorem getDMap_total (cfg : Config) (idle : s.Idle held) : (cfg.getDMap p name).Total exec s fun dm s' =>
    ∃ r, dm = some r ∧ s'.names p name = some r ∧ s.Becomes held (fun _ _ _ _ => False) s' := by
  refine .call ⟨_, _, rfl, rfl⟩ ?_
  rintro _ s ⟨rfl, rfl⟩
  dsimp only [ret_bind]
  cases has : s.names p name with
  | some r => exact ⟨r, rfl, has, idle.refl⟩
  | none =>
    refine .call ⟨(), _, idle.parts p, rfl⟩ ?_
    rintro _ _ ⟨_, rfl⟩
    dsimp only [ret_bind, bind_eq]
    refine Total.bind (Q := fun dm s' => ∃ r, dm = some r ∧ s.dmaps r = none ∧
      s' = ((s.setPartLocked p true).setDMap r ⟨fun _ => none, false⟩).setName p name r) ?_ ?_
    · refine .call ⟨_, _, rfl, rfl⟩ ?_
      rintro _ _ ⟨rfl, rfl⟩
      have absent : (s.setPartLocked p true).names p name = none := has
      dsimp only [ret_bind]
      rw [absent]
      obtain ⟨n, free⟩ := idle.fresh
      refine .call ⟨_, _, n, rfl, free n le_rfl, rfl⟩ ?_
      rintro _ _ ⟨r, rfl, free, rfl⟩
      refine .call ⟨(), _, rfl⟩ ?_
      rintro _ _ rfl
      dsimp only [ret_bind, bind_eq]
      have registered : (cfg.snapshotCall (act (.register p name r))).Total exec
          ((s.setPartLocked p true).setDMap r ⟨fun _ => none, false⟩) fun ok s' =>
          ok = true ∧ s' = (s.setPartLocked p true).setDMap r ⟨fun _ => none, false⟩ := by
        unfold Config.snapshotCall
        split
        · refine .call ⟨true, _, rfl, rfl⟩ ?_
          rintro _ _ ⟨rfl, rfl⟩
          exact ⟨rfl, rfl⟩
        · exact ⟨rfl, rfl⟩
      refine registered.bind ?_
      rintro _ _ ⟨rfl, rfl⟩
      refine .call ⟨(), _, rfl⟩ ?_
      rintro _ _ rfl
      refine .call ⟨(), _, rfl⟩ ?_
      rintro _ _ rfl
      exact ⟨r, rfl, free, rfl⟩
    · rintro _ _ ⟨r, rfl, free, rfl⟩
      refine .call ⟨(), _, rfl⟩ ?_
      rintro _ _ rfl
      refine ⟨r, rfl, ?_, idle.addDMap has free⟩
      simp [setPartLocked, setName]

end MapNode

end Olric
