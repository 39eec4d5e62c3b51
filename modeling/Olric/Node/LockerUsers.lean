import Mathlib.Logic.Equiv.Basic
import Olric.Node.LockerSteps

namespace Olric

/-- What somebody does with a lock: wait for it, have its mutex and still be counted, be past `lock`, or be
about to unlock the mutex. -/
inductive LockRole
  | none
  | entered (name : Bytes) (i : Nat)
  | acquired (name : Bytes) (i : Nat)
  | inside (name : Bytes) (i : Nat)
  | releasing (i : Nat)

namespace LockRole

/-- The name of a call of `lock` that has not returned, with its lock. -/
def calls : LockRole → Option (Bytes × Nat)
  | .entered name i | .acquired name i => some (name, i)
  | _ => Option.none

/-- The lock that the user is counted for as a waiter. -/
def waits : LockRole → Option Nat
  | .entered _ i | .acquired _ i => some i
  | _ => Option.none

/-- The lock whose mutex the user has. -/
def holds : LockRole → Option Nat
  | .acquired _ i | .inside _ i | .releasing i => some i
  | _ => Option.none

/-- The name that the user waits for or holds, until it is unlocked. -/
def uses : LockRole → Option (Bytes × Nat)
  | .entered name i | .acquired name i | .inside name i => some (name, i)
  | _ => Option.none

variable {role : LockRole} {name : Bytes} {i : Nat}

theorem calls_of_waits (waits : role.waits = some i) :
    ∃ name, role.calls = some (name, i) ∧ role.uses = some (name, i) := by
  cases role with
  | entered name | acquired name =>
    cases waits
    exact ⟨name, rfl, rfl⟩
  | none | inside | releasing => cases waits

theorem uses_cases (uses : role.uses = some (name, i)) :
    role.calls = some (name, i) ∧ role.waits = some i ∨ role = .inside name i := by
  cases role with
  | entered | acquired =>
    cases uses
    exact .inl ⟨rfl, rfl⟩
  | inside =>
    cases uses
    exact .inr rfl
  | none | releasing => cases uses

end LockRole

namespace Locker

variable {User : Type} {l l' : Locker} {name : Bytes} {i : Nat} {waits holds : User → Option Nat}
  {uses : User → Option (Bytes × Nat)}
  {roles : User → LockRole}

/-- The mutex of a lock is locked if a thread has it, and one thread has it. -/
structure HeldBy (l : Locker) (holds : User → Option Nat) : Prop where
  held : ∀ i, (l.ctrs i).held = true ↔ ∃ u, holds u = some i
  alone : ∀ {u v i}, holds u = some i → holds v = some i → v = u
  made : ∀ {u i}, holds u = some i → i < l.made

/-- A name is in the table as long as a thread uses its lock. -/
structure NamedBy (l : Locker) (uses : User → Option (Bytes × Nat)) : Prop where
  used : ∀ {u name i}, uses u = some (name, i) → l.locks.lookup name = some i
  entry : ∀ {name i}, l.locks.lookup name = some i → ∃ u, uses u = some (name, i)
  once : ∀ {name name' i}, l.locks.lookup name = some i → l.locks.lookup name' = some i → name' = name
  made : ∀ {name i}, l.locks.lookup name = some i → i < l.made

/-- The locker is as its users say. -/
structure Used (l : Locker) (roles : User → LockRole) : Prop where
  waits : l.CountsWaits (LockRole.waits ∘ roles)
  holds : l.HeldBy (LockRole.holds ∘ roles)
  uses : l.NamedBy (LockRole.uses ∘ roles)

theorem newLocker_used : newLocker.Used fun _ : User => .none where
  waits _ := ⟨∅, by simp [LockRole.waits], rfl⟩
  holds := ⟨by simp [newLocker, LockRole.holds], by simp [LockRole.holds], by simp [LockRole.holds]⟩
  uses := ⟨by simp [LockRole.uses], by simp [newLocker], by simp [newLocker], by simp [newLocker]⟩

/-- It does not matter who has which role. -/
theorem Used.rename (used : l.Used roles) (e : User ≃ User) : l.Used (roles ∘ e) where
  waits i := by
    obtain ⟨W, mem, card⟩ := used.waits i
    exact ⟨W.map e.symm.toEmbedding, fun u => by rw [Finset.mem_map_equiv, Equiv.symm_symm, mem]; rfl, by
      rw [Finset.card_map, card]⟩
  holds := ⟨fun i => (used.holds.held i).trans e.surjective.exists,
    fun has has' => e.injective (used.holds.alone has has'), fun has => used.holds.made has⟩
  uses := ⟨fun mine => used.uses.used mine, fun found => e.surjective.exists.1 (used.uses.entry found),
    used.uses.once, used.uses.made⟩

/-- Closing a channel is nothing to the users. -/
theorem Used.unlockClose (used : l.Used roles) (i : Nat) : (l.unlockClose i).Used roles :=
  ⟨used.waits, ⟨used.holds.held, used.holds.alone, used.holds.made⟩,
    ⟨used.uses.used, used.uses.entry, used.uses.once, used.uses.made⟩⟩

theorem Used.held (used : l.Used roles) {u : User} (mine : (roles u).holds = some i) : (l.ctrs i).held = true :=
  (used.holds.held i).2 ⟨u, mine⟩

/-- As long as fewer than 2^32 users call `lock` for a name, the counter is the number of the waiters. -/
theorem Used.few (used : l.Used roles)
    (few : ∀ W : Finset User, (∀ v ∈ W, ∃ i, (roles v).calls = some (name, i)) → W.card < 2 ^ 32)
    (found : l.locks.lookup name = some i) : 0 ≤ (l.ctrs i).waiters ∧ (l.ctrs i).waiters < 2 ^ 32 := by
  obtain ⟨W, mem, card⟩ := used.waits i
  have bound : W.card < 2 ^ 32 := by
    refine few W fun v there => ⟨i, ?_⟩
    obtain ⟨name', calls, mine⟩ := LockRole.calls_of_waits ((mem v).1 there)
    rwa [used.uses.once found (used.uses.used mine)] at calls
  omega

variable [DecidableEq User] {u v : User} {role : LockRole}

theorem HeldBy.stays {lock : Option Nat} (heldBy : l.HeldBy holds) (same : holds u = lock)
    (held : ∀ i, (l'.ctrs i).held = (l.ctrs i).held) (made : l.made ≤ l'.made) :
    l'.HeldBy (Function.update holds u lock) := by
  subst same
  rw [Function.update_eq_self]
  refine ⟨fun i => ?_, heldBy.alone, fun has => Nat.lt_of_lt_of_le (heldBy.made has) made⟩
  rw [held]
  exact heldBy.held i

theorem HeldBy.enter (heldBy : l.HeldBy holds) (without : holds u = none) :
    (l.enter name).1.HeldBy (Function.update holds u none) := by
  have unmade : (l.ctrs l.made).held = false := by
    rw [Bool.eq_false_iff, Ne, heldBy.held]
    intro ⟨u, has⟩
    exact Nat.lt_irrefl _ (heldBy.made has)
  exact heldBy.stays without (l.enter_held name unmade) (l.enter_made name)

theorem HeldBy.acquire (heldBy : l.HeldBy holds) (without : holds u = none) (made : i < l.made)
    (acquired : l.acquire i = some l') : l'.HeldBy (Function.update holds u (some i)) := by
  obtain ⟨free, rfl⟩ := acquire_eq acquired
  have nobody (t : User) : holds t ≠ some i := by
    intro has
    rw [(heldBy.held i).2 ⟨t, has⟩] at free
    cases free
  -- The threads that have a lock are those that had it, and this one.
  have now (t : User) (j : Nat) : Function.update holds u (some i) t = some j ↔ t = u ∧ j = i ∨ holds t = some j := by
    by_cases same : t = u
    · subst same
      simp [without, eq_comm]
    · simp [same]
  refine ⟨fun j => ?_, fun {t t' j} has has' => ?_, fun {t j} has => ?_⟩
  · by_cases same : j = i
    · subst same
      exact iff_of_true (by simp [setCtr]) ⟨u, (now u j).2 (.inl ⟨rfl, rfl⟩)⟩
    · simp only [setCtr, Function.update_of_ne same, heldBy.held, now, same, and_false, false_or]
  · rcases (now t j).1 has with ⟨rfl, rfl⟩ | before
    · rcases (now t' j).1 has' with ⟨same, _⟩ | before'
      · exact same
      · exact absurd before' (nobody t')
    · rcases (now t' j).1 has' with ⟨_, rfl⟩ | before'
      · exact absurd before (nobody t)
      · exact heldBy.alone before before'
  · rcases (now t j).1 has with ⟨_, rfl⟩ | before
    · exact made
    · exact heldBy.made before

theorem HeldBy.release (heldBy : l.HeldBy holds) (has : holds u = some i) :
    (l.setCtr i { l.ctrs i with held := false }).HeldBy (Function.update holds u none) := by
  -- The threads that have a lock are those that had it, without this one.
  have now (t : User) (j : Nat) : Function.update holds u none t = some j ↔ j ≠ i ∧ holds t = some j := by
    by_cases same : t = u
    · subst same
      simp [has, eq_comm]
    · rw [Function.update_of_ne same]
      refine ⟨fun has' => ⟨?_, has'⟩, fun has' => has'.2⟩
      intro this
      subst this
      exact same (heldBy.alone has has')
  refine ⟨fun j => ?_, fun {t t' j} has has' => ?_, fun {t j} has => ?_⟩
  · by_cases same : j = i
    · subst same
      simp [setCtr, now]
    · simp only [setCtr, Function.update_of_ne same, heldBy.held, now, same, ne_eq, not_false_eq_true, true_and]
  · exact heldBy.alone ((now t j).1 has).2 ((now t' j).1 has').2
  · exact heldBy.made ((now t j).1 has).2

theorem NamedBy.stays {use : Option (Bytes × Nat)} (namedBy : l.NamedBy uses) (same : uses u = use)
    (locks : l'.locks = l.locks) (made : l'.made = l.made) : l'.NamedBy (Function.update uses u use) := by
  subst same
  rw [Function.update_eq_self]
  refine ⟨fun mine => ?_, fun found => ?_, fun found found' => ?_, fun found => ?_⟩
  all_goals rw [locks] at *
  · exact namedBy.used mine
  · exact namedBy.entry found
  · exact namedBy.once found found'
  · rw [made]
    exact namedBy.made found

theorem NamedBy.enter (namedBy : l.NamedBy uses) (idle : uses u = none) :
    (l.enter name).1.NamedBy (Function.update uses u (some (name, (l.enter name).2))) := by
  have there := l.enter_lookup name
  have elsewhere {other : Bytes} (differs : other ≠ name) := l.enter_lookup_of_ne differs
  refine ⟨fun {t n j} mine => ?_, fun {n j} found => ?_, fun {n n' j} found found' => ?_, fun {n j} found => ?_⟩
  · rcases Function.update_cases uses u (some (name, (l.enter name).2)) t with ⟨_, changed⟩ | ⟨_, same⟩
    · cases changed.symm.trans mine
      exact there
    · exact enter_lookup_of_found (namedBy.used (same.symm.trans mine))
  · by_cases same : n = name
    · subst same
      cases there.symm.trans found
      exact ⟨u, Function.update_self ..⟩
    · obtain ⟨t, mine⟩ := namedBy.entry ((elsewhere same).symm.trans found)
      have differs : t ≠ u := by
        intro this
        subst this
        cases idle.symm.trans mine
      exact ⟨t, (Function.update_of_ne differs ..).trans mine⟩
  · exact enter_once namedBy.once namedBy.made found found'
  · exact enter_lookup_made namedBy.made found

/-- A thread leaves, and another one stays. -/
theorem NamedBy.leave (namedBy : l.NamedBy uses) (mine : uses u = some (name, i)) {next : User} (differs : next ≠ u)
    (stays : uses next = some (name, i)) : l.NamedBy (Function.update uses u none) := by
  refine ⟨fun {t n j} now => ?_, fun {n j} found => ?_, namedBy.once, namedBy.made⟩
  · rcases Function.update_cases uses u none t with ⟨_, changed⟩ | ⟨_, same⟩
    · cases changed.symm.trans now
    · exact namedBy.used (same.symm.trans now)
  · obtain ⟨t, there⟩ := namedBy.entry found
    by_cases same : t = u
    · subst same
      cases mine.symm.trans there
      exact ⟨next, (Function.update_of_ne differs ..).trans stays⟩
    · exact ⟨t, (Function.update_of_ne same ..).trans there⟩

/-- The last thread leaves, and the name is deleted. -/
theorem NamedBy.erase (namedBy : l.NamedBy uses) (mine : uses u = some (name, i))
    (last : ∀ t, uses t = some (name, i) → t = u) :
    { l with locks := l.locks.erase name }.NamedBy (Function.update uses u none) := by
  have older {n j} (now : (l.locks.erase name).lookup n = some j) : n ≠ name ∧ l.locks.lookup n = some j := by
    by_cases same : n = name
    · subst same
      simp at now
    · exact ⟨same, by rwa [Finmap.lookup_erase_ne same] at now⟩
  refine ⟨fun {t n j} now => ?_, fun {n j} found => ?_, fun found found' =>
    namedBy.once (older found).2 (older found').2, fun found => namedBy.made (older found).2⟩
  · rcases Function.update_cases uses u none t with ⟨_, changed⟩ | ⟨differs, same⟩
    · cases changed.symm.trans now
    · have before := same.symm.trans now
      have others : n ≠ name := by
        intro this
        subst this
        cases (namedBy.used mine).symm.trans (namedBy.used before)
        exact differs (last t before)
      exact (Finmap.lookup_erase_ne others).trans (namedBy.used before)
  · obtain ⟨others, before⟩ := older found
    obtain ⟨t, there⟩ := namedBy.entry before
    have differs : t ≠ u := by
      intro this
      subst this
      cases mine.symm.trans there
      exact others rfl
    exact ⟨t, (Function.update_of_ne differs ..).trans there⟩

/-! What the users do. -/

theorem Used.set (waits : l'.CountsWaits (Function.update (LockRole.waits ∘ roles) u role.waits))
    (holds : l'.HeldBy (Function.update (LockRole.holds ∘ roles) u role.holds))
    (uses : l'.NamedBy (Function.update (LockRole.uses ∘ roles) u role.uses)) :
    l'.Used (Function.update roles u role) := by
  rw [← Function.comp_update] at waits holds uses
  exact ⟨waits, holds, uses⟩

section

variable (used : l.Used roles)
include used

theorem Used.stays (same : roles u = role) : l.Used (Function.update roles u role) := by
  rwa [← same, Function.update_eq_self]

/-- A user passes its role on. -/
theorem Used.pass (mine : roles u = role) (idle : roles v = .none) :
    l.Used (Function.update (Function.update roles u .none) v role) := by
  have swapped : Function.update (Function.update roles u .none) v role = roles ∘ Equiv.swap u v := by
    funext w
    rw [Function.comp_apply, Equiv.swap_apply_def]
    by_cases last : w = v
    · subst last
      by_cases same : w = u
      · subst same
        simp [mine]
      · simp [same, mine]
    · by_cases first : w = u
      · subst first
        simp [last, idle]
      · simp [last, first]
  rw [swapped]
  exact used.rename _

theorem Used.enter (name : Bytes) (idle : roles u = .none) :
    (l.enter name).1.Used (Function.update roles u (.entered name (l.enter name).2)) := by
  have unmade (v : User) : (LockRole.waits ∘ roles) v ≠ some l.made := by
    intro waiting
    obtain ⟨_, _, mine⟩ := LockRole.calls_of_waits waiting
    exact Nat.lt_irrefl _ (used.uses.made (used.uses.used mine))
  exact .set (used.waits.enter unmade (congrArg LockRole.waits idle))
    (used.holds.enter (congrArg LockRole.holds idle))
    (used.uses.enter (congrArg LockRole.uses idle))

theorem Used.acquire (entered : roles u = .entered name i) (acquired : l.acquire i = some l') :
    l'.Used (Function.update roles u (.acquired name i)) := by
  have made : i < l.made := used.uses.made (used.uses.used (congrArg LockRole.uses entered))
  have held := used.holds.acquire (congrArg LockRole.holds entered) made acquired
  obtain ⟨_, rfl⟩ := acquire_eq acquired
  exact .set (used.waits.stays ((congrArg LockRole.waits entered).trans rfl) (setCtr_same (by rfl))) held
    (used.uses.stays ((congrArg LockRole.uses entered).trans rfl) rfl rfl)

theorem Used.dec (acquired : roles u = .acquired name i) :
    (l.dec i).Used (Function.update roles u (.inside name i)) :=
  .set (used.waits.dec (congrArg LockRole.waits acquired))
    (used.holds.stays ((congrArg LockRole.holds acquired).trans rfl) (setCtr_same (by rfl)) le_rfl)
    (used.uses.stays ((congrArg LockRole.uses acquired).trans rfl) rfl rfl)

/-- A user calls `unlock`. The name stays exactly if another one waits for it. -/
theorem Used.leave (few : ∀ W : Finset User, (∀ v ∈ W, ∃ i, (roles v).calls = some (name, i)) → W.card < 2 ^ 32)
    (inside : roles u = .inside name i) {j : Nat} (found : l.unlockLook name = some (l', j)) :
    j = i ∧ l'.Used (Function.update roles u (.releasing i)) := by
  have mine : (LockRole.uses ∘ roles) u = some (name, i) := congrArg LockRole.uses inside
  rw [unlockLook_eq (fun i there => (used.few few there).1) fun i there => (used.few few there).2] at found
  obtain ⟨there, rfl⟩ := unlockFind_eq found
  cases (used.uses.used mine).symm.trans there
  refine ⟨rfl, .set (used.waits.stays ((congrArg LockRole.waits inside).trans rfl) fun _ => rfl)
    (used.holds.stays ((congrArg LockRole.holds inside).trans rfl) (fun _ => rfl) le_rfl) ?_⟩
  by_cases zero : (l.ctrs i).waiters = 0
  · rw [if_pos zero]
    refine used.uses.erase mine fun v other => ?_
    rcases LockRole.uses_cases other with ⟨_, waiting⟩ | has
    · exact absurd waiting (used.waits.zero.1 zero v)
    · exact used.holds.alone (congrArg LockRole.holds inside) (congrArg LockRole.holds has)
  · rw [if_neg zero]
    rw [used.waits.zero] at zero
    push Not at zero
    obtain ⟨next, waiting⟩ := zero
    obtain ⟨name', _, other⟩ := LockRole.calls_of_waits waiting
    obtain rfl := used.uses.once (used.uses.used mine) (used.uses.used other)
    have differs : next ≠ u := by
      intro this
      subst this
      cases waiting.symm.trans (congrArg LockRole.waits inside)
    exact used.uses.leave mine differs other

theorem Used.release (releasing : roles u = .releasing i) (unlocked : l.unlockMutex i = some l') :
    l'.Used (Function.update roles u .none) := by
  obtain ⟨_, rfl⟩ := unlockMutex_eq unlocked
  exact .set (used.waits.stays ((congrArg LockRole.waits releasing).trans rfl) (setCtr_same (by rfl)))
    (used.holds.release (congrArg LockRole.holds releasing))
      (used.uses.stays ((congrArg LockRole.uses releasing).trans rfl) rfl rfl)

end

end Locker

end Olric
