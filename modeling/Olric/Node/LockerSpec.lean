import Olric.Lib.Transitions
import Olric.Node.Commands

namespace Olric

namespace Locker

variable {l l' : Locker} {name key other : Bytes} {i : Nat}

theorem find_eq (l : Locker) (key : Bytes) :
    (∃ i, l.locks.lookup key = some i ∧ l.find key = (l, i)) ∨ l.locks.lookup key = none ∧ l.find key =
      ({ l.setCtr l.made ⟨false, 0, 0⟩ with locks := l.locks.insert key l.made, made := l.made + 1 }, l.made) := by
  unfold find
  split
  next i found => exact .inl ⟨i, found, rfl⟩
  next none => exact .inr ⟨none, rfl⟩

theorem find_snd_lookup (l : Locker) (key : Bytes) : (l.find key).1.locks.lookup key = some (l.find key).2 := by
  rcases l.find_eq key with ⟨i, found, eq⟩ | ⟨_, eq⟩
  · rw [eq, found]
  · rw [eq]
    exact Finmap.lookup_insert _

theorem find_lookup_of_ne (l : Locker) (differs : other ≠ key) :
    (l.find key).1.locks.lookup other = l.locks.lookup other := by
  rcases l.find_eq key with ⟨i, _, eq⟩ | ⟨_, eq⟩
  · rw [eq]
  · rw [eq]
    exact Finmap.lookup_insert_of_ne _ differs

theorem acquire_eq (acquired : l.acquire i = some l') :
    (l.ctrs i).held = false ∧ l' = l.setCtr i { l.ctrs i with held := true } := by
  unfold acquire at acquired
  split at acquired
  · cases acquired
  next free =>
    cases acquired
    exact ⟨by simpa using free, rfl⟩

theorem unlock_eq {ok : Bool} (unlocked : l.unlock key = some (l', ok)) :
    (l.locks.lookup key = none ∧ l' = l ∧ ok = false) ∨ ∃ i, l.locks.lookup key = some i ∧
      (l.ctrs i).held = true ∧ ok = true ∧
      l' = { l.setCtr i { l.ctrs i with held := false } with
        locks := if (l.ctrs i).waiters = 0 then l.locks.erase key else l.locks
        closed := Function.update l.closed (l.ctrs i).done true } := by
  unfold unlock at unlocked
  split at unlocked
  next none =>
    cases unlocked
    exact .inl ⟨none, rfl, rfl⟩
  next i found =>
    dsimp only at unlocked
    split at unlocked
    next held =>
      cases unlocked
      exact .inr ⟨i, found, held, rfl, rfl⟩
    · cases unlocked

/-- What a change of one counter keeps of it stays the same for all of them. -/
theorem setCtr_same {α : Type} {f : LockCtr → α} {ctr : LockCtr} (same : f ctr = f (l.ctrs i)) (j : Nat) :
    f ((l.setCtr i ctr).ctrs j) = f (l.ctrs j) := by
  rcases Function.update_cases l.ctrs i ctr j with ⟨rfl, changed⟩ | ⟨_, kept⟩
  · exact (congrArg f changed).trans same
  · exact congrArg f kept

theorem enter_lookup (l : Locker) (name : Bytes) : (l.enter name).1.locks.lookup name = some (l.enter name).2 :=
  l.find_snd_lookup name

theorem enter_lookup_of_ne {other : Bytes} (l : Locker) (differs : other ≠ name) :
    (l.enter name).1.locks.lookup other = l.locks.lookup other :=
  l.find_lookup_of_ne differs

/-- One more waiter of a lock that is there, which gets a new channel. -/
theorem enter_found (found : l.locks.lookup name = some i) : l.enter name =
    ({ l.setCtr i { l.ctrs i with waiters := (l.ctrs i).waiters + 1, done := l.channels } with channels :=
      l.channels + 1 }, i) := by
  simp only [enter, find, found]

/-- A new lock for a name that has none. -/
theorem enter_new (missing : l.locks.lookup name = none) :
    l.enter name = ({ l.setCtr l.made ⟨false, 1, l.channels⟩ with
    locks := l.locks.insert name l.made, made := l.made + 1, channels := l.channels + 1 }, l.made) := by
  simp [enter, find, missing, setCtr]

/-- A name that is there keeps its lock, and another one gets the next. -/
theorem enter_cases (l : Locker) (name : Bytes) :
    l.locks.lookup name = some (l.enter name).2 ∧ (l.enter name).1.made = l.made ∨
      l.locks.lookup name = none ∧ (l.enter name).2 = l.made ∧ (l.enter name).1.made = l.made + 1 := by
  cases found : l.locks.lookup name with
  | none =>
    rw [enter_new found]
    exact .inr ⟨rfl, rfl, rfl⟩
  | some i =>
    rw [enter_found found]
    exact .inl ⟨rfl, rfl⟩

theorem enter_held (l : Locker) (name : Bytes) (unmade : (l.ctrs l.made).held = false) (j : Nat) :
    ((l.enter name).1.ctrs j).held = (l.ctrs j).held := by
  cases found : l.locks.lookup name with
  | none =>
    rw [enter_new found]
    exact setCtr_same unmade.symm j
  | some i =>
    rw [enter_found found]
    exact setCtr_same (by rfl) j

/-- One more waiter; a new lock has no others. -/
theorem enter_waiters (l : Locker) (name : Bytes) (unmade : (l.ctrs l.made).waiters = 0) (j : Nat) :
    ((l.enter name).1.ctrs j).waiters = (l.ctrs j).waiters + if some (l.enter name).2 = some j then 1 else 0 := by
  cases found : l.locks.lookup name with
  | none =>
    rw [enter_new found]
    rcases Function.update_cases l.ctrs l.made ⟨false, 1, l.channels⟩ j with ⟨rfl, _⟩ | ⟨differs, _⟩
    · simp [setCtr, unmade]
    · simp [setCtr, differs, Ne.symm differs]
  | some i =>
    rw [enter_found found]
    by_cases same : j = i
    · subst same
      simp [setCtr]
    · simp [setCtr, same, Ne.symm same]

theorem enter_lookup_of_found (before : l.locks.lookup other = some i) :
    (l.enter name).1.locks.lookup other = some i := by
  by_cases same : other = name
  · subst same
    rcases l.enter_cases other with ⟨found, _⟩ | ⟨missing, _⟩
    · rw [enter_lookup, ← found, before]
    · cases missing.symm.trans before
  · rwa [l.enter_lookup_of_ne same]

/-- The lock of the name is the one that it had, or a new one, so two names still have two locks. -/
theorem enter_once {name' : Bytes}
    (once : ∀ {name name' i}, l.locks.lookup name = some i → l.locks.lookup name' = some i → name' = name)
    (made : ∀ {name i}, l.locks.lookup name = some i → i < l.made)
    (found : (l.enter name).1.locks.lookup other = some i)
    (found' : (l.enter name).1.locks.lookup name' = some i) : name' = other := by
  have apart {n} (differs : n ≠ name) : (l.enter name).1.locks.lookup n ≠ some (l.enter name).2 := by
    rw [l.enter_lookup_of_ne differs]
    intro before
    rcases l.enter_cases name with ⟨there, _⟩ | ⟨_, new, _⟩
    · exact differs (once there before)
    · rw [new] at before
      exact Nat.lt_irrefl _ (made before)
  by_cases same : other = name
  · subst same
    by_contra differs
    cases (l.enter_lookup other).symm.trans found
    exact apart differs found'
  · by_cases same' : name' = name
    · subst same'
      cases (l.enter_lookup name').symm.trans found'
      exact absurd found (apart same)
    · exact once ((l.enter_lookup_of_ne same).symm.trans found) ((l.enter_lookup_of_ne same').symm.trans found')

theorem enter_made (l : Locker) (name : Bytes) : l.made ≤ (l.enter name).1.made := by
  rcases l.enter_cases name with ⟨_, made⟩ | ⟨_, _, made⟩ <;> omega

theorem enter_lookup_made (made : ∀ {name i}, l.locks.lookup name = some i → i < l.made)
    (found : (l.enter name).1.locks.lookup other = some i) : i < (l.enter name).1.made := by
  by_cases same : other = name
  · subst same
    cases (l.enter_lookup other).symm.trans found
    rcases l.enter_cases other with ⟨before, _⟩ | ⟨_, new, next⟩
    · exact Nat.lt_of_lt_of_le (made before) (l.enter_made other)
    · omega
  · exact Nat.lt_of_lt_of_le (made ((l.enter_lookup_of_ne same).symm.trans found)) (l.enter_made name)

theorem enter_closed (l : Locker) (name : Bytes) : (l.enter name).1.closed = l.closed := by
  cases found : l.locks.lookup name with
  | none => rw [enter_new found]; rfl
  | some i => rw [enter_found found]; rfl

section Waits

variable {User : Type} {waits : User → Option Nat}

/-- The counter of a lock is the number of the threads that wait for it. -/
def CountsWaits (l : Locker) (waits : User → Option Nat) : Prop :=
  ∀ i, ∃ W : Finset User, (∀ u, u ∈ W ↔ waits u = some i) ∧ (l.ctrs i).waiters = W.card

theorem CountsWaits.zero (counts : l.CountsWaits waits) : (l.ctrs i).waiters = 0 ↔ ∀ u, waits u ≠ some i := by
  obtain ⟨W, mem, card⟩ := counts i
  rw [card, Int.natCast_eq_zero, Finset.card_eq_zero, Finset.eq_empty_iff_forall_notMem]
  exact forall_congr' fun u => not_congr (mem u)

variable [DecidableEq User] {u : User}

theorem CountsWaits.update (counts : l.CountsWaits waits) (u : User) (lock : Option Nat)
    (waiters : ∀ i, (l'.ctrs i).waiters + (if waits u = some i then 1 else 0) =
      (l.ctrs i).waiters + if lock = some i then 1 else 0) : l'.CountsWaits (Function.update waits u lock) := by
  intro i
  obtain ⟨W, mem, card⟩ := counts i
  obtain ⟨W', mem', same, more, less⟩ := Function.exists_card_update waits (· = some i) mem u lock
  refine ⟨W', mem', ?_⟩
  have change := waiters i
  by_cases now : lock = some i <;> by_cases before : waits u = some i
  · have := same (iff_of_true now before)
    simp only [now, before, if_true] at change
    omega
  · have := more now before
    simp only [now, before, if_true, if_false] at change
    omega
  · have := less now before
    simp only [now, before, if_true, if_false] at change
    omega
  · have := same (iff_of_false now before)
    simp only [now, before, if_false] at change
    omega

theorem CountsWaits.stays {lock : Option Nat} (counts : l.CountsWaits waits) (same : waits u = lock)
    (waiters : ∀ i, (l'.ctrs i).waiters = (l.ctrs i).waiters) : l'.CountsWaits (Function.update waits u lock) := by
  refine counts.update u lock fun i => ?_
  rw [waiters, same]

theorem CountsWaits.enter (counts : l.CountsWaits waits) (unmade : ∀ u, waits u ≠ some l.made)
    (idle : waits u = none) :
    (l.enter name).1.CountsWaits (Function.update waits u (some (l.enter name).2)) := by
  refine counts.update u _ fun i => ?_
  rw [l.enter_waiters name (counts.zero.2 unmade), idle]
  simp

theorem CountsWaits.dec (counts : l.CountsWaits waits) (waiting : waits u = some i) :
    (l.dec i).CountsWaits (Function.update waits u none) := by
  refine counts.update u _ fun j => ?_
  by_cases same : j = i
  · subst same
    simp [Locker.dec, setCtr, waiting]
  · simp [Locker.dec, setCtr, waiting, same, Ne.symm same]

end Waits

/-- The lock that each goroutine is counted for as a waiter. A lock that is held or waited for has
its name, and no other. -/
structure Counted (l : Locker) (waits : Tid → Option (Bytes × Nat)) : Prop where
  waiters : l.CountsWaits (Option.map Prod.snd ∘ waits)
  waiting : ∀ {tid key i}, waits tid = some (key, i) → l.locks.lookup key = some i
  held : ∀ {i}, (l.ctrs i).held = true → ∃ key, l.locks.lookup key = some i
  named : ∀ {key key' i}, l.locks.lookup key = some i → l.locks.lookup key' = some i → key' = key
  made : ∀ {key i}, l.locks.lookup key = some i → i < l.made

variable {waits : Tid → Option (Bytes × Nat)} {tid : Tid}

theorem newLocker_counted : newLocker.Counted fun _ => none where
  waiters _ := ⟨∅, by simp, rfl⟩
  waiting := nofun
  held := nofun
  named found := by simp [newLocker] at found
  made found := by simp [newLocker] at found

theorem Counted.waits_snd (waiting : waits tid = some (key, i)) : (Option.map Prod.snd ∘ waits) tid = some i := by
  rw [Function.comp_apply, waiting, Option.map_some]

/-- One more goroutine waits. -/
theorem Counted.enter (counted : l.Counted waits) (key : Bytes) (idle : waits tid = none) :
    (l.enter key).1.Counted (Function.update waits tid (some (key, (l.enter key).2))) := by
  have unmade (t : Tid) : (Option.map Prod.snd ∘ waits) t ≠ some l.made := by
    intro now
    obtain ⟨⟨key', _⟩, waiting, rfl⟩ := Option.map_eq_some_iff.1 now
    exact Nat.lt_irrefl _ (counted.made (counted.waiting waiting))
  have free : (l.ctrs l.made).held = false := by
    rw [Bool.eq_false_iff]
    intro held
    obtain ⟨key', found⟩ := counted.held held
    exact Nat.lt_irrefl _ (counted.made found)
  refine { waiters := ?_, waiting := fun {t key' j} waiting => ?_, held := fun {j} held => ?_,
           named := fun found found' => enter_once counted.named counted.made found found',
           made := fun {key' j} found => ?_ }
  · rw [Function.comp_update]
    exact counted.waiters.enter unmade (congrArg (Option.map Prod.snd) idle)
  · rcases Function.update_cases waits tid (some (key, (l.enter key).2)) t with ⟨_, changed⟩ | ⟨_, kept⟩
    · cases changed.symm.trans waiting
      exact l.enter_lookup key
    · exact enter_lookup_of_found (counted.waiting (kept.symm.trans waiting))
  · rw [l.enter_held key free] at held
    obtain ⟨key', found⟩ := counted.held held
    exact ⟨key', enter_lookup_of_found found⟩
  · exact enter_lookup_made counted.made found

/-- Changes of one lock that are not about its waiters. -/
theorem Counted.setCtr {ctr : LockCtr} (counted : l.Counted waits) (waiters : ctr.waiters = (l.ctrs i).waiters)
    (held : ctr.held = true → ∃ key, l.locks.lookup key = some i) : (l.setCtr i ctr).Counted waits where
  waiters j := by
    obtain ⟨W, mem, card⟩ := counted.waiters j
    exact ⟨W, mem, by rw [setCtr_same waiters, card]⟩
  waiting := counted.waiting
  held {j} now := by
    by_cases this : j = i
    · subst this
      exact held (by simpa [Locker.setCtr] using now)
    · exact counted.held (by simpa [Locker.setCtr, this] using now)
  named := counted.named
  made := counted.made

/-- A goroutine gets a lock that it waits for. -/
theorem Counted.acquire (counted : l.Counted waits) (acquired : l.acquire i = some l')
    (waiting : waits tid = some (key, i)) : l'.Counted waits := by
  obtain ⟨_, rfl⟩ := acquire_eq acquired
  exact counted.setCtr rfl fun _ => ⟨key, counted.waiting waiting⟩

/-- A goroutine is not counted any more. -/
theorem Counted.dec (counted : l.Counted waits) (waiting : waits tid = some (key, i)) :
    (l.dec i).Counted (Function.update waits tid none) where
  waiters := by
    rw [Function.comp_update]
    exact counted.waiters.dec (waits_snd waiting)
  waiting {tid' key' j} now := by
    by_cases same : tid' = tid
    · subst same
      simp at now
    · exact counted.waiting (by simpa [same] using now)
  held now := counted.held ((setCtr_same (by rfl) _).symm.trans now)
  named := counted.named
  made := counted.made

/-- A lock keeps its name as long as somebody waits for it. -/
theorem Counted.unlock {ok : Bool} (counted : l.Counted waits) (unlocked : l.unlock key = some (l', ok)) :
    l'.Counted waits := by
  rcases unlock_eq unlocked with ⟨_, rfl, _⟩ | ⟨i, found, _, _, rfl⟩
  · exact counted
  · have free : (l.setCtr i { l.ctrs i with held := false }).Counted waits := counted.setCtr rfl nofun
    by_cases zero : (l.ctrs i).waiters = 0
    · have unawaited (tid : Tid) (key' : Bytes) (waiting : waits tid = some (key', i)) : False :=
        counted.waiters.zero.1 zero tid (Counted.waits_snd waiting)
      have kept {key' j} (before : l.locks.lookup key' = some j) (differs : j ≠ i) :
          (l.locks.erase key).lookup key' = some j := by
        rw [Finmap.lookup_erase_ne]
        · exact before
        · rintro rfl
          cases found.symm.trans before
          exact differs rfl
      have older {key' j} (now : (l.locks.erase key).lookup key' = some j) : l.locks.lookup key' = some j := by
        by_cases same : key' = key
        · subst same
          simp at now
        · rwa [Finmap.lookup_erase_ne same] at now
      rw [if_pos zero]
      refine { waiters := free.waiters, waiting := fun {tid key' j} waiting => kept (counted.waiting waiting) ?_,
               held := fun {j} held => ?_, named := fun found₁ found₂ => counted.named (older found₁) (older found₂),
               made := fun now => counted.made (older now) }
      · rintro rfl
        exact unawaited tid key' waiting
      · have differs : j ≠ i := by
          rintro rfl
          simp [Locker.setCtr] at held
        obtain ⟨key', before⟩ := free.held held
        exact ⟨key', kept before differs⟩
    · rw [if_neg zero]
      exact ⟨free.waiters, free.waiting, free.held, free.named, free.made⟩

end Locker

end Olric
