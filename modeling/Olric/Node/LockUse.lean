import Olric.Node.Grip
import Olric.Node.LockerSpec

namespace Olric

open Program

/-- The locks of one dmap that goroutines are counted for. -/
def waitsAt (waits : Tid → Option (Ref × Bytes × Nat)) (r : Ref) (tid : Tid) : Option (Bytes × Nat) :=
  (waits tid).bind fun w => if w.1 = r then some w.2 else none

section

variable {waits : Tid → Option (Ref × Bytes × Nat)} {tid : Tid} {r r' : Ref} {key : Bytes} {i : Nat}

theorem waitsAt_eq_some {w : Bytes × Nat} : waitsAt waits r tid = some w ↔ waits tid = some (r, w) := by
  unfold waitsAt
  cases waits tid with
  | none => simp
  | some w' =>
    obtain ⟨r', w'⟩ := w'
    by_cases same : r' = r
    · simp [same]
    · simp [same]

theorem waitsAt_update_self : waitsAt (Function.update waits tid (some (r, key, i))) r =
    Function.update (waitsAt waits r) tid (some (key, i)) := by
  funext other
  by_cases same : other = tid
  · subst same
    simp [waitsAt]
  · simp [waitsAt, same]

theorem waitsAt_update_none : waitsAt (Function.update waits tid none) r =
    Function.update (waitsAt waits r) tid none := by
  funext other
  by_cases same : other = tid
  · subst same
    simp [waitsAt]
  · simp [waitsAt, same]

/-- A goroutine that waits for locks of other dmaps, before and after. -/
theorem waitsAt_update_of_none {next : Option (Ref × Bytes × Nat)} (before : waitsAt waits r tid = none)
    (after : ∀ w, next ≠ some (r, w)) : waitsAt (Function.update waits tid next) r = waitsAt waits r := by
  funext other
  by_cases same : other = tid
  · subst same
    rw [before]
    cases now : waitsAt (Function.update waits other next) r other with
    | none => rfl
    | some w =>
      rw [waitsAt_eq_some, Function.update_self] at now
      exact absurd now (after w)
  · simp [waitsAt, same]

end

/-- How the lock that a goroutine is counted for changes by a command. -/
inductive Cmd.Waits : (c : Cmd) → c.Reply → Option (Ref × Bytes × Nat) → Option (Ref × Bytes × Nat) → Prop
  | enter {r key i} : Waits (.lockerEnter r key) i none (some (r, key, i))
  | acquire {r key i reply} : Waits (.lockerAcquire r i) reply (some (r, key, i)) (some (r, key, i))
  | dec {r key i reply} : Waits (.lockerDec r i) reply (some (r, key, i)) none
  | other {c reply w} (enters : ∀ r key, c ≠ .lockerEnter r key) (acquires : ∀ r i, c ≠ .lockerAcquire r i)
      (decs : ∀ r i, c ≠ .lockerDec r i) : Waits c reply w w

namespace Node

/-- The waiters of all locks are counted. -/
structure WaitersCounted (s : Node) (waits : Tid → Option (Ref × Bytes × Nat)) : Prop where
  counted : ∀ {r dm l}, s.dmaps r = some dm → dm.locker = some l → l.Counted (waitsAt waits r)
  known : ∀ {tid r w}, waits tid = some (r, w) → ∃ dm l, s.dmaps r = some dm ∧ dm.locker = some l

variable {tid : Tid} {s s' : Node} {c : Cmd} {reply : c.Reply} {waits : Tid → Option (Ref × Bytes × Nat)}
  {next : Option (Ref × Bytes × Nat)}

/-- A dmap with a locker keeps one. -/
theorem exec_locker {r : Ref} {dm : DMap} {l : Locker} (run : s.exec tid c reply s') (found : s.dmaps r = some dm)
    (locker : dm.locker = some l) : ∃ dm' l', s'.dmaps r = some dm' ∧ dm'.locker = some l' := by
  obtain ⟨dm', found', change⟩ := exec_change run found
  refine ⟨dm', ?_⟩
  cases change with
  | other | lock | unlock | put | delete | close | oplog => exact ⟨l, found', locker⟩
  | setLocker | enter | acquire | dec | release => exact ⟨_, found', rfl⟩

theorem WaitersCounted.exec (counted : s.WaitersCounted waits) (run : s.exec tid c reply s')
    (step : c.Waits reply (waits tid) next)
    (fresh : ∀ r, c = .setLocker r → ∀ tid' w, waits tid' ≠ some (r, w)) :
    s'.WaitersCounted (Function.update waits tid next) := by
  constructor
  · intro r dm' l' found' locker'
    rcases exec_origin run found' with ⟨dm, found, change⟩ | ⟨_, _, rfl, _⟩
    swap
    · cases locker'
    have old {l} (locker : dm.locker = some l) := counted.counted found locker
    -- Commands that do not change the locker of the dmap.
    have apart (same : dm.locker = some l') (enters : ∀ key, c ≠ .lockerEnter r key) (decs : ∀ i, c ≠ .lockerDec r i)
        (acquires : ∀ i, c ≠ .lockerAcquire r i) : l'.Counted (waitsAt (Function.update waits tid next) r) := by
      have unchanged : waitsAt (Function.update waits tid next) r = waitsAt waits r := by
        generalize before : waits tid = w at step
        cases step with
        | @enter r₁ key i =>
          refine waitsAt_update_of_none (by simp [waitsAt, before]) ?_
          rintro w ⟨⟩
          exact enters key rfl
        | @acquire r₁ key i =>
          rw [← before, Function.update_eq_self]
        | @dec r₁ key i =>
          have other : r₁ ≠ r := by
            rintro rfl
            exact decs i rfl
          exact waitsAt_update_of_none (by simp [waitsAt, before, other]) nofun
        | other => rw [← before, Function.update_eq_self]
      rw [unchanged]
      exact old same
    cases change with
    | other unwritten =>
      refine apart locker' ?_ ?_ ?_
      · rintro key rfl
        exact unwritten rfl
      · rintro i rfl
        exact unwritten rfl
      · rintro i rfl
        exact unwritten rfl
    | oplog writes =>
      refine apart locker' ?_ ?_ ?_ <;>
      · rintro _ rfl
        rcases writes with ⟨_, _, wrong⟩ | wrong | ⟨_, wrong⟩ | ⟨_, _, wrong⟩ <;> cases wrong
    | lock | unlock | put | delete | close => exact apart locker' nofun nofun nofun
    | setLocker =>
      cases locker'
      have nobody : waitsAt (Function.update waits tid next) r = fun _ => none := by
        have unchanged : next = waits tid := by cases step; rfl
        rw [unchanged, Function.update_eq_self]
        funext tid'
        cases now : waitsAt waits r tid' with
        | none => rfl
        | some w => exact absurd (waitsAt_eq_some.1 now) (fresh r rfl tid' w)
      rw [nobody]
      exact Locker.newLocker_counted
    | @enter l key locker =>
      cases locker'
      generalize before : waits tid = w at step
      cases step with
      | enter =>
        rw [waitsAt_update_self]
        exact (old locker).enter key (by simp [waitsAt, before])
      | other enters => exact absurd rfl (enters _ _)
    | @acquire l l₁ i locker acquired =>
      cases locker'
      generalize before : waits tid = w at step
      cases step with
      | acquire =>
        rw [← before, Function.update_eq_self]
        exact (old locker).acquire acquired (waitsAt_eq_some.2 before)
      | other _ acquires => exact absurd rfl (acquires _ _)
    | @dec l i locker =>
      cases locker'
      generalize before : waits tid = w at step
      cases step with
      | dec =>
        rw [waitsAt_update_none]
        exact (old locker).dec (waitsAt_eq_some.2 before)
      | other _ _ decs => exact absurd rfl (decs _ _)
    | @release l l₁ key ok locker unlocked =>
      cases locker'
      have unchanged : next = waits tid := by cases step; rfl
      rw [unchanged, Function.update_eq_self]
      exact (old locker).unlock unlocked
  · intro tid' r w now
    have kept {tid₁} (before : waits tid₁ = some (r, w)) : ∃ dm l, s'.dmaps r = some dm ∧ dm.locker = some l := by
      obtain ⟨dm, l, found, locker⟩ := counted.known before
      exact exec_locker run found locker
    by_cases same : tid' = tid
    · subst same
      rw [Function.update_self] at now
      subst now
      generalize before : waits tid' = w' at step
      cases step with
      | enter =>
        obtain ⟨dm, l, found, locker, _, rfl⟩ := run
        exact ⟨_, _, setDMap_found.2 (.inl ⟨rfl, rfl⟩), rfl⟩
      | acquire => exact kept before
      | other => exact kept before
    · exact kept (by simpa [same] using now)

/-- The dmap has a lock of the key. -/
def HasLock (s : Node) (r : Ref) (key : Bytes) (i : Nat) : Prop :=
  ∃ dm l, s.dmaps r = some dm ∧ dm.locker = some l ∧ l.locks.lookup key = some i

/-- Locks are made by those who want to take them. -/
theorem exec_hasLock_origin {r : Ref} {key : Bytes} {i : Nat} (run : s.exec tid c reply s')
    (has : s'.HasLock r key i) : s.HasLock r key i ∨ c = .lockerEnter r key := by
  obtain ⟨dm', l', found', locker', there⟩ := has
  rcases exec_origin run found' with ⟨dm, found, change⟩ | ⟨_, _, rfl, _⟩
  swap
  · cases locker'
  have old {l} (locker : dm.locker = some l) (before : l.locks.lookup key = some i) : s.HasLock r key i ∨
      c = .lockerEnter r key :=
    .inl ⟨dm, l, found, locker, before⟩
  cases change with
  | other | lock | unlock | put | delete | close | oplog => exact old locker' there
  | setLocker =>
    cases locker'
    simp [newLocker] at there
  | @enter l key' locker =>
    cases locker'
    by_cases same : key = key'
    · exact .inr (by rw [same])
    · refine .inl ⟨dm, l, found, locker, ?_⟩
      rw [← l.find_lookup_of_ne same]
      exact there
  | @acquire l l₁ j locker acquired =>
    cases locker'
    obtain ⟨_, rfl⟩ := Locker.acquire_eq acquired
    exact .inl ⟨dm, l, found, locker, there⟩
  | @dec l j locker =>
    cases locker'
    exact .inl ⟨dm, l, found, locker, there⟩
  | @release l l₁ key' ok locker unlocked =>
    cases locker'
    refine .inl ⟨dm, l, found, locker, ?_⟩
    rcases Locker.unlock_eq unlocked with ⟨_, rfl, _⟩ | ⟨j, _, _, _, rfl⟩
    · exact there
    · dsimp only at there
      split at there
      · by_cases same : key = key'
        · subst same
          simp at there
        · rwa [Finmap.lookup_erase_ne same] at there
      · exact there

/-- Goroutines have what they think they have, and there are locks only in dmaps that have a name. -/
structure Lockable (s : Node) (grips : Tid → Grip) (waits : Tid → Option (Ref × Bytes × Nat)) : Prop where
  gripped : s.Gripped grips
  guarded : s.Guarded grips
  counted : s.WaitersCounted waits
  named : ∀ {r key i}, s.HasLock r key i → ∃ p name, s.Has p name r

namespace Lockable

variable {grips : Tid → Grip} (able : s.Lockable grips waits)
include able

theorem exec {grip : Grip} (run : s.exec tid c reply s') (after : Grip.After c reply (grips tid) grip)
    (step : c.Waits reply (waits tid) next)
    (stores : ∀ p name r, c = .store p name r → (grips tid).absent = some (p, name))
    (fresh : ∀ r, c = .setLocker r → (grips tid).fresh = some r)
    (enters : ∀ r key, c = .lockerEnter r key → ∃ p name, (grips tid).named = some (p, name, r))
    (stays : ∀ p name, c ≠ .remove p name) :
    s'.Lockable (Function.update grips tid grip) (Function.update waits tid next) := by
  have free (p : Place) (name : Bytes) (r : Ref) (stored : c = .store p name r) : (s.partition p).m.lookup name =
      none :=
    (able.guarded.absent (stores p name r stored)).2
  refine ⟨able.gripped.exec run after free fun p name removed => absurd removed (stays p name),
    able.guarded.exec run after stores, able.counted.exec run step ?_, fun {r key i} has => ?_⟩
  · rintro r set tid' ⟨key, i⟩ waiting
    obtain ⟨dm, l, found, locker⟩ := able.counted.known waiting
    obtain ⟨p, name, has⟩ :=
      able.named ⟨dm, l, found, locker, (able.counted.counted found locker).waiting (waitsAt_eq_some.2 waiting)⟩
    exact able.gripped.apart.unnamed (fresh r set) has
  · have there : ∃ p name, s.Has p name r := by
      rcases exec_hasLock_origin run has with before | rfl
      · exact able.named before
      · obtain ⟨p, name, mine⟩ := enters r key rfl
        exact ⟨p, name, able.gripped.named mine⟩
    obtain ⟨p, name, there⟩ := there
    refine ⟨p, name, exec_has run there (stays p name) ?_⟩
    rintro r' rfl
    cases (free p name r' rfl).symm.trans there

/-- A goroutine starts with a dmap that is there. -/
theorem start {p : Place} {name : Bytes} {r : Ref} (nothing : grips tid = {}) (has : s.Has p name r) :
    s.Lockable (Function.update grips tid { named := some (p, name, r) }) waits := by
  have same : (fun tid' => (Function.update grips tid { named := some (p, name, r) } tid').fresh) =
      fun tid' => (grips tid').fresh := by
    funext tid'
    by_cases here : tid' = tid
    · subst here
      simp [nothing]
    · simp [here]
  refine ⟨⟨by rw [same]; exact able.gripped.apart, fun {tid' p' name' r'} now => ?_, fun {tid' r'} now => ?_⟩,
    ⟨fun {tid' q} now => ?_, fun {tid' q name'} now => ?_⟩, able.counted, able.named⟩
  · rcases update_cases now with ⟨_, mine⟩ | ⟨_, theirs⟩
    · cases mine
      exact has
    · exact able.gripped.named theirs
  · rcases update_cases now with ⟨_, mine⟩ | ⟨_, theirs⟩
    · cases mine
    · exact able.gripped.locked theirs
  · rcases update_cases now with ⟨_, mine⟩ | ⟨_, theirs⟩
    · cases mine
    · exact able.guarded.inside theirs
  · rcases update_cases now with ⟨_, mine⟩ | ⟨differs, theirs⟩
    · cases mine
    · rw [Function.update_of_ne differs]
      exact able.guarded.absent theirs

end Lockable

end Node

/-- How far a goroutine has got that works with the locks of a dmap. -/
inductive LockStage
  | search (g : Search)
  | entered (r : Ref) (i : Nat)
  | acquired (r : Ref) (i : Nat)

/-- The questions about a lock to the routing table and to previous owners. -/
def Cmd.AsksLock (name key : Bytes) (c : Cmd) : Prop :=
  (∃ p, c = .owners p) ∨ ∃ dst req, c = .request dst req ∧
    (req = .findLock name key ∨ (∃ timeout, req = .lockPrev name key timeout) ∨ req = .unlockPrev name key)

/-- What is done with the locker of a dmap that has been found, apart from taking the lock. -/
def Cmd.UsesLock (key : Bytes) (r : Ref) (c : Cmd) : Prop :=
  c = .lockerCheck r key ∨ c = .lockerUnlock r key ∨ c = .unlockNotifier r key ∨
    (∃ channel timeout, c = .waitUnlock r channel timeout) ∨ ∃ timeout, c = .go (.waitLockForTimeout r key timeout)

/-- The commands of all operations on a lock. The three commands that take it follow each other. -/
def lockUse (p : Place) (name key : Bytes) : Discipline Cmd Cmd.Reply LockStage where
  allows
    | .search g, c => (searching p name).allows g c ∨ c.AsksLock name key ∨
      ∃ r, g = .found r ∧ (c.UsesLock key r ∨ c = .lockerEnter r key)
    | .entered r i, c => c = .lockerAcquire r i
    | .acquired r i, c => c = .lockerDec r i
  after
    | .search _, .lockerEnter r _, i => .entered r i
    | .search g, c, reply => .search ((searching p name).after g c reply)
    | .entered r i, _, _ => .acquired r i
    | .acquired r _, _, _ => .search (.found r)

/-- The goroutine is not about to get a lock. -/
def LockStage.Outside (g : LockStage) : Prop := ∃ g', g = .search g'

section

variable {cfg : Config} {p : Place} {name key : Bytes} {r : Ref} {hkey : UInt64} {timeout : Int64}

theorem getDMap_lockUse : (cfg.getDMap p name).Follows (lockUse p name key) (.search .start)
    fun dm g => g = .search (dm.elim .failed .found) := by
  refine (getDMap_searches.embed LockStage.search ?_).mono ?_
  · intro g c allowed
    refine ⟨.inl allowed, fun reply => ?_⟩
    cases g with
    | start | missing | inside | absent | leaving =>
      obtain rfl := allowed
      rfl
    | made r => rcases allowed with rfl | rfl | rfl | rfl <;> rfl
    | stored r => rcases allowed with rfl | rfl <;> rfl
    | found | failed => exact allowed.elim
  · rintro dm _ ⟨_, rfl, rfl⟩
    rfl

theorem lockerLock_lockUse : (lockerLock r key).Follows (lockUse p name key) (.search (.found r))
    fun _ g => g = .search (.found r) :=
  ⟨.inr (.inr ⟨r, rfl, .inr rfl⟩), fun _ => ⟨rfl, fun _ => ⟨rfl, fun _ => rfl⟩⟩⟩

theorem grantLock_lockUse : (grantLock r key timeout).Follows (lockUse p name key) (.search (.found r))
    fun _ g => g.Outside := by
  refine lockerLock_lockUse.bind ?_
  rintro _ _ rfl
  exact ⟨.inr (.inr ⟨r, rfl, .inl (.inr (.inr (.inr (.inr ⟨timeout, rfl⟩))))⟩), fun _ => ⟨_, rfl⟩⟩

theorem releaseLock_lockUse : (releaseLock r key).Follows (lockUse p name key) (.search (.found r))
    fun _ g => g.Outside := by
  refine ⟨.inr (.inr ⟨r, rfl, .inl (.inr (.inl rfl))⟩), fun ok => ?_⟩
  cases ok <;> exact ⟨_, rfl⟩

theorem waitLockForTimeout_lockUse :
    (waitLockForTimeout r key timeout).Follows (lockUse p name key) (.search (.found r))
    fun _ g => g.Outside := by
  refine ⟨.inr (.inr ⟨r, rfl, .inl (.inr (.inr (.inl rfl)))⟩), fun channel => ?_⟩
  refine ⟨.inr (.inr ⟨r, rfl, .inl (.inr (.inr (.inr (.inl ⟨channel, timeout, rfl⟩))))⟩), fun closed => ?_⟩
  cases closed with
  | true => exact ⟨_, rfl⟩
  | false => exact ⟨.inr (.inr ⟨r, rfl, .inl (.inr (.inl rfl))⟩), fun _ => ⟨_, rfl⟩⟩

/-- Looking for a lock changes nothing of what the goroutine has. -/
theorem findLockKey_lockUse {g : Search} (steady : g = .start ∨ g = .found r) :
    (cfg.findLockKey hkey name key).Follows (lockUse p name key) (.search g) fun _ g' => g' = .search g := by
  have stays (c : Cmd) (reply : c.Reply) (looks : (∃ p, c = .owners p) ∨ ∃ host req, c = .request host req) :
      (lockUse p name key).after (.search g) c reply = .search g := by
    rcases steady with rfl | rfl
    · rcases looks with ⟨_, rfl⟩ | ⟨_, _, rfl⟩ <;> rfl
    · rcases looks with ⟨_, rfl⟩ | ⟨_, _, rfl⟩ <;> rfl
  refine .steady (Config.findLockKey_only ?_ fun host => ?_)
  · exact ⟨.inr (.inl (.inl ⟨_, rfl⟩)), fun reply => stays _ reply (.inl ⟨_, rfl⟩)⟩
  · exact ⟨.inr (.inl (.inr ⟨host, _, rfl, .inl rfl⟩)), fun reply => stays _ reply (.inr ⟨host, _, rfl⟩)⟩

/-- Operations that look for the dmap first. -/
theorem withDMap_lockUse {rest : Option Ref → Prog Response} {answer : Response} (without : rest none = .ret answer)
    (found : ∀ r, (rest (some r)).Follows (lockUse p name key) (.search (.found r)) fun _ g => g.Outside) :
    ((cfg.getDMap p name).bind rest).Follows (lockUse p name key) (.search .start) fun _ g => g.Outside := by
  refine getDMap_lockUse.bind ?_
  rintro dm _ rfl
  cases dm with
  | none =>
    rw [without]
    exact ⟨_, rfl⟩
  | some r => exact found r

theorem lockKey_lockUse : (cfg.lockKey hkey name key timeout).Follows (lockUse (cfg.place false hkey) name key)
    (.search .start) fun _ g => g.Outside := by
  refine withDMap_lockUse rfl fun r => ⟨.inr (.inr ⟨r, rfl, .inl (.inl rfl)⟩), fun locked => ?_⟩
  cases locked with
  | true => exact grantLock_lockUse
  | false =>
    refine (findLockKey_lockUse (.inr rfl)).bind ?_
    rintro owner _ rfl
    cases owner with
    | none => exact ⟨_, rfl⟩
    | some owner =>
      dsimp only
      split
      · exact grantLock_lockUse
      · exact ⟨.inr (.inl (.inr ⟨owner, _, rfl, .inr (.inl ⟨timeout, rfl⟩)⟩)), fun _ => ⟨_, rfl⟩⟩

theorem unlockKey_lockUse : (cfg.unlockKey hkey name key).Follows (lockUse (cfg.place false hkey) name key)
    (.search .start) fun _ g => g.Outside := by
  refine (findLockKey_lockUse (r := 0) (.inl rfl)).bind ?_
  rintro owner _ rfl
  cases owner with
  | none => exact ⟨_, rfl⟩
  | some owner =>
    dsimp only
    split
    · exact withDMap_lockUse rfl fun r => releaseLock_lockUse
    · exact ⟨.inr (.inl (.inr ⟨owner, _, rfl, .inr (.inr rfl)⟩)), fun _ => ⟨_, rfl⟩⟩

theorem findLockOperation_lockUse :
    (cfg.findLockOperation hkey name key).Follows (lockUse (cfg.place false hkey) name key)
    (.search .start) fun _ g => g.Outside := by
  refine withDMap_lockUse rfl fun r => ⟨.inr (.inr ⟨r, rfl, .inl (.inl rfl)⟩), fun locked => ?_⟩
  cases locked <;> exact ⟨_, rfl⟩

theorem lockPrevOperation_lockUse : (cfg.lockPrevOperation hkey name key timeout).Follows
    (lockUse (cfg.place false hkey) name key) (.search .start) fun _ g => g.Outside :=
  withDMap_lockUse rfl fun _ => grantLock_lockUse

theorem unlockPrevOperation_lockUse : (cfg.unlockPrevOperation hkey name key).Follows
    (lockUse (cfg.place false hkey) name key) (.search .start) fun _ g => g.Outside :=
  withDMap_lockUse rfl fun _ => releaseLock_lockUse

end

/-- What a goroutine has that works with a lock. -/
def LockStage.grip (p : Place) (name : Bytes) : LockStage → Grip
  | .search g => g.grip p name
  | .entered r _ | .acquired r _ => { named := some (p, name, r) }

/-- The lock that a goroutine is counted for. -/
def LockStage.waits (key : Bytes) : LockStage → Option (Ref × Bytes × Nat)
  | .search _ => none
  | .entered r i | .acquired r i => some (r, key, i)

section

variable {p : Place} {name key : Bytes} {g : LockStage} {c : Cmd} {reply : c.Reply} {tid : Tid} {s s' : Node}

/-- Commands that are neither of the search nor take the lock leave a goroutine where it is. -/
theorem lockUse_stays {g : Search} (other : c.AsksLock name key ∨ ∃ r, c.UsesLock key r) :
    (lockUse p name key).after (.search g) c reply = .search g := by
  rcases other with (⟨q, rfl⟩ | ⟨dst, req, rfl, _⟩) | ⟨r, rfl | rfl | rfl | ⟨channel, timeout, rfl⟩ | ⟨timeout, rfl⟩⟩
    <;> cases g <;> rfl

theorem Search.grip_inside (g : Search) (q : Place) (name' : Bytes)
    (absent : (g.grip p name).absent = some (q, name')) : (g.grip p name).inside = some q := by
  cases g with
  | absent | made =>
    cases absent
    rfl
  | start | missing | inside | stored | leaving | found | failed => cases absent

theorem lockUse_other (other : c.AsksLock name key ∨ ∃ r, c.UsesLock key r) : (∀ p name r, c ≠ .store p name r) ∧
    (∀ r, c ≠ .unlock r) ∧ (∀ p, c ≠ .unlockPartition p) ∧ (∀ r, c ≠ .setLocker r) ∧
    (∀ r key, c ≠ .lockerEnter r key) ∧ (∀ r i, c ≠ .lockerAcquire r i) ∧ ∀ r i, c ≠ .lockerDec r i := by
  rcases other with (⟨q, rfl⟩ | ⟨dst, req, rfl, _⟩) | ⟨r, rfl | rfl | rfl | ⟨channel, timeout, rfl⟩ | ⟨timeout, rfl⟩⟩
    <;> exact ⟨nofun, nofun, nofun, nofun, nofun, nofun, nofun⟩

theorem searching_apart {g : Search} (allowed : (searching p name).allows g c) :
    (∀ r key, c ≠ .lockerEnter r key) ∧ (∀ r i, c ≠ .lockerAcquire r i) ∧ (∀ r i, c ≠ .lockerDec r i) ∧
      (∀ q name, c ≠ .remove q name) ∧ (∀ job, c ≠ .go job) ∧ ∀ r, c = .setLocker r → g = .made r := by
  cases g with
  | start | missing | inside | absent | leaving =>
    obtain rfl := allowed
    exact ⟨nofun, nofun, nofun, nofun, nofun, nofun⟩
  | made r =>
    rcases allowed with rfl | rfl | rfl | rfl
    · exact ⟨nofun, nofun, nofun, nofun, nofun, fun _ same => by cases same; rfl⟩
    all_goals exact ⟨nofun, nofun, nofun, nofun, nofun, nofun⟩
  | stored r => rcases allowed with rfl | rfl <;> exact ⟨nofun, nofun, nofun, nofun, nofun, nofun⟩
  | found | failed => exact allowed.elim

theorem lockUse_searches {g : Search} (allowed : (searching p name).allows g c) :
    (lockUse p name key).after (.search g) c reply = .search ((searching p name).after g c reply) := by
  obtain ⟨enters, _⟩ := searching_apart allowed
  cases c
  case lockerEnter => exact absurd rfl (enters _ _)
  all_goals rfl

/-- One command of an operation on a lock. -/
theorem lockUse_cases (allowed : (lockUse p name key).allows g c) :
    (∃ g', g = .search g' ∧ (searching p name).allows g' c) ∨
    (∃ g', g = .search g' ∧ (c.AsksLock name key ∨ ∃ r, g' = .found r ∧ c.UsesLock key r)) ∨
    (∃ r, g = .search (.found r) ∧ c = .lockerEnter r key) ∨
    (∃ r i, g = .entered r i ∧ c = .lockerAcquire r i) ∨ ∃ r i, g = .acquired r i ∧ c = .lockerDec r i := by
  cases g with
  | search g =>
    rcases allowed with searches | asks | ⟨r, rfl, uses | rfl⟩
    · exact .inl ⟨g, rfl, searches⟩
    · exact .inr (.inl ⟨g, rfl, .inl asks⟩)
    · exact .inr (.inl ⟨_, rfl, .inr ⟨r, rfl, uses⟩⟩)
    · exact .inr (.inr (.inl ⟨r, rfl, rfl⟩))
  | entered r i => exact .inr (.inr (.inr (.inl ⟨r, i, rfl, allowed⟩)))
  | acquired r i => exact .inr (.inr (.inr (.inr ⟨r, i, rfl, allowed⟩)))

theorem lockUse_grip (allowed : (lockUse p name key).allows g c) (run : s.exec tid c reply s') :
    Grip.After c reply (g.grip p name) (((lockUse p name key).after g c reply).grip p name) := by
  rcases lockUse_cases allowed with ⟨g, rfl, searches⟩ | ⟨g, rfl, other⟩ | ⟨r, rfl, rfl⟩ | ⟨r, i, rfl, rfl⟩ | ⟨r,
    i, rfl, rfl⟩
  · rw [lockUse_searches searches]
    exact searching_grip searches run
  · have other : c.AsksLock name key ∨ ∃ r, c.UsesLock key r := other.imp id fun ⟨r, _, uses⟩ => ⟨r, uses⟩
    rw [lockUse_stays other]
    obtain ⟨stores, unlocks, leaves, _⟩ := lockUse_other other
    exact .stay stores unlocks leaves g.grip_inside
  · exact .stay nofun nofun nofun nofun
  · exact .stay nofun nofun nofun nofun
  · exact .stay nofun nofun nofun nofun

theorem lockUse_waits (allowed : (lockUse p name key).allows g c) :
    c.Waits reply (g.waits key) (((lockUse p name key).after g c reply).waits key) := by
  rcases lockUse_cases allowed with ⟨g, rfl, searches⟩ | ⟨g, rfl, other⟩ | ⟨r, rfl, rfl⟩ | ⟨r, i, rfl, rfl⟩ | ⟨r,
    i, rfl, rfl⟩
  · obtain ⟨enters, acquires, decs, _⟩ := searching_apart searches
    rw [lockUse_searches searches]
    exact .other enters acquires decs
  · have other : c.AsksLock name key ∨ ∃ r, c.UsesLock key r := other.imp id fun ⟨r, _, uses⟩ => ⟨r, uses⟩
    rw [lockUse_stays other]
    obtain ⟨_, _, _, _, enters, acquires, decs⟩ := lockUse_other other
    exact .other enters acquires decs
  · exact .enter
  · exact .acquire
  · exact .dec

/-- A goroutine gives a locker to a dmap that it has made. -/
theorem lockUse_setLocker {r : Ref} (allowed : (lockUse p name key).allows g (.setLocker r)) :
    g = .search (.made r) := by
  rcases lockUse_cases allowed with ⟨g, rfl, searches⟩ | ⟨g, rfl, other⟩ | ⟨_, _, wrong⟩ | ⟨_, _, _, wrong⟩
    | ⟨_, _, _, wrong⟩
  · rw [(searching_apart searches).2.2.2.2.2 r rfl]
  · have other : (Cmd.setLocker r).AsksLock name key ∨ ∃ r', (Cmd.setLocker r).UsesLock key r' :=
      other.imp id fun ⟨r, _, uses⟩ => ⟨r, uses⟩
    exact absurd rfl ((lockUse_other other).2.2.2.1 r)
  · cases wrong
  · cases wrong
  · cases wrong

/-- A goroutine stores only what it has made, under a name that it has seen to be free. -/
theorem lockUse_guards {q : Place} {name' : Bytes} {r : Ref}
    (allowed : (lockUse p name key).allows g (.store q name' r)) :
    (g.grip p name).absent = some (q, name') := by
  rcases lockUse_cases allowed with ⟨g, rfl, searches⟩ | ⟨g, rfl, other⟩ | ⟨_, _, wrong⟩ | ⟨_, _, _, wrong⟩
    | ⟨_, _, _, wrong⟩
  · exact searching_guards searches
  · have other : (Cmd.store q name' r).AsksLock name key ∨ ∃ r', (Cmd.store q name' r).UsesLock key r' :=
      other.imp id fun ⟨r, _, uses⟩ => ⟨r, uses⟩
    exact absurd rfl ((lockUse_other other).1 q name' r)
  · cases wrong
  · cases wrong
  · cases wrong

theorem lockUse_stays_stored (allowed : (lockUse p name key).allows g c) (q : Place) (name' : Bytes) :
    c ≠ .remove q name' := by
  rintro rfl
  rcases lockUse_cases allowed with ⟨g, _, searches⟩ | ⟨g, _, other⟩ | ⟨_, _, wrong⟩ | ⟨_, _, _, wrong⟩
    | ⟨_, _, _, wrong⟩
  · exact (searching_apart searches).2.2.2.1 q name' rfl
  · rcases other with (⟨_, wrong⟩ | ⟨_, _, wrong, _⟩) | ⟨_, _, wrong | wrong | wrong | ⟨_, _, wrong⟩ | ⟨_, wrong⟩⟩ <;>
      cases wrong
  · cases wrong
  · cases wrong
  · cases wrong

theorem lockUse_enters {r : Ref} {key' : Bytes} (allowed : (lockUse p name key).allows g (.lockerEnter r key')) :
    g = .search (.found r) ∧ key' = key := by
  rcases lockUse_cases allowed with ⟨g, rfl, searches⟩ | ⟨g, rfl, other⟩ | ⟨_, rfl, same⟩ | ⟨_, _, _, wrong⟩
    | ⟨_, _, _, wrong⟩
  · exact absurd rfl ((searching_apart searches).1 r key')
  · have other : (Cmd.lockerEnter r key').AsksLock name key ∨ ∃ r', (Cmd.lockerEnter r key').UsesLock key r' :=
      other.imp id fun ⟨r, _, uses⟩ => ⟨r, uses⟩
    exact absurd rfl ((lockUse_other other).2.2.2.2.1 r key')
  · cases same
    exact ⟨rfl, rfl⟩
  · cases wrong
  · cases wrong

/-- The goroutines that are started wait for the end of the lock. -/
theorem lockUse_forks {job : Job} (allowed : (lockUse p name key).allows g (.go job)) :
    ∃ r timeout, g = .search (.found r) ∧ job = .waitLockForTimeout r key timeout := by
  rcases lockUse_cases allowed with ⟨g, rfl, searches⟩ | ⟨g, rfl, other⟩ | ⟨_, _, wrong⟩ | ⟨_, _, _, wrong⟩
    | ⟨_, _, _, wrong⟩
  · exact absurd rfl ((searching_apart searches).2.2.2.2.1 job)
  · rcases other with (⟨_, wrong⟩ | ⟨_, _, wrong, _⟩) | ⟨r, rfl,
      wrong | wrong | wrong | ⟨_, _, wrong⟩ | ⟨timeout, same⟩⟩
    · cases wrong
    · cases wrong
    · cases wrong
    · cases wrong
    · cases wrong
    · cases wrong
    · cases same
      exact ⟨r, timeout, rfl, rfl⟩
  · cases wrong
  · cases wrong
  · cases wrong

/-- One command of an operation on a lock. -/
theorem Node.Lockable.lockUse {grips : Tid → Grip} {waits : Tid → Option (Ref × Bytes × Nat)}
    (able : s.Lockable grips waits) (grip : grips tid = g.grip p name) (wait : waits tid = g.waits key)
    (allowed : (lockUse p name key).allows g c) (run : s.exec tid c reply s') :
    s'.Lockable (Function.update grips tid (((Olric.lockUse p name key).after g c reply).grip p name))
      (Function.update waits tid (((Olric.lockUse p name key).after g c reply).waits key)) := by
  refine able.exec run (by rw [grip]; exact lockUse_grip allowed run) (by rw [wait]; exact lockUse_waits allowed) ?_
    ?_ ?_
    (lockUse_stays_stored allowed)
  · rintro q name' r rfl
    rw [grip]
    exact lockUse_guards allowed
  · rintro r rfl
    rw [grip, lockUse_setLocker allowed]
    rfl
  · rintro r key' rfl
    rw [grip, (lockUse_enters allowed).1]
    exact ⟨p, name, rfl⟩

end

end Olric
