import Olric.Cluster.Deadlock
import Olric.Cluster.MoveBackups
import Olric.Node.LockUse

namespace Olric

open Program

/-- A goroutine that waits for a lock to be released hears of it before its time is over. -/
def Cmd.InTime : (c : Cmd) → c.Reply → Prop
  | .waitUnlock .., reply => reply = true
  | _, _ => True

/-- A key of a dmap whose clients lock it on the primary owner. The previous owners are in the routing
table. -/
structure LockOwners where
  members : Members
  name : Bytes
  key : Bytes
  primary : Host

namespace LockOwners

variable (o : LockOwners)

def hkey : UInt64 := getHKey o.members.sum64 o.name o.key

def place (host : Host) : Place := (o.members.config host).place false o.hkey

/-- The member has the lock of the key, in its dmap with the name. -/
def HasLock (nodes : Host → Node) (host : Host) (r : Ref) (i : Nat) : Prop :=
  (nodes host).Has (o.place host) o.name r ∧ (nodes host).HasLock r o.key i

/-- At first nobody waits for a lock, and one member has the lock of the key at most: a previous owner
may have granted it when it was the primary owner. -/
structure Initial (nodes : Host → Node) : Prop where
  able : ∀ host, (nodes host).Lockable (fun _ => {}) fun _ => none
  one : ∀ {host host' r r' i i'}, o.HasLock nodes host r i → o.HasLock nodes host' r' i' → host' = host

/-- Requests of clients to lock and unlock the key. -/
def Starts (host : Host) (p : Prog Response) : Prop :=
  host = o.primary ∧ ((∃ timeout, p = (o.members.config host).lockKey o.hkey o.name o.key timeout) ∨
    p = (o.members.config host).unlockKey o.hkey o.name o.key)

/-- No message is lost, and no timeout fires. -/
def rules : Network.Rules Cmd Cmd.Reply Host Request Response Node :=
  let go := o.members.goRules o.Initial o.Starts
  { go with exec := fun host tid s c reply s' => go.exec host tid s c reply s' ∧ c.InTime reply }

/-- The lock is asked for only where it is: while no other member has it. -/
def EntersAlone (net : Cluster) : ClusterLabel → Prop
  | .perform tid (.lockerEnter _ _) _ => ∀ a, net.threads tid = some a →
    ∀ host r i, host ≠ a.host → ¬ o.HasLock net.nodes host r i
  | _ => True

/-- Some client has the lock of the key on the member. -/
def Holds (nodes : Host → Node) (host : Host) (r : Ref) (i : Nat) : Prop :=
  (nodes host).Has (o.place host) o.name r ∧ ∃ dm l, (nodes host).dmaps r = some dm ∧ dm.locker = some l ∧
    l.locks.lookup o.key = some i ∧ (l.ctrs i).held = true

abbrev Stages := Points (Origin Host Request × LockStage)

/-- What a goroutine has on the member. -/
def gripAt (host : Host) (x : Origin Host Request × LockStage) : Grip :=
  if x.1.host = host then x.2.grip (o.place host) o.name else {}

def waitAt (host : Host) (x : Origin Host Request × LockStage) : Option (Ref × Bytes × Nat) :=
  if x.1.host = host then x.2.waits o.key else none

structure Locked (nodes : Host → Node) (points : Stages) : Prop where
  able : ∀ host, (nodes host).Lockable (points.read (o.gripAt host) {}) (points.read (o.waitAt host) none)
  one : ∀ {host host' r r' i i'}, o.HasLock nodes host r i → o.HasLock nodes host' r' i' → host' = host

variable {o} {nodes : Host → Node} {points : Stages} {origin : Origin Host Request} {g g' : LockStage}
  {tid : Tid} {c : Cmd}
  {reply : c.Reply} {node : Node} {host : Host}

/-- A goroutine gets to a point, or starts at one, where it has nothing that it did not have. -/
theorem Locked.moves (inv : o.Locked nodes points)
    (known : points tid = some (origin, g) ∨ points tid = none ∧ g = .search .start) :
    o.Locked nodes (points.set tid (origin, g)) := by
  have same {α : Type} (f : Origin Host Request × LockStage → α) (unstarted : α)
      (start : f (origin, .search .start) = unstarted) :
      (points.set tid (origin, g)).read f unstarted = points.read f unstarted := by
    rw [Points.read_set, Function.update_eq_self_iff]
    rcases known with known | ⟨free, rfl⟩
    · rw [Points.read_of_some known]
    · rw [Points.read_of_none free, start]
  refine ⟨fun host => ?_, inv.one⟩
  rw [same (o.gripAt host) {} (ite_self _), same (o.waitAt host) none (ite_self _)]
  exact inv.able host

/-- Only one who asks for the lock on a member makes it have one. -/
theorem hasLock_origin {s s' : Node} {p : Place} {r : Ref} {i : Nat} {grips : Tid → Grip}
    {waits : Tid → Option (Ref × Bytes × Nat)} (able : s.Lockable grips waits)
    (stores : ∀ p name r, c = .store p name r → (grips tid).fresh = some r) (run : s.exec tid c reply s')
    (has : s'.Has p o.name r) (lock : s'.HasLock r o.key i) :
    s.Has p o.name r ∧ s.HasLock r o.key i ∨ c = .lockerEnter r o.key := by
  rcases Node.exec_hasLock_origin run lock with before | entered
  · refine .inl ⟨?_, before⟩
    rcases Node.exec_has_origin run has with there | stored
    · exact there
    · obtain ⟨q, name, named⟩ := able.named before
      exact absurd named (able.gripped.apart.unnamed (stores p o.name r stored))
  · exact .inr entered

theorem Locked.step (inv : o.Locked nodes points) (known : points tid = some (origin, g))
    (allowed : (lockUse (o.place origin.host) o.name o.key).allows g c)
    (run : (nodes origin.host).exec tid c reply node)
    (alone : ∀ r, c = .lockerEnter r o.key → ∀ host r' i, host ≠ origin.host → ¬ o.HasLock nodes host r' i) :
    o.Locked (Function.update nodes origin.host node)
      (points.set tid (origin, (lockUse (o.place origin.host) o.name o.key).after g c reply)) := by
  have grip : points.read (o.gripAt origin.host) {} tid = g.grip (o.place origin.host) o.name := by
    rw [Points.read_of_some known]
    exact if_pos rfl
  have wait : points.read (o.waitAt origin.host) none tid = g.waits o.key := by
    rw [Points.read_of_some known]
    exact if_pos rfl
  have stores (p : Place) (name : Bytes) (r : Ref) (stored : c = .store p name r) :
      (points.read (o.gripAt origin.host) {} tid).fresh = some r := by
    rw [grip]
    exact (lockUse_grip allowed run).stores p name r stored
  have origins {host r i} (has : o.HasLock (Function.update nodes origin.host node) host r i) :
      o.HasLock nodes host r i ∨ host = origin.host ∧ c = .lockerEnter r o.key := by
    unfold HasLock at has
    by_cases here : host = origin.host
    · subst here
      rw [Function.update_self] at has
      exact (hasLock_origin (inv.able _) stores run has.1 has.2).imp id fun entered => ⟨rfl, entered⟩
    · rw [Function.update_of_ne here] at has
      exact .inl has
  constructor
  · intro host
    rw [Points.read_set, Points.read_set]
    by_cases here : host = origin.host
    · subst here
      rw [Function.update_self]
      unfold gripAt waitAt
      rw [if_pos rfl, if_pos rfl]
      exact (inv.able _).lockUse grip wait allowed run
    · have elsewhere : ¬ origin.host = host := fun same => here same.symm
      have noGrip : o.gripAt host (origin, (lockUse (o.place origin.host) o.name o.key).after g c reply) =
          points.read (o.gripAt host) {} tid := by
        rw [Points.read_of_some known]
        exact (if_neg elsewhere).trans (if_neg elsewhere).symm
      have noWait : o.waitAt host (origin, (lockUse (o.place origin.host) o.name o.key).after g c reply) =
          points.read (o.waitAt host) none tid := by
        rw [Points.read_of_some known]
        exact (if_neg elsewhere).trans (if_neg elsewhere).symm
      rw [Function.update_of_ne here, noGrip, noWait, Function.update_eq_self, Function.update_eq_self]
      exact inv.able host
  · intro host host' r r' i i' has has'
    rcases origins has with before | ⟨rfl, entered⟩
    · rcases origins has' with before' | ⟨rfl, entered⟩
      · exact inv.one before before'
      · by_contra differs
        exact alone r' entered host r i (Ne.symm differs) before
    · rcases origins has' with before' | ⟨rfl, _⟩
      · by_contra differs
        exact alone r entered host' r' i' differs before'
      · rfl

/-- The goroutine that waits for the end of a lock starts with the dmap. -/
theorem Locked.fork {r : Ref} {child : Tid} (inv : o.Locked nodes points)
    (known : points tid = some (origin, .search (.found r))) (free : points child = none) :
    o.Locked nodes (points.set child (.own origin.host, .search (.found r))) := by
  refine ⟨fun host => ?_, inv.one⟩
  rw [Points.read_set, Points.read_set]
  have waits : points.read (o.waitAt host) none child = none := Points.read_of_none free
  have noWait : o.waitAt host (.own origin.host, .search (.found r)) = points.read (o.waitAt host) none child := by
    rw [waits]
    exact ite_self _
  rw [noWait, Function.update_eq_self]
  have nothing : points.read (o.gripAt host) {} child = {} := Points.read_of_none free
  by_cases here : origin.host = host
  · subst here
    have mine : (points.read (o.gripAt origin.host) {} tid).named = some (o.place origin.host, o.name, r) := by
      rw [Points.read_of_some known]
      exact congrArg Grip.named (if_pos rfl)
    have grip : o.gripAt origin.host (.own origin.host, .search (.found r)) =
        { named := some (o.place origin.host, o.name, r) } :=
      if_pos rfl
    rw [grip]
    exact (inv.able _).start nothing ((inv.able _).gripped.named mine)
  · have grip : o.gripAt host (.own origin.host, .search (.found r)) = points.read (o.gripAt host) {} child := by
      rw [nothing]
      exact if_neg here
    rw [grip, Function.update_eq_self]
    exact inv.able host

/-- Requests leave a goroutine where it is. -/
theorem lockUse_sends {p : Place} {requests : List (Host × Request)} (allowed : (lockUse p o.name o.key).allows g c)
    (away : c.outgoing = some requests) : (∀ reply, (lockUse p o.name o.key).after g c reply = g) ∧
      ∃ dst req, requests = [(dst, req)] ∧
        (req = .findLock o.name o.key ∨ (∃ timeout, req = .lockPrev o.name o.key timeout) ∨
        req = .unlockPrev o.name o.key) := by
  rcases lockUse_cases allowed with ⟨g, rfl, searches⟩ | ⟨g, rfl, asks | ⟨r, _, uses⟩⟩ | ⟨_, _, rfl⟩ | ⟨_, _, _, rfl⟩
    | ⟨_, _, _, rfl⟩
  · cases g with
    | made r => rcases searches with rfl | rfl | rfl | rfl <;> cases away
    | stored r => rcases searches with rfl | rfl <;> cases away
    | start | missing | inside | absent | leaving =>
      obtain rfl := searches
      cases away
    | found | failed => exact searches.elim
  · refine ⟨fun _ => lockUse_stays (.inl asks), ?_⟩
    rcases asks with ⟨_, rfl⟩ | ⟨dst, req, rfl, sort⟩
    · cases away
    · cases away
      exact ⟨dst, req, rfl, sort⟩
  · rcases uses with rfl | rfl | rfl | ⟨_, _, rfl⟩ | ⟨_, rfl⟩ <;> cases away
  · cases away
  · cases away
  · cases away

theorem outline : Network.Outline o.rules o.EntersAlone (fun origin => lockUse (o.place origin.host) o.name o.key)
    (fun _ _ g => g.Outside) fun _ => o.Locked where
  initial nodes initial := ⟨initial.able, initial.one⟩
  spawn inv _ free _ starts := by
    refine ⟨.search .start, ?_, inv.moves (.inr ⟨free, rfl⟩)⟩
    rcases starts with ⟨rfl, ⟨timeout, rfl⟩ | rfl⟩
    · exact lockKey_lockUse
    · exact unlockKey_lockUse
  perform {labels net points tid origin g c reply node} inv outlined known allowed _ alone run := by
    refine inv.step known allowed run.1.2.1 ?_
    rintro r rfl host r' i differs
    obtain ⟨a, running, there, _⟩ := outlined.thread known
    exact alone a running host r' i (by rwa [← there])
  fork {labels net points tid origin g c reply child p} inv _ known allowed _ forks free := by
    cases c with
    | go job =>
      obtain ⟨r, timeout, rfl, rfl⟩ := lockUse_forks allowed
      cases forks
      refine ⟨.search (.found r), ?_, ?_⟩
      · refine waitLockForTimeout_lockUse.bind ?_
        rintro _ _ outside
        exact outside
      · have same : points.set tid (origin, .search (.found r)) = points := by
          rw [Points.set, ← known, Function.update_eq_self]
        change o.Locked net.nodes ((points.set tid (origin, .search (.found r))).set child _)
        rw [same]
        exact inv.fork known free
    | _ => cases forks
  silent inv _ := inv
  deliver inv _ _ allowed away listed _ free := by
    refine ⟨.search .start, ?_, inv.moves (.inr ⟨free, rfl⟩)⟩
    obtain ⟨_, dst, req, rfl, sort⟩ := lockUse_sends allowed away
    cases List.mem_singleton.1 listed
    rcases sort with rfl | ⟨timeout, rfl⟩ | rfl
    · exact findLockOperation_lockUse
    · exact lockPrevOperation_lockUse
    · exact unlockPrevOperation_lockUse
  receive inv _ known allowed away _ _ _ _ := by
    rw [(lockUse_sends allowed away).1 _]
    exact inv.moves (.inl known)

/-- In every run in which goroutines ask for the lock on a member only while no other member has it, it
is held at most once, on the primary owner and all previous owners together. Every lock that is held
has its key in a dmap with a name. -/
theorem held_once (o : LockOwners) {labels : List ClusterLabel} {net : Cluster}
    (run : (Network.system o.rules).Run o.EntersAlone labels net) :
    (∀ host host' r r' i i', o.Holds net.nodes host r i → o.Holds net.nodes host' r' i' → host' = host ∧
      r' = r ∧ i' = i) ∧
      ∀ host r dm l i, (net.nodes host).dmaps r = some dm → dm.locker = some l → (l.ctrs i).held = true →
        ∃ p name key, (net.nodes host).Has p name r ∧ l.locks.lookup key = some i := by
  obtain ⟨points, inv, _⟩ := outline.run run
  constructor
  · rintro host host' r r' i i' ⟨has, dm, l, found, locker, there, _⟩ ⟨has', dm', l', found', locker', there', _⟩
    have lock : o.HasLock net.nodes host r i := ⟨has, dm, l, found, locker, there⟩
    have lock' : o.HasLock net.nodes host' r' i' := ⟨has', dm', l', found', locker', there'⟩
    obtain rfl := inv.one lock lock'
    cases has.symm.trans has'
    cases found.symm.trans found'
    cases locker.symm.trans locker'
    cases there.symm.trans there'
    exact ⟨rfl, rfl, rfl⟩
  · intro host r dm l i found locker held
    obtain ⟨key, there⟩ := ((inv.able host).counted.counted found locker).held held
    obtain ⟨p, name, has⟩ := (inv.able host).named ⟨dm, l, found, locker, there⟩
    exact ⟨p, name, key, has, there⟩

end LockOwners

/-- An empty dmap with the locks. -/
def lockDMap (l : Locker) : DMap := ⟨⟨[⟨∅, .zeroed 1048576, 0, 1048576, 0, 0⟩], false, false⟩, none, some l, none⟩

/-- A member with that dmap as `d`. -/
def lockNode (l : Locker) : Node := restoredNode.setDMap 0 (lockDMap l)

/-- Somebody has locked `k`. -/
def heldLocker : Locker :=
  { newLocker with locks := Finmap.singleton [107] 0, ctrs := fun i => ⟨decide (i = 0), 0, 0⟩, made := 1,
                   channels := 1 }

/-- After that lock has been released. -/
def freedLocker : Locker :=
  { heldLocker with locks := (Finmap.singleton [107] 0).erase [107],
                    ctrs := Function.update heldLocker.ctrs 0 ⟨false, 0, 0⟩,
                    closed := Function.update heldLocker.closed 0 true }

/-- The primary owner, and a previous owner that has granted the lock. -/
def movedLock : LockOwners where
  members := twoMembers
  name := [100]
  key := [107]
  primary := primaryHost

def movedLockNodes (host : Host) : Node := lockNode (if host = previousHost then heldLocker else newLocker)

section

variable {l l' : Locker}

theorem lockNode_has {p : Place} {name : Bytes} {r : Ref} :
    (lockNode l).Has p name r ↔ p = ⟨false, 0⟩ ∧ name = [100] ∧ r = 0 := by
  unfold lockNode Node.Has Node.setDMap restoredNode
  by_cases here : p = ⟨false, 0⟩
  · by_cases named : name = [100]
    · subst here named
      simp [eq_comm]
    · simp [here, named, Finmap.lookup_eq_none.2]
  · simp [here]

theorem lockNode_lookup : ((lockNode l).partition ⟨false, 0⟩).m.lookup [100] = some 0 :=
  lockNode_has.2 ⟨rfl, rfl, rfl⟩

theorem lockNode_dmaps : (lockNode l).dmaps 0 = some (lockDMap l) := by simp [lockNode, Node.setDMap]

theorem lockNode_locker {r : Ref} {dm : DMap} (found : (lockNode l).dmaps r = some dm)
    (locker : dm.locker = some l') : r = 0 ∧ l' = l := by
  by_cases this : r = 0
  · subst this
    cases lockNode_dmaps.symm.trans found
    exact ⟨rfl, (Option.some.inj locker).symm⟩
  · simp [lockNode, Node.setDMap, this, restoredNode] at found

theorem lockNode_setDMap : (lockNode l).setDMap 0 (lockDMap l') = lockNode l' := by
  simp [lockNode, Node.setDMap]

theorem lockNode_lockable (counted : l.Counted fun _ => none) :
    (lockNode l).Lockable (fun _ => {}) fun _ => none where
  gripped := by
    refine ⟨⟨fun has => ?_, fun has has' => ?_, nofun, nofun, nofun⟩, nofun, nofun⟩
    · obtain ⟨_, _, rfl⟩ := lockNode_has.1 has
      exact ⟨_, lockNode_dmaps⟩
    · obtain ⟨rfl, rfl, _⟩ := lockNode_has.1 has
      obtain ⟨rfl, rfl, _⟩ := lockNode_has.1 has'
      exact ⟨rfl, rfl⟩
  guarded := ⟨nofun, nofun⟩
  counted := by
    refine ⟨fun found locker => ?_, nofun⟩
    obtain ⟨_, rfl⟩ := lockNode_locker found locker
    exact counted
  named := by
    rintro r key i ⟨dm, l', found, locker, _⟩
    obtain ⟨rfl, _⟩ := lockNode_locker found locker
    exact ⟨_, _, lockNode_has.2 ⟨rfl, rfl, rfl⟩⟩

theorem heldLocker_counted : heldLocker.Counted fun _ => none := by
  have key {key i} (found : heldLocker.locks.lookup key = some i) : key = [107] ∧ i = 0 := by
    by_cases this : key = [107]
    · subst this
      simpa [heldLocker, eq_comm] using found
    · simp [heldLocker, Finmap.lookup_eq_none.2, this] at found
  refine { waiters := fun i => ⟨∅, by simp, rfl⟩, waiting := nofun, held := fun {i} held => ?_,
           named := fun found found' => (key found').1.trans (key found).1.symm, made := fun {_ i} found => ?_ }
  · obtain rfl : i = 0 := of_decide_eq_true held
    exact ⟨[107], Finmap.lookup_singleton_eq⟩
  · rw [(key found).2]
    exact Nat.zero_lt_one

theorem movedLock_previous {host : Host} {r : Ref} {i : Nat} (has : (movedLockNodes host).HasLock r [107] i) :
    host = previousHost := by
  obtain ⟨dm, l, found, locker, there⟩ := has
  obtain ⟨_, rfl⟩ := lockNode_locker found locker
  by_contra other
  rw [if_neg other] at there
  simp [newLocker] at there

theorem movedLock_initial : movedLock.Initial movedLockNodes := by
  refine ⟨fun host => ?_, fun has has' => (movedLock_previous has'.2).trans (movedLock_previous has.2).symm⟩
  refine lockNode_lockable ?_
  split
  · exact heldLocker_counted
  · exact Locker.newLocker_counted

theorem movedLock_holds {nodes : Host → Node} {host : Host} {i : Nat} (node : nodes host = lockNode l)
    (there : l.locks.lookup [107] = some i) (held : (l.ctrs i).held = true) : movedLock.Holds nodes host 0 i := by
  have place : movedLock.place host = ⟨false, 0⟩ := congrArg (Place.mk false) (show (7 : UInt64) % 1 = 0 from rfl)
  unfold LockOwners.Holds
  rw [node, place]
  exact ⟨lockNode_lookup, _, l, lockNode_dmaps, rfl, there, held⟩

/-- What a goroutine does on its own member. -/
def LockOwners.Acts (o : LockOwners) (tid : Tid) (s : Node) (c : Cmd) (reply : c.Reply) (s' : Node) : Prop :=
  c.outgoing = none ∧ (c.job = none ∧ s.exec tid c reply s' ∧ c.Routed o.members.routing reply) ∧ c.InTime reply

/-- The same, without asking for a lock. -/
def LockOwners.Looks (o : LockOwners) (tid : Tid) (s : Node) (c : Cmd) (reply : c.Reply) (s' : Node) : Prop :=
  (∀ r key, c ≠ .lockerEnter r key) ∧ o.Acts tid s c reply s'

/-- A client that finds no lock on the primary owner asks the previous owner. -/
theorem lock_asks (tid : Tid) (unlocked : l.check [107] = false) : ∃ next,
    ((twoMembers.config primaryHost).lockKey movedLock.hkey [100] [107] 0).Reaches (movedLock.Looks tid) (lockNode l)
      (.call (.request previousHost (.findLock [100] [107])) next) (lockNode l) ∧
    next (.ok []) = .call (.request previousHost (.lockPrev [100] [107] 0)) .ret ∧
    next .noSuchLock = grantLock 0 [107] 0 :=
  ⟨_, .step (some 0) ⟨nofun, rfl, ⟨rfl, ⟨lockNode_lookup.symm, rfl⟩, trivial⟩, trivial⟩
    (.step false ⟨nofun, rfl, ⟨rfl, ⟨_, l, lockNode_dmaps, rfl, unlocked.symm, rfl⟩, trivial⟩, trivial⟩
    (.step [previousHost, primaryHost] ⟨nofun, rfl, ⟨rfl, ⟨nofun, rfl⟩, rfl⟩, trivial⟩ .refl)), rfl, rfl⟩

theorem unlock_asks (tid : Tid) : ∃ next,
    ((twoMembers.config primaryHost).unlockKey movedLock.hkey [100] [107]).Reaches (movedLock.Looks tid) (lockNode l)
      (.call (.request previousHost (.findLock [100] [107])) next) (lockNode l) ∧
    next (.ok []) = .call (.request previousHost (.unlockPrev [100] [107])) .ret :=
  ⟨_, .step [previousHost, primaryHost] ⟨nofun, rfl, ⟨rfl, ⟨nofun, rfl⟩, rfl⟩, trivial⟩ .refl, rfl⟩

theorem findLock_answers (tid : Tid) {there : Bool} (check : l.check [107] = there) :
    ((twoMembers.config previousHost).handle twoMembers.sum64 (.findLock [100] [107])).Reaches (movedLock.Looks tid)
      (lockNode l) (.ret (if there then .ok [] else .noSuchLock)) (lockNode l) := by
  refine .step (some 0) ⟨nofun, rfl, ⟨rfl, ⟨lockNode_lookup.symm, rfl⟩, trivial⟩, trivial⟩
    (.step there ⟨nofun, rfl, ⟨rfl, ⟨_, l, lockNode_dmaps, rfl, check.symm, rfl⟩, trivial⟩, trivial⟩ ?_)
  cases there <;> exact .refl

theorem unlockPrev_releases (tid : Tid) (unlocks : l.unlock [107] = some (l', true)) :
    ((twoMembers.config previousHost).handle twoMembers.sum64 (.unlockPrev [100] [107])).Reaches (movedLock.Looks tid)
      (lockNode l) (.ret (.ok [])) (lockNode l') :=
  .step (some 0) ⟨nofun, rfl, ⟨rfl, ⟨lockNode_lookup.symm, rfl⟩, trivial⟩, trivial⟩
    (.step true ⟨nofun, rfl, ⟨rfl, ⟨_, l, l', lockNode_dmaps, rfl, unlocks, lockNode_setDMap.symm⟩, trivial⟩,
      trivial⟩ .refl)

theorem lockPrev_grants (tid : Tid) :
    ((twoMembers.config previousHost).handle twoMembers.sum64 (.lockPrev [100] [107] 0)).Reaches (movedLock.Looks tid)
      (lockNode l) (grantLock 0 [107] 0) (lockNode l) :=
  .step (some 0) ⟨nofun, rfl, ⟨rfl, ⟨lockNode_lookup.symm, rfl⟩, trivial⟩, trivial⟩ .refl

/-- Somebody gets the lock if it is not held. -/
theorem grant_holds (tid : Tid) (free : ((l.find [107]).1.ctrs (l.find [107]).2).held = false) : ∃ l' i next,
    l'.locks.lookup [107] = some i ∧ (l'.ctrs i).held = true ∧
    (grantLock 0 [107] 0).Reaches (movedLock.Acts tid) (lockNode l) (.call (.go (.waitLockForTimeout 0 [107] 0)) next)
      (lockNode l') ∧ next () = .ret (.ok []) := by
  have acquires : (l.enter [107]).1.acquire (l.enter [107]).2 = some ((l.enter [107]).1.setCtr (l.enter [107]).2
      { (l.enter [107]).1.ctrs (l.enter [107]).2 with held := true }) := by
    refine if_neg ?_
    simp [Locker.enter, Locker.setCtr, free]
  refine ⟨_, (l.enter [107]).2, _, ?_, ?_, .step (l.enter [107]).2 ⟨rfl, ⟨rfl, ⟨_, l, lockNode_dmaps, rfl, rfl,
    lockNode_setDMap.symm⟩, trivial⟩, trivial⟩ (.step () ⟨rfl, ⟨rfl, ⟨_, _, _, lockNode_dmaps, rfl, acquires,
    lockNode_setDMap.symm⟩, trivial⟩, trivial⟩ (.step () ⟨rfl, ⟨rfl, ⟨_, _, lockNode_dmaps, rfl,
    lockNode_setDMap.symm⟩, trivial⟩, trivial⟩ .refl)), rfl⟩
  · exact l.find_snd_lookup [107]
  · simp [Locker.dec, Locker.setCtr]

end

theorem alone_looks (o : LockOwners) {net : Cluster} {labels : List ClusterLabel}
    (run : (Network.system o.rules).Run o.EntersAlone labels net) (tid : Tid) {host : Host} {caller : Option Tid}
    {p q : Prog Response} {node node' : Node} (running : net.threads tid = some ⟨host, p, none, caller⟩)
    (here : net.nodes host = node) (reaches : p.Reaches (o.Looks tid) node q node') :
    ∃ labels', (Network.system o.rules).Run o.EntersAlone labels'
      ((net.setThread tid ⟨host, q, none, caller⟩).setNode host node') := by
  subst here
  have closed {net label net'} (reach : ∃ labels, (Network.system o.rules).Run o.EntersAlone labels net)
      (allowed : o.EntersAlone net label) (step : Network.Step o.rules net label net') :
      ∃ labels, (Network.system o.rules).Run o.EntersAlone labels net' := by
    obtain ⟨labels, run⟩ := reach
    exact ⟨_, run.next allowed step⟩
  refine Network.alone_closed closed ⟨labels, run⟩ tid running
    (Function.update_eq_self _ _).symm (reaches.mono fun {s c reply s'} now => ⟨fun net' _ => ?_, now.2⟩)
  cases c
  case lockerEnter r key => exact absurd rfl (now.1 r key)
  all_goals exact trivial

/-- The client's request to the previous owner, which has not got there. -/
def askingLock : Activity Cmd Cmd.Reply Host Request Response where
  host := primaryHost
  prog := .call (.request previousHost (.lockPrev [100] [107] 0)) .ret
  calls := some [⟨previousHost, .lockPrev [100] [107] 0, .sent⟩]
  caller := none

/-- A client has learnt that the previous owner has the lock, and asks for it there. -/
theorem lock_found : ∃ labels net, (Network.system movedLock.rules).Run movedLock.EntersAlone labels net ∧
    net.nodes = movedLockNodes ∧ net.threads 0 = some askingLock ∧ ∀ tid, 2 ≤ tid → net.threads tid = none := by
  have start : (Network.system movedLock.rules).Run movedLock.EntersAlone [] ⟨movedLockNodes, fun _ => none⟩ :=
    .start ⟨movedLock_initial, fun _ => rfl⟩
  obtain ⟨next, asks, goesOn, _⟩ := lock_asks (l := newLocker) 0 rfl
  have spawned := start.next (by exact trivial)
    (show Network.Step movedLock.rules _ (.spawn 0 primaryHost _) _ from .spawn rfl ⟨rfl, .inl ⟨0, rfl⟩⟩)
  obtain ⟨_, asked⟩ := alone_looks _ spawned 0 rfl rfl asks
  have sent := asked.next (by exact trivial) (show Network.Step movedLock.rules _ (.send 0) _ from .send rfl rfl)
  have served := sent.next (by exact trivial)
    (show Network.Step movedLock.rules _ (.deliver 0 0 1) _ from .deliver rfl rfl rfl)
  obtain ⟨_, found⟩ := alone_looks _ served 1 rfl rfl (findLock_answers (l := heldLocker) 1 rfl)
  have answered := found.next (by exact trivial)
    (show Network.Step movedLock.rules _ (.answer 0 0 1) _ from .answer rfl rfl rfl)
  have told := answered.next (by exact trivial)
    (show Network.Step movedLock.rules _ (.receive 0) _
      from .receive rfl (show _ = List.map _ [Response.ok []] from rfl) rfl)
  rw [goesOn] at told
  have again := told.next (by exact trivial) (show Network.Step movedLock.rules _ (.send 0) _ from .send rfl rfl)
  refine ⟨_, _, again, ?_, rfl, ?_⟩
  · have primary : Function.update movedLockNodes primaryHost (lockNode newLocker) = movedLockNodes :=
      Function.update_eq_self_iff.2 rfl
    have previous : Function.update movedLockNodes previousHost (lockNode heldLocker) = movedLockNodes :=
      Function.update_eq_self_iff.2 rfl
    simp [Network.setNode, Network.setThread, primary, previous]
  · intro tid other
    have notClient : tid ≠ 0 := by omega
    have notHandler : tid ≠ 1 := by omega
    simp [Network.setNode, Network.setThread, notClient, notHandler]

/-- The client waits for the lock on the previous owner. -/
theorem lock_waits : ∃ labels net next, (Network.system movedLock.rules).Run movedLock.EntersAlone labels net ∧
    net.threads 2 = some ⟨previousHost, .call (.lockerAcquire 0 0) next, none, some 0⟩ ∧
    net.nodes previousHost = lockNode (heldLocker.enter [107]).1 := by
  obtain ⟨labels, net, found, nodes, waiting, free⟩ := lock_found
  have served := found.next (by exact trivial)
    (show Network.Step movedLock.rules _ (.deliver 0 0 2) _ from .deliver waiting rfl (free 2 (Nat.le_refl 2)))
  have there : net.nodes previousHost = lockNode heldLocker := congrFun nodes previousHost
  obtain ⟨_, granting⟩ := alone_looks _ served 2 rfl there (lockPrev_grants 2)
  refine ⟨_, _, _, granting.next ?_ (show Network.Step movedLock.rules _ (.perform 2 (.lockerEnter 0 [107]) (0 : Nat))
    _ from
    .perform rfl rfl ⟨⟨rfl, ⟨_, heldLocker, lockNode_dmaps, rfl, rfl, lockNode_setDMap.symm⟩, trivial⟩, trivial⟩),
      rfl, rfl⟩
  rintro a running host r i elsewhere ⟨_, has⟩
  cases running
  refine elsewhere (movedLock_previous (r := r) (i := i) ?_)
  rw [Network.setNode_nodes, if_neg elsewhere] at has
  change (net.nodes host).HasLock r [107] i at has
  rwa [nodes] at has

/-- The lock is held on the previous owner only, while a client waits for it there. -/
theorem waiting_held_once : ∃ labels net next, (Network.system movedLock.rules).Run movedLock.EntersAlone labels net ∧
    net.threads 2 = some ⟨previousHost, .call (.lockerAcquire 0 0) next, none, some 0⟩ ∧
    movedLock.Holds net.nodes previousHost 0 0 ∧ ∀ r i, ¬ movedLock.Holds net.nodes primaryHost r i := by
  obtain ⟨labels, net, next, run, waits, there⟩ := lock_waits
  have holds : movedLock.Holds net.nodes previousHost 0 0 :=
    movedLock_holds there (heldLocker.find_snd_lookup [107]) rfl
  refine ⟨labels, net, next, run, waits, holds, fun r i held => ?_⟩
  exact absurd ((movedLock.held_once run).1 _ _ _ _ _ _ holds held).1 (by decide)

theorem acts_of_looks {tid : Tid} {p q : Prog Response} {s s' : Node}
    (reaches : p.Reaches (movedLock.Looks tid) s q s') :
    p.Reaches (movedLock.Acts tid) s q s' := reaches.mono fun now => now.2

/-- Meanwhile the lock is released on the previous owner. -/
theorem lock_freed : ∃ net : Cluster, (Network.system movedLock.rules).Reachable net ∧
    net.threads 0 = some askingLock ∧
    net.nodes previousHost = lockNode freedLocker ∧ net.nodes primaryHost = lockNode newLocker ∧
    ∀ tid, 5 ≤ tid → net.threads tid = none := by
  obtain ⟨labels, net, found, nodes, waiting, free⟩ := lock_found
  have reach : (Network.system movedLock.rules).Reachable net := ⟨labels, found.mono fun _ _ _ => trivial⟩
  have previous : net.nodes previousHost = lockNode heldLocker := congrFun nodes previousHost
  have primary : net.nodes primaryHost = lockNode newLocker := congrFun nodes primaryHost
  obtain ⟨next, asks, goesOn⟩ := unlock_asks (l := newLocker) 2
  have spawned := Network.reachable_spawn reach 2 (free 2 (by omega)) ⟨rfl, .inr rfl⟩
  have asked := Network.reachable_send (Network.reachable_alone spawned 2 rfl primary (acts_of_looks asks)) 2 rfl rfl
  have served := Network.reachable_deliver asked 2 3 (i := 0) rfl rfl (free 3 (by omega))
  have looked :=
    Network.reachable_alone served 3 rfl previous (acts_of_looks (findLock_answers (l := heldLocker) 3 rfl))
  have told := Network.reachable_receive (Network.reachable_answer looked 2 0 3 rfl rfl rfl) 2 [.ok []] rfl rfl rfl
  rw [goesOn] at told
  have sent := Network.reachable_send told 2 rfl rfl
  have releasing := Network.reachable_deliver sent 2 4 (i := 0) rfl rfl (free 4 (by omega))
  have released := Network.reachable_alone releasing 4 rfl rfl
    (acts_of_looks (unlockPrev_releases 4 (show heldLocker.unlock [107] = some (freedLocker, true) from rfl)))
  refine ⟨_, released, waiting, rfl, rfl, fun tid later => ?_⟩
  have notClient : tid ≠ 2 := by omega
  have notFind : tid ≠ 3 := by omega
  have notUnlock : tid ≠ 4 := by omega
  simpa [Network.setNode, Network.setThread, notClient, notFind, notUnlock] using free tid (by omega)

/-- Another client finds no lock and is granted it on the primary owner. -/
theorem lock_taken : ∃ net : Cluster, (Network.system movedLock.rules).Reachable net ∧
    net.threads 0 = some askingLock ∧
    net.threads 5 = some ⟨primaryHost, .ret (.ok []), none, none⟩ ∧ net.nodes previousHost = lockNode freedLocker ∧
    (∃ l i, net.nodes primaryHost = lockNode l ∧ l.locks.lookup [107] = some i ∧ (l.ctrs i).held = true) ∧
    ∀ tid, 8 ≤ tid → net.threads tid = none := by
  obtain ⟨net, reach, waiting, previous, primary, free⟩ := lock_freed
  obtain ⟨next, asks, _, goesOn⟩ := lock_asks (l := newLocker) 5 rfl
  obtain ⟨l, i, next', there, held, grants, goesOn'⟩ := grant_holds (l := newLocker) 5 rfl
  have spawned := Network.reachable_spawn reach 5 (free 5 (by omega)) ⟨rfl, .inl ⟨0, rfl⟩⟩
  have asked := Network.reachable_send (Network.reachable_alone spawned 5 rfl primary (acts_of_looks asks)) 5 rfl rfl
  have served := Network.reachable_deliver asked 5 6 (i := 0) rfl rfl (free 6 (by omega))
  have looked :=
    Network.reachable_alone served 6 rfl previous (acts_of_looks (findLock_answers (l := freedLocker) 6 rfl))
  have told :=
    Network.reachable_receive (Network.reachable_answer looked 5 0 6 rfl rfl rfl) 5 [.noSuchLock] rfl rfl rfl
  rw [goesOn] at told
  have granted :=
    Network.reachable_fork (Network.reachable_alone told 5 rfl rfl grants) 5 7 rfl rfl (free 7 (by omega))
  rw [goesOn'] at granted
  refine ⟨_, granted, waiting, rfl, rfl, ⟨l, i, rfl, there, held⟩, fun tid later => ?_⟩
  have notClient : tid ≠ 5 := by omega
  have notFind : tid ≠ 6 := by omega
  have notTimer : tid ≠ 7 := by omega
  simpa [Network.setNode, Network.setThread, notClient, notFind, notTimer] using free tid (by omega)

/-- Then the first client's request gets to the previous owner, and both have the lock. -/
theorem both_owners_grant : ∃ labels net, (Network.system movedLock.rules).AnyRun labels net ∧
    net.threads 0 = some ⟨primaryHost, .ret (.ok []), none, none⟩ ∧
    net.threads 5 = some ⟨primaryHost, .ret (.ok []), none, none⟩ ∧
    (∃ i, movedLock.Holds net.nodes previousHost 0 i) ∧ ∃ i, movedLock.Holds net.nodes primaryHost 0 i := by
  obtain ⟨net, reach, waiting, granted, previous, ⟨l, i, primary, there, held⟩, free⟩ := lock_taken
  obtain ⟨l', i', next, there', held', grants, goesOn⟩ := grant_holds (l := freedLocker) 8 rfl
  have served := Network.reachable_deliver reach 0 8 (i := 0) waiting rfl (free 8 (by omega))
  have granting := Network.reachable_alone served 8 rfl previous (acts_of_looks (lockPrev_grants 8))
  have holding :=
    Network.reachable_fork (Network.reachable_alone granting 8 rfl rfl grants) 8 9 rfl rfl (free 9 (by omega))
  rw [goesOn] at holding
  obtain ⟨labels, told⟩ :=
    Network.reachable_receive (Network.reachable_answer holding 0 0 8 rfl rfl rfl) 0 [.ok []] rfl rfl rfl
  refine ⟨labels, _, told, rfl, granted, ⟨i', movedLock_holds rfl there' held'⟩, i, movedLock_holds ?_ there held⟩
  exact primary

end Olric
