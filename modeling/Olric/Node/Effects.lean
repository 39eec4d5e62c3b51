import Olric.Node.Semantics

namespace Olric

/-- The commands that write to a dmap object. -/
def Cmd.Writes (r : Ref) : Cmd → Prop
  | .setLocker r' | .lock r' | .unlock r' | .lockerEnter r' _ | .lockerAcquire r' _ | .lockerDec r' _
  | .lockerUnlock r' _ | .put r' _ _ | .delete r' _ | .close r' | .log r' _ _ | .drain r' | .relog r' _
  | .register _ _ r' => r' = r
  | _ => False

/-- What a command of a goroutine does to a dmap object that exists. -/
inductive DMap.Change (tid : Tid) (r : Ref) (dm : DMap) : (c : Cmd) → c.Reply → DMap → Prop
  | other {c reply} (other : ¬ c.Writes r) : Change tid r dm c reply dm
  | lock (free : dm.mutex = none) : Change tid r dm (.lock r) () { dm with mutex := some tid }
  | unlock : Change tid r dm (.unlock r) () { dm with mutex := none }
  | put {hkey value mmaps str reply} (stored : dm.str.put mmaps hkey value = .ok (str, reply)) :
      Change tid r dm (.put r hkey value) reply { dm with str := str }
  | delete {hkey mmapOk str reply} (deleted : dm.str.delete mmapOk hkey = .ok (str, reply)) :
      Change tid r dm (.delete r hkey) reply { dm with str := str }
  | close (munmapOk : Bool) :
      Change tid r dm (.close r) (dm.str.close munmapOk).2 { dm with str := (dm.str.close munmapOk).1 }
  | setLocker : Change tid r dm (.setLocker r) () { dm with locker := some newLocker }
  | enter {l key} (locker : dm.locker = some l) :
      Change tid r dm (.lockerEnter r key) (l.enter key).2 { dm with locker := some (l.enter key).1 }
  | acquire {l l' i} (locker : dm.locker = some l) (acquired : l.acquire i = some l') :
      Change tid r dm (.lockerAcquire r i) () { dm with locker := some l' }
  | dec {l i} (locker : dm.locker = some l) :
      Change tid r dm (.lockerDec r i) () { dm with locker := some (l.dec i) }
  | release {l l' key reply} (locker : dm.locker = some l) (unlocked : l.unlock key = some (l', reply)) :
      Change tid r dm (.lockerUnlock r key) reply { dm with locker := some l' }
  | oplog {c reply log} (writes : (∃ hkey op, c = .log r hkey op) ∨ c = .drain r ∨ (∃ ops, c = .relog r ops) ∨
      ∃ p name, c = .register p name r) : Change tid r dm c reply { dm with oplog := log }

section

variable {tid : Tid} {s s' : Node} {c : Cmd} {reply : c.Reply} {r : Ref} {dm dm' : DMap}

theorem setDMap_found {r' : Ref} :
    (s.setDMap r dm).dmaps r' = some dm' ↔ r' = r ∧ dm' = dm ∨ r' ≠ r ∧ s.dmaps r' = some dm' := by
  by_cases same : r' = r
  · subst same
    simp [Node.setDMap, eq_comm]
  · simp [Node.setDMap, same]

@[simp] theorem Node.unregister_dmaps {partID : UInt64} {name : Bytes} {ok : Bool} :
    (s.unregister partID name ok).dmaps = s.dmaps := by
  unfold Node.unregister
  split <;> rfl

/-- An update of one object, seen from any object. -/
theorem DMap.Change.update {r' : Ref} {dm₁ dm₂ : DMap} (found : s.dmaps r = some dm) (before : s.dmaps r' = some dm₁)
    (writes : ∀ r, c.Writes r → r = r') (change : Change tid r' dm₁ c reply dm₂) :
    ∃ dm', (s.setDMap r' dm₂).dmaps r = some dm' ∧ Change tid r dm c reply dm' := by
  by_cases same : r = r'
  · subst same
    cases before.symm.trans found
    exact ⟨dm₂, setDMap_found.2 (.inl ⟨rfl, rfl⟩), change⟩
  · exact ⟨dm, setDMap_found.2 (.inr ⟨same, found⟩), .other fun written => same (writes r written)⟩

/-- Objects stay, and change by the commands about them. -/
theorem Node.exec_change (run : s.exec tid c reply s') (found : s.dmaps r = some dm) :
    ∃ dm', s'.dmaps r = some dm' ∧ dm.Change tid r c reply dm' := by
  have fresh {r' : Ref} {dm₁ : DMap} (free : s.dmaps r' = none) : (s.setDMap r' dm₁).dmaps r = some dm := by
    refine setDMap_found.2 (.inr ⟨?_, found⟩)
    rintro rfl
    rw [free] at found
    cases found
  cases c
  case newStorage =>
    refine ⟨dm, ?_, .other nofun⟩
    cases reply with
    | none =>
      obtain rfl := run
      exact found
    | some r' =>
      obtain ⟨free, _, _, rfl⟩ := run
      exact fresh free
  case importStorage =>
    refine ⟨dm, ?_, .other nofun⟩
    cases reply with
    | none =>
      obtain rfl := run
      exact found
    | some r' =>
      obtain ⟨free, _, _, rfl⟩ := run
      exact fresh free
  case setLocker =>
    obtain ⟨_, before, rfl⟩ := run
    exact DMap.Change.update found before (fun _ => Eq.symm) .setLocker
  case lock =>
    obtain ⟨_, before, free, rfl⟩ := run
    exact DMap.Change.update found before (fun _ => Eq.symm) (.lock free)
  case unlock =>
    obtain ⟨_, before, rfl⟩ := run
    exact DMap.Change.update found before (fun _ => Eq.symm) .unlock
  case put =>
    obtain ⟨_, _, _, before, stored, rfl⟩ := run
    exact DMap.Change.update found before (fun _ => Eq.symm) (.put stored)
  case delete =>
    obtain ⟨_, _, _, before, deleted, rfl⟩ := run
    exact DMap.Change.update found before (fun _ => Eq.symm) (.delete deleted)
  case close =>
    obtain ⟨_, munmapOk, before, rfl, rfl⟩ := run
    exact DMap.Change.update found before (fun _ => Eq.symm) (.close munmapOk)
  case lockerEnter =>
    obtain ⟨_, _, before, locker, rfl, rfl⟩ := run
    exact DMap.Change.update found before (fun _ => Eq.symm) (.enter locker)
  case lockerAcquire =>
    obtain ⟨_, _, _, before, locker, acquired, rfl⟩ := run
    exact DMap.Change.update found before (fun _ => Eq.symm) (.acquire locker acquired)
  case lockerDec =>
    obtain ⟨_, _, before, locker, rfl⟩ := run
    exact DMap.Change.update found before (fun _ => Eq.symm) (.dec locker)
  case lockerUnlock =>
    obtain ⟨_, _, _, before, locker, unlocked, rfl⟩ := run
    exact DMap.Change.update found before (fun _ => Eq.symm) (.release locker unlocked)
  case log =>
    obtain ⟨_, _, before, _, rfl⟩ := run
    exact DMap.Change.update found before (fun _ => Eq.symm) (.oplog (.inl ⟨_, _, rfl⟩))
  case drain =>
    obtain ⟨_, _, before, _, _, _, rfl⟩ := run
    exact DMap.Change.update found before (fun _ => Eq.symm) (.oplog (.inr (.inl rfl)))
  case relog =>
    obtain ⟨_, _, before, _, rfl⟩ := run
    exact DMap.Change.update found before (fun _ => Eq.symm) (.oplog (.inr (.inr (.inl ⟨_, rfl⟩))))
  case register p name r' =>
    obtain ⟨_, run⟩ := run
    split at run
    · obtain ⟨_, before, rfl⟩ := run
      exact DMap.Change.update (s := s.setOplogs _ _) found before (fun _ => Eq.symm)
        (.oplog (.inr (.inr (.inr ⟨_, _, rfl⟩))))
    · subst run
      refine ⟨dm, found, ?_⟩
      by_cases same : r' = r
      · subst same
        exact .oplog (.inr (.inr (.inr ⟨_, _, rfl⟩)))
      · exact .other same
  all_goals
    refine ⟨dm, ?_, .other nofun⟩
    simp only [Node.exec] at run
    grind [Node.setPartition, Node.setOplogs, Node.setSyncing, Node.unregister_dmaps]

/-- The commands that make a dmap object with a storage. -/
def Cmd.Makes (r : Ref) (str : Storage) : (c : Cmd) → c.Reply → Prop
  | .newStorage, reply => reply = some r ∧ Storage.new true 0 = .ok str
  | .importStorage tr, reply => reply = some r ∧ Storage.importTable true tr = .ok str
  | _, _ => False

/-- An object that exists after a command existed before, or the command has made it. -/
theorem Node.exec_origin (run : s.exec tid c reply s') (found : s'.dmaps r = some dm') :
    (∃ dm, s.dmaps r = some dm ∧ dm.Change tid r c reply dm') ∨
      s.dmaps r = none ∧ ∃ str, dm' = ⟨str, none, none, none⟩ ∧ c.Makes r str reply := by
  cases before : s.dmaps r with
  | some dm =>
    obtain ⟨_, found', change⟩ := Node.exec_change run before
    cases found.symm.trans found'
    exact .inl ⟨dm, rfl, change⟩
  | none =>
    refine .inr ⟨rfl, ?_⟩
    cases c
    case newStorage | importStorage =>
      cases reply with
      | none =>
        obtain rfl := run
        rw [before] at found
        cases found
      | some r' =>
        obtain ⟨_, str, made, rfl⟩ := run
        rcases setDMap_found.1 found with ⟨rfl, rfl⟩ | ⟨_, found⟩
        · exact ⟨str, rfl, rfl, made⟩
        · rw [before] at found
          cases found
    all_goals
      simp only [Node.exec] at run
      grind [setDMap_found, Node.setPartition, Node.setOplogs, Node.setSyncing, Node.unregister_dmaps]

/-- The goroutine holds the mutex of the dmap. -/
def Node.Locked (s : Node) (r : Ref) (tid : Tid) : Prop := ∃ dm, s.dmaps r = some dm ∧ dm.mutex = some tid

theorem Node.Locked.unique {tid' : Tid} (locked : s.Locked r tid) (locked' : s.Locked r tid') : tid' = tid := by
  obtain ⟨dm, found, held⟩ := locked
  obtain ⟨_, found', held'⟩ := locked'
  cases found.symm.trans found'
  exact Option.some.inj (held'.symm.trans held)

theorem Node.exec_locked {tid' : Tid} (run : s.exec tid c reply s') (locked : s.Locked r tid')
    (keeps : c ≠ .unlock r) : s'.Locked r tid' := by
  obtain ⟨dm, found, held⟩ := locked
  obtain ⟨dm', found', change⟩ := Node.exec_change run found
  refine ⟨dm', found', ?_⟩
  cases change with
  | lock free =>
    rw [free] at held
    cases held
  | unlock => exact absurd rfl keeps
  | other | put | delete | close | setLocker | enter | acquire | dec | release | oplog => exact held

end

end Olric
