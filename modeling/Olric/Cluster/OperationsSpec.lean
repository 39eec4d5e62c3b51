import Olric.Cluster.Operations
import Olric.Node.Issued
import Olric.Protocol.Accepted

namespace Olric

open Program Faulty

/-- A request for the value of a key. -/
def Request.AsksValue : Request → Prop
  | .getPrev .. | .getBackup .. | .external (.get ..) => True
  | _ => False

theorem Extra.bind_putExTTL {extra : Option Extra} {ttl : Int64} :
    extra.bind Extra.putExTTL = some ttl ↔ extra = some (.putEx ttl) := by
  rcases extra with _ | _ | _ | _ <;> simp [Extra.putExTTL]

theorem Extra.bind_lockTTL {extra : Option Extra} {ttl : Int64} :
    extra.bind Extra.lockTTL = some ttl ↔ extra = some (.lockWithTimeout ttl) := by
  rcases extra with _ | _ | _ | _ <;> simp [Extra.lockTTL]

theorem Extra.bind_partID {extra : Option Extra} {partID : UInt64} :
    extra.bind Extra.partID = some partID ↔ extra = some (.isPartEmpty partID) := by
  rcases extra with _ | _ | _ | _ <;> simp [Extra.partID]

/-- What the operations of a member meet: whether the member has a routing table, the partitions whose
list of owners is never empty, and the values that are stored here and on other members. -/
structure Surroundings (db : Db) where
  bootstrapped : Prop
  owned : Place → Prop
  stored : Bytes → Prop
  ready : bootstrapped → ∀ id < db.config.partitionCount, owned ⟨false, id⟩

/-- The partition of the command exists. -/
def Db.Has (db : Db) (c : Cmd) : Prop := ∀ p, c.place = some p → p.id < db.config.partitionCount

theorem Db.has_of_none (db : Db) {c : Cmd} (nowhere : c.place = none) : db.Has c := by
  intro p same
  cases nowhere.symm.trans same

theorem Db.place_lt (db : Db) (backup : Bool) (hkey : UInt64) :
    (db.config.place backup hkey).id < db.config.partitionCount :=
  UInt64.mod_lt hkey db.hasPartitions

namespace Surroundings

variable {db : Db} (w : Surroundings db) {α : Type}

def Allows : (c : Cmd) → c.Reply → Prop
  | .owners p, reply => w.owned p → reply ≠ []
  | .get _ _, reply => ∀ entry, reply = .ok entry → w.stored entry.value
  | .request _ req, reply => req.AsksValue → ∀ value, reply = .ok value → w.stored value
  | _, _ => True

def AllowsOp : (c : OpCmd) → c.Reply → Prop
  | .node c, reply => w.Allows c reply
  | .awaitBootstrap, reply => reply = true → w.bootstrapped
  | _, _ => True

/-- The operation returns a result and does not panic, whatever it meets. -/
def Serves (op : Operation α) : Prop := Returns w.AllowsOp op fun _ => True

/-- A command that does not panic, whatever the reply is. -/
structure Fine (c : Cmd) : Prop where
  has : db.Has c
  owned : ∀ p, c = .owners p → p.backup = false → w.owned p

/-- A reply after which the handler goes on. -/
structure Meets (c : Cmd) (reply : c.Reply) : Prop where
  has : db.Has c
  allowed : w.Allows c reply
  owner : c.findsOwner reply = true

theorem exists_allowed (c : Cmd) : ∃ reply, w.Allows c reply := by
  cases c with
  | owners p => exact ⟨[db.config.this], fun _ => List.cons_ne_nil _ _⟩
  | get => exact ⟨.error .keyNotFound, nofun⟩
  | request => exact ⟨.failed, fun _ => nofun⟩
  | getRaw | exportTable => exact ⟨.error .keyNotFound, trivial⟩
  | _ => exact ⟨default, trivial⟩

section Rules

variable {w}

@[simp] theorem returns_assert {o : Option α} {Q : α → Prop} :
    Returns w.AllowsOp (assert o) Q ↔ ∃ a, o = some a ∧ Q a := by
  cases o <;> simp [assert]

@[simp] theorem returns_lookup {backup : Bool} {partID : UInt64} {Q : Place → Prop} :
    Returns w.AllowsOp (db.lookup backup partID) Q ↔ partID < db.config.partitionCount ∧ Q ⟨backup, partID⟩ := by
  unfold Db.lookup
  split <;> simp [*]

theorem returns_node {c : Cmd} {Q : c.Reply → Prop} :
    Returns w.AllowsOp (issue (.node c)) Q ↔ ∀ reply, w.Allows c reply → Q reply :=
  returns_ask.trans (and_iff_right (w.exists_allowed c))

@[simp] theorem returns_awaitBootstrap {Q : Bool → Prop} :
    Returns w.AllowsOp (issue .awaitBootstrap) Q ↔ Q false ∧ (w.bootstrapped → Q true) := by
  refine returns_ask.trans ⟨fun ⟨_, all⟩ => ⟨all false nofun, fun boot => all true fun _ => boot⟩,
    fun ⟨no, yes⟩ => ?_⟩
  refine ⟨⟨false, nofun⟩, fun reply allowed => ?_⟩
  cases reply with
  | false => exact no
  | true => exact yes (allowed rfl)

theorem returns_command {c : Cmd} {Q : c.Reply → Prop} (has : db.Has c) :
    Returns w.AllowsOp (db.command c) Q ↔ ∀ reply, w.Allows c reply → c.findsOwner reply = true ∧ Q reply := by
  have checked (reply : c.Reply) :
      Returns w.AllowsOp (if c.findsOwner reply then pure reply else throw .noOwners : Operation c.Reply) Q ↔
        c.findsOwner reply = true ∧ Q reply := by
    split <;> simp [*]
  unfold Db.command
  cases place : c.place with
  | none =>
    simp only [returns_bind, checked]
    exact returns_node
  | some p =>
    simp only [returns_bind, returns_lookup, has p place, true_and, checked]
    exact returns_node

end Rules

variable {w} {p : Place} {name key value : Bytes} {hkey : UInt64} {timeout : Int64}

section Handlers

theorem findsOwner_of_fine {c : Cmd} {reply : c.Reply} (fine : w.Fine c) (allowed : w.Allows c reply) :
    c.findsOwner reply = true := by
  cases c with
  | owners p =>
    cases backup : p.backup with
    | true => simp [Cmd.findsOwner, backup]
    | false =>
      have nonempty := allowed (fine.owned p rfl backup)
      simp [Cmd.findsOwner, nonempty]
  | _ => rfl

theorem perform_returns {prog : Prog α} {Q : α → Prop}
    (safe : prog.Safe (fun _ c reply _ => w.Allows c reply) (fun _ c => w.Fine c) () fun a _ => Q a) :
    Returns w.AllowsOp (db.perform prog) Q :=
  Returns.interpret (fun _ fine => (returns_command fine.has).2 fun _ allowed =>
    ⟨findsOwner_of_fine fine allowed, allowed⟩) safe

theorem only_safe {prog : Prog α} (only : prog.Only w.Fine) :
    prog.Safe (fun _ c reply _ => w.Allows c reply) (fun _ c => w.Fine c) () fun _ _ => True :=
  Safe.only (fun _ => True) (fun _ _ fine _ => fine) (fun _ _ _ _ _ _ _ => trivial) only trivial

theorem perform_serves {prog : Prog α} (only : prog.Only w.Fine) : w.Serves (db.perform prog) :=
  perform_returns (only_safe only)

/-- What a handler makes of replies after which it goes on. -/
theorem perform_runs {prog : Prog α} {Q : α → Prop} (returns : Returns w.AllowsOp (db.perform prog) Q) {a : α}
    (run : prog.Runs (fun _ c reply _ => w.Meets c reply) () a ()) : Q a :=
  Returns.runs (fun _ reply meets _ returns => ((returns_command meets.has).1 returns reply meets.allowed).2) returns
    run

theorem fine_of_place {c : Cmd} (at_ : c.place = some p) (inside : p.id < db.config.partitionCount)
    (other : ∀ p, c ≠ .owners p) : w.Fine c where
  has q same := by
    cases at_.symm.trans same
    exact inside
  owned q same := absurd same (other q)

theorem fine_of_none {c : Cmd} (nowhere : c.place = none) : w.Fine c where
  has := db.has_of_none nowhere
  owned q same := by
    subst same
    cases nowhere

theorem fine_of_object (c : Cmd) (object : c.OnObject) : w.Fine c := by
  cases c <;> first | exact object.elim | exact fine_of_none rfl

theorem fine_owners (inside : p.id < db.config.partitionCount) (owned : p.backup = false → w.owned p) :
    w.Fine (.owners p) where
  has q same := by
    cases same
    exact inside
  owned q same := by
    cases same
    exact owned

theorem getDMap_fine (inside : p.id < db.config.partitionCount) : (db.config.getDMap p name).Only w.Fine :=
  Config.getDMap_only (fine_of_place rfl inside nofun) (fine_of_place rfl inside nofun)
    (fine_of_place rfl inside nofun)
    (fine_of_none rfl) (fun _ => fine_of_none rfl) (fun _ => fine_of_place rfl inside nofun)
    (fun _ => fine_of_place rfl inside nofun) (fine_of_place rfl inside nofun)

/-- The handlers of clients' operations, which run once there is a routing table. -/
theorem owners_fine (boot : w.bootstrapped) (backup : Bool) : w.Fine (.owners (db.config.place backup hkey)) :=
  fine_owners (db.place_lt backup hkey) fun primary => by
    cases backup with
    | true => cases primary
    | false => exact w.ready boot _ (db.place_lt false hkey)

theorem putKeyVal_fine (boot : w.bootstrapped) : (db.config.putKeyVal hkey name key value timeout).Only w.Fine :=
  Config.putKeyVal_only fine_of_object (getDMap_fine (db.place_lt _ _))
    (Config.backUp_only (fine_of_none rfl) (owners_fine boot true) (fun _ => fine_of_none rfl) (fine_of_none rfl))
    (fun _ _ => fine_of_none rfl) (Config.purgeOldVersions_only (owners_fine boot false) fun _ => fine_of_none rfl)

theorem deleteKey_fine (boot : w.bootstrapped) : (db.config.deleteKey hkey name key).Only w.Fine :=
  Config.deleteKey_only fine_of_object (getDMap_fine (db.place_lt _ _)) (owners_fine boot false)
    (fun _ => fine_of_none rfl) (Config.deleteBackups_only (owners_fine boot true) fun _ => fine_of_none rfl)

theorem findLockKey_fine (boot : w.bootstrapped) : (db.config.findLockKey hkey name key).Only w.Fine :=
  Config.findLockKey_only (owners_fine boot false) fun _ => fine_of_none rfl

theorem lockKey_fine (boot : w.bootstrapped) : (db.config.lockKey hkey name key timeout).Only w.Fine :=
  Config.lockKey_only fine_of_object (getDMap_fine (db.place_lt _ _)) (findLockKey_fine boot)
    (fun _ => fine_of_none rfl) fun _ => fine_of_none rfl

theorem unlockKey_fine (boot : w.bootstrapped) : (db.config.unlockKey hkey name key).Only w.Fine :=
  Config.unlockKey_only fine_of_object (getDMap_fine (db.place_lt _ _)) (findLockKey_fine boot) fun _ =>
    fine_of_none rfl

theorem askInTurn_stored (req : Request) (asks : req.AsksValue) (hosts : List Host) :
    (Config.askInTurn req hosts).Safe (fun _ c reply _ => w.Allows c reply) (fun _ c => w.Fine c) ()
      fun r _ => ∀ v, r = .ok v → w.stored v := by
  induction hosts with
  | nil => exact nofun
  | cons host hosts ih =>
    refine ⟨fine_of_none rfl, fun answer _ allowed => ?_⟩
    cases answer with
    | keyNotFound => exact ih
    | ok => exact allowed asks
    | noSuchLock | failed => exact nofun

/-- The value comes from the storage, from a previous owner or from a backup. -/
theorem getKeyVal_stored (boot : w.bootstrapped) :
    (db.config.getKeyVal hkey name key).Safe (fun _ c reply _ => w.Allows c reply) (fun _ c => w.Fine c) ()
      fun r _ => ∀ v, r = .ok v → w.stored v := by
  refine (only_safe (getDMap_fine (db.place_lt _ _))).bind fun dm _ _ => ?_
  cases dm with
  | none => exact nofun
  | some r =>
    refine ⟨fine_of_none rfl, fun found _ allowed => ?_⟩
    cases found with
    | ok entry =>
      refine ⟨fine_of_none rfl, fun now _ _ v same => ?_⟩
      split at same
      · cases same
      · cases same
        exact allowed entry rfl
    | error e =>
      refine ⟨owners_fine boot false, fun owners _ _ => ?_⟩
      refine (askInTurn_stored (.getPrev name key) trivial _).bind fun answer _ stored => ?_
      cases answer with
      | keyNotFound => exact ⟨owners_fine boot true, fun _ _ _ => askInTurn_stored (.getBackup name key) trivial _⟩
      | ok | noSuchLock | failed => exact stored

end Handlers

section Operations

theorem locateHKey_returns {Q : Option Host → Prop} : Returns w.AllowsOp (db.locateHKey hkey) Q ↔
    Q none ∧ (w.bootstrapped → ∀ owners, w.Allows (.owners (db.config.place false hkey)) owners →
      Q owners.getLast?) := by
  refine returns_bind.trans (returns_awaitBootstrap.trans (and_congr returns_pure (imp_congr_right fun _ => ?_)))
  refine returns_bind.trans (returns_lookup.trans ((and_iff_right (db.place_lt false hkey)).trans ?_))
  exact returns_bind.trans (returns_node.trans (forall_congr' fun _ => imp_congr_right fun _ => returns_pure))

/-- The rule for what clients ask for: it fails, is passed on or runs here. -/
theorem onOwner_returns {op : ClientOp} {here : Prog Response} {Q : Response → Prop} (failed : Q .failed)
    (passed : w.bootstrapped → ∀ member reply, w.Allows (.request member (.external op)) reply → Q reply)
    (runs : w.bootstrapped →
      here.Safe (fun _ c reply _ => w.Allows c reply) (fun _ c => w.Fine c) () fun r _ => Q r) :
    Returns w.AllowsOp (db.onOwner hkey op here) Q := by
  refine returns_bind.2 (locateHKey_returns.2 ⟨returns_pure.2 failed, fun boot owners _ => ?_⟩)
  cases owners.getLast? with
  | none => exact returns_pure.2 failed
  | some member =>
    dsimp only
    split
    · exact perform_returns (runs boot)
    · exact returns_node.2 (passed boot member)

/-- The owner of the key is this member, for some replies. -/
theorem onOwner_runs {op : ClientOp} {here : Prog Response} {Q : Response → Prop} (boot : w.bootstrapped)
    (returns : Returns w.AllowsOp (db.onOwner hkey op here) Q) {r : Response}
    (run : here.Runs (fun _ c reply _ => w.Meets c reply) () r ()) : Q r := by
  have located :=
    (locateHKey_returns.1 (returns_bind.1 returns)).2 boot [db.config.this] fun _ => List.cons_ne_nil _ _
  simp only [List.getLast?_singleton, if_true] at located
  exact perform_runs located run

theorem put_serves : w.Serves (db.put name key value timeout) :=
  onOwner_returns trivial (fun _ _ _ _ => trivial) fun boot => only_safe (putKeyVal_fine boot)

theorem deleteKey_serves : w.Serves (db.deleteKey name key) :=
  onOwner_returns trivial (fun _ _ _ _ => trivial) fun boot => only_safe (deleteKey_fine boot)

theorem lockWithTimeout_serves : w.Serves (db.lockWithTimeout name key timeout) :=
  onOwner_returns trivial (fun _ _ _ _ => trivial) fun boot => only_safe (lockKey_fine boot)

theorem unlock_serves : w.Serves (db.unlock name key) := by
  refine returns_bind.2 (returns_awaitBootstrap.2 ⟨returns_pure.2 trivial, fun _ => ?_⟩)
  exact onOwner_returns trivial (fun _ _ _ _ => trivial) fun boot => only_safe (unlockKey_fine boot)

theorem get_stored : Returns w.AllowsOp (db.get name key) fun r => ∀ v, r = .ok v → w.bootstrapped ∧ w.stored v :=
  onOwner_returns nofun (fun boot _ _ allowed v same => ⟨boot, allowed trivial v same⟩) fun boot =>
    (getKeyVal_stored boot).mono fun _ _ stored v same => ⟨boot, stored v same⟩

theorem get_serves : w.Serves (db.get name key) := get_stored.mono fun _ _ => trivial

theorem locked_serves {body : Operation (Option α)} (serves : w.Serves body) :
    w.Serves (db.locked name key body) := by
  refine returns_bind.2 (lockWithTimeout_serves.mono fun answer _ => ?_)
  cases answer with
  | ok =>
    exact returns_deferred.2 (serves.mono fun _ _ =>
    returns_bind.2 (unlock_serves.mono fun _ _ => returns_pure.2 trivial))
  | keyNotFound | noSuchLock | failed => exact returns_pure.2 trivial

theorem putThen_serves {result : α} : w.Serves (db.putThen name key value result) := by
  refine returns_bind.2 (put_serves.mono fun answer _ => ?_)
  cases answer <;> exact returns_pure.2 trivial

theorem putCounter_serves {newval : Int64} : w.Serves (db.putCounter name key newval) := by
  unfold Db.putCounter
  cases db.serializer.marshal newval with
  | none => exact returns_pure.2 trivial
  | some nval => exact putThen_serves

theorem getPut_serves : w.Serves (db.getPut name key value) := by
  refine locked_serves (returns_bind.2 (get_serves.mono fun answer _ => ?_))
  cases answer with
  | ok | keyNotFound => exact putThen_serves
  | noSuchLock | failed => exact returns_pure.2 trivial

theorem meets_of_none {c : Cmd} {reply : c.Reply} (nowhere : c.place = none) (allowed : w.Allows c reply) :
    w.Meets c reply where
  has := db.has_of_none nowhere
  allowed := allowed
  owner := by
    cases c with
    | owners => cases nowhere
    | _ => rfl

theorem meets_load {backup : Bool} {reply : Option Ref} :
    w.Meets (.load (db.config.place backup hkey) name) reply where
  has q same := by
    cases same
    exact db.place_lt backup hkey
  allowed := trivial
  owner := rfl

/-- The lock of a key that is free is granted. -/
theorem lockKey_runs : (db.config.lockKey hkey name key timeout).Runs (fun _ c reply _ => w.Meets c reply) ()
    (.ok []) () :=
  ⟨some 0, (), meets_load, true, (), meets_of_none rfl trivial, (0 : Nat), (), meets_of_none rfl trivial, (), (),
    meets_of_none rfl trivial, (), (), meets_of_none rfl trivial, (), (), meets_of_none rfl trivial, rfl, rfl⟩

theorem getKeyVal_runs (stored : w.stored value) :
    (db.config.getKeyVal hkey name key).Runs (fun _ c reply _ => w.Meets c reply) () (.ok value) () := by
  refine ⟨some 0, (), meets_load, .ok ⟨key, 0, value⟩, (), meets_of_none rfl ?_, (0 : Int64), (),
    meets_of_none rfl trivial, rfl, rfl⟩
  rintro _ ⟨⟩
  exact stored

/-- An atomic operation on a counter returns unless it can meet a value that decodes to nil. -/
theorem atomicIncrDecr_serves_iff {opr : CounterOp} {delta : Int64} :
    w.Serves (db.atomicIncrDecr name key opr delta) ↔
    (w.bootstrapped → ∀ v, w.stored v → db.serializer.unmarshal v ≠ some .nil) := by
  constructor
  · intro serves boot v stored isNil
    have granted := onOwner_runs boot (returns_bind.1 serves) lockKey_runs
    have body := returns_bind.1 ((returns_deferred.1 granted).mono fun _ _ => trivial)
    have found := onOwner_runs boot body (getKeyVal_runs stored)
    simp only [isNil] at found
    exact returns_throw found
  · intro noNil
    refine locked_serves (returns_bind.2 (get_stored.mono fun answer stored => ?_))
    cases answer with
    | ok v =>
      obtain ⟨boot, stored⟩ := stored v rfl
      have notNil := noNil boot v stored
      dsimp only
      cases decoded : db.serializer.unmarshal v with
      | none => exact returns_pure.2 trivial
      | some value =>
        cases value with
        | int curval => exact putCounter_serves
        | nil => exact absurd decoded notNil
        | other => exact returns_pure.2 trivial
    | keyNotFound => exact putCounter_serves
    | noSuchLock | failed => exact returns_pure.2 trivial

theorem returns_free (c : OpCmd) {Q : c.Reply → Prop} [Nonempty c.Reply] (free : ∀ reply, w.AllowsOp c reply) :
    Returns w.AllowsOp (issue c) Q ↔ ∀ reply, Q reply := by
  refine returns_ask.trans ⟨fun ⟨_, all⟩ reply => all reply (free reply), fun all => ⟨?_, fun reply _ => all reply⟩⟩
  exact ⟨Classical.arbitrary _, free _⟩

/-- Routes are set up to the first ID that has no partition. -/
theorem setRoutes_serves_iff {rt : List (UInt64 × Route)} :
    w.Serves (db.setRoutes rt) ↔ ∀ e ∈ rt, e.1 < db.config.partitionCount := by
  induction rt with
  | nil => simp [Serves, Db.setRoutes]
  | cons e rt ih =>
    rw [List.forall_mem_cons, ← ih]
    refine returns_bind.trans (returns_lookup.trans (and_congr_right fun inside => ?_))
    refine returns_bind.trans ((returns_free (.setOwners _ _) fun _ => trivial).trans ?_)
    refine (forall_const Unit).trans (returns_bind.trans (returns_lookup.trans ((and_iff_right inside).trans ?_)))
    exact returns_bind.trans ((returns_free (.setOwners _ _) fun _ => trivial).trans (forall_const Unit))

theorem updateRouting_serves_iff {req : Message} : w.Serves (db.updateRoutingOperation req) ↔
    ∀ rt, db.unmarshalRouting req.value = some rt → ∀ e ∈ rt, e.1 < db.config.partitionCount := by
  have ends : w.Serves (do issue .bcancel; issue .fsck; pure Answer.success) :=
    returns_bind.2 ((returns_free .bcancel fun _ => trivial).2 fun _ =>
      returns_bind.2 ((returns_free .fsck fun _ => trivial).2 fun _ => returns_pure.2 trivial))
  unfold Db.updateRoutingOperation
  cases db.unmarshalRouting req.value with
  | none => exact iff_of_true (returns_pure.2 trivial) nofun
  | some rt =>
    simp only [Option.some.injEq, forall_eq']
    rw [← setRoutes_serves_iff (w := w)]
    constructor
    · exact fun serves => (returns_bind.1 serves).mono fun _ _ => trivial
    · exact fun serves => returns_bind.2 (serves.mono fun _ _ => ends)

theorem mergeBox_serves_iff {backup : Bool} {req : Message} : w.Serves (db.mergeBox backup req) ↔
    ∀ box, db.unmarshalBox req.value = some box →
      box.partID < db.config.partitionCount ∧ w.owned ⟨backup, box.partID⟩ := by
  unfold Db.mergeBox
  cases db.unmarshalBox req.value with
  | none => exact iff_of_true (returns_pure.2 trivial) nofun
  | some box =>
    simp only [Option.some.injEq, forall_eq']
    refine returns_bind.trans (returns_lookup.trans (and_congr_right fun inside => ?_))
    refine returns_bind.trans (returns_node.trans ⟨fun all => ?_, fun owned owners allowed => ?_⟩)
    · by_contra none_
      exact returns_throw (all [] fun owned => absurd owned none_)
    · have nonempty : owners.isEmpty = false := List.isEmpty_eq_false_iff.2 (allowed owned)
      have merged : (Config.mergeDMaps ⟨backup, box.partID⟩ box).Only w.Fine :=
        Config.mergeDMaps_only fine_of_object (fine_of_place rfl inside nofun)
          (fun _ => fine_of_place rfl inside nofun) fun _ _ _ => fine_of_none rfl
      simp only [nonempty]
      exact returns_map.2 (perform_serves merged)

theorem isEmpty_serves_iff {backup : Bool} {full : Answer} {req : Message} : w.Serves (db.isEmpty backup full req) ↔
    ∃ partID, req.extra = some (.isPartEmpty partID) ∧ partID < db.config.partitionCount := by
  refine returns_bind.trans (returns_assert.trans (exists_congr fun partID => and_congr Extra.bind_partID ?_))
  refine returns_bind.trans (returns_lookup.trans (and_iff_left (returns_bind.2 ?_)))
  refine (returns_free (.count _) fun _ => trivial).2 fun count => ?_
  split <;> exact returns_pure.2 trivial

theorem destroyPlaces_lt (cfg : Config) (mem : p ∈ cfg.destroyPlaces) : p.id < cfg.partitionCount := by
  obtain ⟨partID, below, at_⟩ := List.mem_flatMap.1 mem
  have inside : UInt64.ofNat partID < cfg.partitionCount := by
    rw [UInt64.lt_iff_toNat_lt, UInt64.toNat_ofNat']
    exact lt_of_le_of_lt (Nat.mod_le _ _) (List.mem_range.1 below)
  dsimp only at at_
  split at at_
  · rcases List.mem_pair.1 at_ with rfl | rfl <;> exact inside
  · cases List.mem_singleton.1 at_
    exact inside

theorem destroyDMapOperation_serves {req : Message} : w.Serves (db.destroyDMapOperation req) :=
  returns_map.2 (perform_serves (Config.destroyDMapOperation_only fine_of_object
    (fun _ mem => fine_of_place rfl (destroyPlaces_lt _ mem) nofun)
    (fun _ mem => fine_of_place rfl (destroyPlaces_lt _ mem) nofun)
    fun _ mem => fine_of_place rfl (destroyPlaces_lt _ mem) nofun))

theorem exDestroyOperation_serves {req : Message} : w.Serves (Db.exDestroyOperation req) := by
  have destroyed : w.Serves (Db.destroyDMap req.dmap) := by
    refine returns_bind.2 (returns_awaitBootstrap.2 ⟨returns_pure.2 trivial, fun _ => ?_⟩)
    refine returns_bind.2 ((returns_free .getMembers fun _ => trivial).2 fun members => ?_)
    exact returns_bind.2 ((returns_free (.destroyDMap _ _) fun _ => trivial).2 fun _ => returns_pure.2 trivial)
  refine returns_bind.2 (destroyed.mono fun done _ => ?_)
  cases done <;> exact returns_pure.2 trivial

theorem exGetPutOperation_serves {req : Message} : w.Serves (db.exGetPutOperation req) := by
  refine returns_bind.2 (getPut_serves.mono fun answer _ => ?_)
  cases answer <;> exact returns_pure.2 trivial

theorem exIncrDecr_serves_iff {req : Message} : w.Serves (db.exIncrDecrOperation req) ↔
    ∀ value, db.serializer.unmarshal req.value = some value → (∃ delta, value = .int delta) ∧
      (w.bootstrapped → ∀ v, w.stored v → db.serializer.unmarshal v ≠ some .nil) := by
  unfold Db.exIncrDecrOperation
  cases db.serializer.unmarshal req.value with
  | none => exact iff_of_true (returns_pure.2 trivial) nofun
  | some value =>
    simp only [Option.some.injEq, forall_eq']
    refine returns_bind.trans (returns_assert.trans ⟨?_, ?_⟩)
    · rintro ⟨delta, isInt, rest⟩
      cases value with
      | int n => exact ⟨⟨n, rfl⟩, atomicIncrDecr_serves_iff.1 ((returns_bind.1 rest).mono fun _ _ => trivial)⟩
      | nil | other => cases isInt
    · rintro ⟨⟨delta, rfl⟩, noNil⟩
      refine ⟨delta, rfl, returns_bind.2 ((atomicIncrDecr_serves_iff.2 noNil).mono fun newval _ => ?_)⟩
      cases newval with
      | none => exact returns_pure.2 trivial
      | some newval =>
        dsimp only
        cases db.serializer.marshal newval <;> exact returns_pure.2 trivial

theorem exPutEx_serves_iff {req : Message} :
    w.Serves (db.exPutExOperation req) ↔ ∃ ttl, req.extra = some (.putEx ttl) := by
  refine returns_bind.trans (returns_assert.trans (exists_congr fun ttl => ?_))
  rw [Extra.bind_putExTTL]
  exact and_iff_left (returns_map.2 put_serves)

theorem exLock_serves_iff {req : Message} : w.Serves (db.exLockWithTimeoutOperation req) ↔
    ∃ ttl, req.extra = some (.lockWithTimeout ttl) := by
  refine returns_bind.trans (returns_assert.trans (exists_congr fun ttl => ?_))
  rw [Extra.bind_lockTTL]
  exact and_iff_left (returns_map.2 lockWithTimeout_serves)

/-- Here the assertion comes after the lock, and only if there is a dmap. -/
theorem lockPrev_serves_iff {req : Message} : w.Serves (db.lockPrevOperation req) ↔
    ∃ ttl, req.extra = some (.lockWithTimeout ttl) := by
  have starts (r : Ref) (ttl : Int64) : w.Serves (do
      db.command (.go (.waitLockForTimeout r req.key ttl))
      pure Answer.success) :=
    returns_bind.2 ((returns_command (db.has_of_none rfl)).2 fun _ _ => ⟨rfl, returns_pure.2 trivial⟩)
  constructor
  · intro serves
    have found := perform_runs (returns_bind.1 serves) (a := some 0) ⟨some 0, (), meets_load, rfl, rfl⟩
    have locked := perform_runs (returns_bind.1 found) (a := ()) ⟨(0 : Nat), (), meets_of_none rfl trivial, (), (),
      meets_of_none rfl trivial, (), (), meets_of_none rfl trivial, rfl, rfl⟩
    obtain ⟨ttl, present, _⟩ := returns_assert.1 (returns_bind.1 locked)
    exact ⟨ttl, Extra.bind_lockTTL.1 present⟩
  · rintro ⟨ttl, present⟩
    refine returns_bind.2 ((perform_serves (getDMap_fine (db.place_lt _ _))).mono fun dm _ => ?_)
    cases dm with
    | none => exact returns_pure.2 trivial
    | some r =>
      have locks : (lockerLock r req.key).Only w.Fine :=
        lockerLock_only (fine_of_none rfl) (fun _ => fine_of_none rfl) fun _ => fine_of_none rfl
      refine returns_bind.2 ((perform_serves locks).mono fun _ _ => ?_)
      exact returns_bind.2 (returns_assert.2 ⟨ttl, Extra.bind_lockTTL.2 present, starts r ttl⟩)

/-- `Read` leaves no extra in the request for a backup. -/
theorem putBackup_serves {req : Message} (absent : req.extra = none) : w.Serves (db.putBackupOperation req) := by
  unfold Db.putBackupOperation
  rw [absent]
  refine returns_bind.2 ((perform_serves (getDMap_fine (db.place_lt _ _))).mono fun dm _ => ?_)
  cases dm with
  | none => exact returns_pure.2 trivial
  | some r =>
    refine returns_bind.2 (returns_pure.2 (returns_bind.2 ?_))
    refine (perform_serves (Config.ttlOf_only (fine_of_none rfl))).mono fun ttl _ => returns_bind.2 ?_
    refine (returns_command (db.has_of_none rfl)).2 fun err _ => ⟨rfl, ?_⟩
    cases err with
    | some _ => exact returns_pure.2 trivial
    | none =>
      refine returns_bind.2 ((perform_serves (Config.oplog_only (fine_of_none rfl))).mono fun _ _ => ?_)
      exact returns_pure.2 trivial

end Operations

end Surroundings

/-- The opcodes of the requests that come with an extra. -/
def OpCode.withExtra : List UInt8 :=
  [OpCode.exPutEx, OpCode.exLockWithTimeout, OpCode.lockPrev, OpCode.isPartEmpty, OpCode.isBackupEmpty]

theorem readExtra_cases {op : UInt8} {raw : Bytes} {extra : Option Extra} (read : readExtra op raw = .ok extra) :
    (∃ e, extra = some e ∧ e.Belongs op) ∨ (extra = none ∧ op ∉ OpCode.withExtra) := by
  have word {f : UInt64 → Option Extra} (mapped : (readWord raw).map f = .ok extra) : ∃ w, extra = f w := by
    cases word : readWord raw with
    | error e =>
      rw [word] at mapped
      cases mapped
    | ok w =>
      rw [word] at mapped
      cases mapped
      exact ⟨w, rfl⟩
  unfold readExtra at read
  split at read
  · next isPut =>
    obtain ⟨w, rfl⟩ := word read
    exact .inl ⟨_, rfl, isPut⟩
  split at read
  · next isLock =>
    obtain ⟨w, rfl⟩ := word read
    exact .inl ⟨_, rfl, isLock⟩
  split at read
  · next isPart =>
    obtain ⟨w, rfl⟩ := word read
    exact .inl ⟨_, rfl, isPart⟩
  · next noPut noLock noPart =>
    cases read
    exact .inr ⟨rfl, by simp [OpCode.withExtra, noPut, not_or.1 noLock, not_or.1 noPart]⟩

/-- The message is a request that announces an extra. -/
def Message.Announces (m : Message) : Prop := m.magic = magicReq ∧ 0 < m.extraLen

/-- An accepted message has the extra that belongs to its opcode if it announces one, and none otherwise. -/
theorem Message.extra_of_read {maxValueSize : Int} {conn rest : Bytes} {m : Message}
    (accepted : Message.read maxValueSize conn = .ok m rest) :
    (m.Announces ∧ ∃ e, m.extra = some e ∧ e.Belongs m.op) ∨
      (m.extra = none ∧ (m.op ∈ OpCode.withExtra → ¬ m.Announces)) := by
  obtain ⟨body, read⟩ := Message.extras_of_read accepted
  unfold Message.extras at read
  split at read
  · next announces =>
    rcases readExtra_cases read with ⟨e, present, belongs⟩ | ⟨absent, other⟩
    · exact .inl ⟨announces, e, present, belongs⟩
    · exact .inr ⟨absent, fun mem => absurd mem other⟩
  · next not =>
    exact .inr ⟨(Except.ok.inj read).symm, fun _ => not⟩

namespace Surroundings

variable {db : Db} (w : Surroundings db)

/-- The message has what the operation of its opcode takes for granted: an extra, an ID below the number of
partitions, a delta that is an `int`, and for a dmap that is moved a partition with owners. -/
structure Suits (m : Message) : Prop where
  extra : m.op ∈ OpCode.withExtra → m.magic = magicReq ∧ 0 < m.extraLen
  partition : m.op ∈ [OpCode.isPartEmpty, OpCode.isBackupEmpty] →
    ∀ partID, m.extra = some (.isPartEmpty partID) → partID < db.config.partitionCount
  delta : m.op ∈ [OpCode.exIncr, OpCode.exDecr] → ∀ value, db.serializer.unmarshal m.value = some value →
    (∃ delta, value = .int delta) ∧ (w.bootstrapped → ∀ v, w.stored v → db.serializer.unmarshal v ≠ some .nil)
  routing : m.op = OpCode.updateRouting → ∀ rt, db.unmarshalRouting m.value = some rt →
    ∀ e ∈ rt, e.1 < db.config.partitionCount
  moved : m.op = OpCode.moveDMap → ∀ box, db.unmarshalBox m.value = some box →
    box.partID < db.config.partitionCount ∧ w.owned ⟨false, box.partID⟩
  movedBackup : m.op = OpCode.backupMoveDMap → ∀ box, db.unmarshalBox m.value = some box →
    box.partID < db.config.partitionCount ∧ w.owned ⟨true, box.partID⟩

variable {w} {m : Message}

/-- The operations that need nothing but a key. -/
theorem suits_of_plain (plain : m.op ∉ OpCode.withExtra ++
    [OpCode.exIncr, OpCode.exDecr, OpCode.updateRouting, OpCode.moveDMap, OpCode.backupMoveDMap]) : w.Suits m := by
  rw [List.mem_append, not_or] at plain
  obtain ⟨noExtra, others⟩ := plain
  simp only [List.mem_cons, List.not_mem_nil, or_false, not_or] at others
  obtain ⟨noIncr, noDecr, noRouting, noMove, noBackup⟩ := others
  refine ⟨fun op => absurd op noExtra, fun op => absurd ?_ noExtra, fun op => ?_, fun op => absurd op noRouting,
    fun op => absurd op noMove, fun op => absurd op noBackup⟩
  · rcases List.mem_pair.1 op with op | op <;> rw [op] <;> decide
  · rcases List.mem_pair.1 op with op | op
    · exact absurd op noIncr
    · exact absurd op noDecr

section Suits

/-! What is left of the condition for each of the other opcodes. -/

theorem suits_iff_announces (takes : m.op = OpCode.exPutEx ∨ m.op = OpCode.exLockWithTimeout ∨
    m.op = OpCode.lockPrev) :
    w.Suits m ↔ m.Announces := by
  constructor
  · intro suits
    refine suits.extra ?_
    rcases takes with op | op | op <;> rw [op] <;> decide
  · intro announces
    refine ⟨fun _ => announces, ?_, ?_, ?_, ?_, ?_⟩ <;> intro op <;>
      rcases takes with same | same | same <;> rw [same] at op <;> exact absurd op (by decide)

theorem suits_iff_partition (takes : m.op = OpCode.isPartEmpty ∨ m.op = OpCode.isBackupEmpty) :
    w.Suits m ↔ m.Announces ∧ ∀ partID, m.extra = some (.isPartEmpty partID) → partID < db.config.partitionCount := by
  constructor
  · intro suits
    refine ⟨suits.extra ?_, suits.partition (List.mem_pair.2 takes)⟩
    rcases takes with op | op <;> rw [op] <;> decide
  · rintro ⟨announces, inside⟩
    refine ⟨fun _ => announces, fun _ => inside, ?_, ?_, ?_, ?_⟩ <;> intro op <;>
      rcases takes with same | same <;> rw [same] at op <;> exact absurd op (by decide)

theorem suits_iff_delta (takes : m.op = OpCode.exIncr ∨ m.op = OpCode.exDecr) : w.Suits m ↔
    ∀ value, db.serializer.unmarshal m.value = some value → (∃ delta, value = .int delta) ∧
      (w.bootstrapped → ∀ v, w.stored v → db.serializer.unmarshal v ≠ some .nil) := by
  refine ⟨fun suits => suits.delta (List.mem_pair.2 takes), fun delta => ?_⟩
  refine ⟨?_, ?_, fun _ => delta, ?_, ?_, ?_⟩ <;> intro op <;>
    rcases takes with same | same <;> rw [same] at op <;> exact absurd op (by decide)

theorem suits_iff_routing (takes : m.op = OpCode.updateRouting) : w.Suits m ↔
    ∀ rt, db.unmarshalRouting m.value = some rt → ∀ e ∈ rt, e.1 < db.config.partitionCount := by
  refine ⟨fun suits => suits.routing takes, fun inside => ?_⟩
  refine ⟨?_, ?_, ?_, fun _ => inside, ?_, ?_⟩ <;> intro op <;> rw [takes] at op <;> exact absurd op (by decide)

theorem suits_iff_moved (takes : m.op = OpCode.moveDMap) : w.Suits m ↔ ∀ box, db.unmarshalBox m.value = some box →
    box.partID < db.config.partitionCount ∧ w.owned ⟨false, box.partID⟩ := by
  refine ⟨fun suits => suits.moved takes, fun inside => ?_⟩
  refine ⟨?_, ?_, ?_, ?_, fun _ => inside, ?_⟩ <;> intro op <;> rw [takes] at op <;> exact absurd op (by decide)

theorem suits_iff_movedBackup (takes : m.op = OpCode.backupMoveDMap) : w.Suits m ↔
    ∀ box, db.unmarshalBox m.value = some box →
      box.partID < db.config.partitionCount ∧ w.owned ⟨true, box.partID⟩ := by
  refine ⟨fun suits => suits.movedBackup takes, fun inside => ?_⟩
  refine ⟨?_, ?_, ?_, ?_, ?_, fun _ => inside⟩ <;> intro op <;> rw [takes] at op <;> exact absurd op (by decide)

end Suits

section Accepted

variable {maxValueSize : Int} {conn rest : Bytes} (accepted : Message.read maxValueSize conn = .ok m rest)

include accepted

theorem announces_iff (takes : m.op ∈ OpCode.withExtra) : m.Announces ↔ ∃ e, m.extra = some e ∧ e.Belongs m.op := by
  rcases Message.extra_of_read accepted with ⟨announces, present⟩ | ⟨absent, silent⟩
  · exact iff_of_true announces present
  · refine iff_of_false (silent takes) ?_
    rintro ⟨e, present, _⟩
    cases absent.symm.trans present

theorem announces_iff_putEx (op : m.op = OpCode.exPutEx) : m.Announces ↔ ∃ ttl, m.extra = some (.putEx ttl) := by
  rw [announces_iff accepted (by rw [op]; decide), op]
  constructor
  · rintro ⟨e, present, belongs⟩
    cases e with
    | putEx ttl => exact ⟨ttl, present⟩
    | lockWithTimeout | isPartEmpty =>
      simp only [Extra.Belongs] at belongs
      exact absurd belongs (by decide)
  · rintro ⟨ttl, present⟩
    exact ⟨_, present, rfl⟩

theorem announces_iff_lock (op : m.op = OpCode.exLockWithTimeout ∨ m.op = OpCode.lockPrev) :
    m.Announces ↔ ∃ ttl, m.extra = some (.lockWithTimeout ttl) := by
  rw [announces_iff accepted (by rcases op with op | op <;> rw [op] <;> decide)]
  constructor
  · rintro ⟨e, present, belongs⟩
    cases e with
    | lockWithTimeout ttl => exact ⟨ttl, present⟩
    | putEx | isPartEmpty =>
      simp only [Extra.Belongs] at belongs
      rcases op with op | op <;> rw [op] at belongs <;> exact absurd belongs (by decide)
  · rintro ⟨ttl, present⟩
    exact ⟨_, present, op⟩

theorem announces_iff_isPartEmpty (op : m.op = OpCode.isPartEmpty ∨ m.op = OpCode.isBackupEmpty) :
    m.Announces ↔ ∃ partID, m.extra = some (.isPartEmpty partID) := by
  rw [announces_iff accepted (by rcases op with op | op <;> rw [op] <;> decide)]
  constructor
  · rintro ⟨e, present, belongs⟩
    cases e with
    | isPartEmpty partID => exact ⟨partID, present⟩
    | putEx | lockWithTimeout =>
      simp only [Extra.Belongs] at belongs
      rcases op with op | op <;> rw [op] at belongs <;> exact absurd belongs (by decide)
  · rintro ⟨partID, present⟩
    exact ⟨_, present, op⟩

theorem extra_of_other (op : m.op ∉ OpCode.withExtra) : m.extra = none := by
  rcases Message.extra_of_read accepted with ⟨_, e, _, belongs⟩ | ⟨absent, _⟩
  · refine absurd ?_ op
    cases e with
    | putEx =>
      simp only [Extra.Belongs] at belongs
      rw [belongs]
      decide
    | lockWithTimeout | isPartEmpty =>
      simp only [Extra.Belongs] at belongs
      rcases belongs with same | same <;> rw [same] <;> decide
  · exact absent

/-- The operation that is registered for the opcode of an accepted message returns a response, whatever it
meets, exactly if the message has what the operation takes for granted. -/
theorem registered_serves_iff {operation : Message → Operation Answer}
    (registered : (m.op, operation) ∈ db.registerOperations) : w.Serves (operation m) ↔ w.Suits m := by
  have plain {op : UInt8} (same : m.op = op) (other : op ∉ OpCode.withExtra ++
      [OpCode.exIncr, OpCode.exDecr, OpCode.updateRouting, OpCode.moveDMap, OpCode.backupMoveDMap])
      (serves : w.Serves (operation m)) : w.Serves (operation m) ↔ w.Suits m :=
    iff_of_true serves (suits_of_plain (same ▸ other))
  have partition {backup : Bool} {full : Answer} (op : m.op = OpCode.isPartEmpty ∨ m.op = OpCode.isBackupEmpty) :
      w.Serves (db.isEmpty backup full m) ↔ w.Suits m := by
    rw [isEmpty_serves_iff, suits_iff_partition op, announces_iff_isPartEmpty accepted op]
    constructor
    · rintro ⟨partID, present, inside⟩
      refine ⟨⟨partID, present⟩, fun other same => ?_⟩
      cases present.symm.trans same
      exact inside
    · rintro ⟨⟨partID, present⟩, inside⟩
      exact ⟨partID, present, inside partID present⟩
  simp only [Db.registerOperations, List.mem_cons, Prod.mk.injEq, List.not_mem_nil, or_false] at registered
  rcases registered with ⟨op, rfl⟩ | ⟨op, rfl⟩ | ⟨op, rfl⟩ | ⟨op, rfl⟩ | ⟨op, rfl⟩ | ⟨op, rfl⟩ | ⟨op, rfl⟩ |
    ⟨op, rfl⟩ | ⟨op, rfl⟩ | ⟨op, rfl⟩ | ⟨op, rfl⟩ | ⟨op, rfl⟩ | ⟨op, rfl⟩ | ⟨op, rfl⟩ | ⟨op, rfl⟩ | ⟨op, rfl⟩ |
    ⟨op, rfl⟩ | ⟨op, rfl⟩ | ⟨op, rfl⟩ | ⟨op, rfl⟩ | ⟨op, rfl⟩ | ⟨op, rfl⟩ | ⟨op, rfl⟩ | ⟨op, rfl⟩
  · exact plain op (by decide) (returns_map.2 put_serves)
  · rw [exPutEx_serves_iff, suits_iff_announces (.inl op), announces_iff_putEx accepted op]
  · exact plain op (by decide) (putBackup_serves (extra_of_other accepted (by rw [op]; decide)))
  · exact plain op (by decide) (returns_map.2 get_serves)
  · exact plain op (by decide) (returns_map.2 (perform_serves
      (Config.getPrevOperation_only fine_of_object (fine_of_place rfl (db.place_lt _ _) nofun))))
  · exact plain op (by decide) (returns_map.2 (perform_serves
      (Config.getBackupOperation_only fine_of_object (getDMap_fine (db.place_lt _ _)))))
  · exact plain op (by decide) (returns_map.2 deleteKey_serves)
  · exact plain op (by decide) (returns_map.2 (perform_serves
      (Config.deleteLocal_only fine_of_object (getDMap_fine (db.place_lt _ _)))))
  · exact plain op (by decide) (returns_map.2 (perform_serves
      (Config.deleteLocal_only fine_of_object (getDMap_fine (db.place_lt _ _)))))
  · rw [exLock_serves_iff, suits_iff_announces (.inr (.inl op)), announces_iff_lock accepted (.inl op)]
  · exact plain op (by decide) (returns_map.2 unlock_serves)
  · exact plain op (by decide) (returns_map.2 (perform_serves
      (Config.findLockOperation_only fine_of_object (getDMap_fine (db.place_lt _ _)))))
  · rw [lockPrev_serves_iff, suits_iff_announces (.inr (.inr op)), announces_iff_lock accepted (.inr op)]
  · exact plain op (by decide) (returns_map.2 (perform_serves
      (Config.unlockPrevOperation_only fine_of_object (getDMap_fine (db.place_lt _ _)))))
  · exact plain op (by decide) exDestroyOperation_serves
  · exact plain op (by decide) destroyDMapOperation_serves
  · rw [exIncrDecr_serves_iff, suits_iff_delta (.inl op)]
  · rw [exIncrDecr_serves_iff, suits_iff_delta (.inr op)]
  · exact plain op (by decide) exGetPutOperation_serves
  · rw [updateRouting_serves_iff, suits_iff_routing op]
  · exact mergeBox_serves_iff.trans (suits_iff_moved op).symm
  · exact mergeBox_serves_iff.trans (suits_iff_movedBackup op).symm
  · exact partition (.inl op)
  · exact partition (.inr op)

end Accepted

end Surroundings

/-- A member with one partition that stores nothing. -/
def soloDb : Db where
  config := soloConfig
  sum64 _ := 0
  serializer := ⟨fun _ => none, fun _ => none⟩
  unmarshalRouting _ := none
  unmarshalBox _ := none
  hasPartitions := by decide

def soloSurroundings : Surroundings soloDb where
  bootstrapped := True
  owned p := p.backup = false
  stored _ := False
  ready _ _ _ := rfl

/-- A put for 5 nanoseconds. -/
theorem putEx_serves_five : ∃ m, Message.read 1048576
      [0xE2, 1, 0, 1, 0, 1, 8, 0, 0, 0, 0, 11, 0, 0, 0, 0, 0, 0, 0, 5, 100, 107, 118] = .ok m [] ∧
    soloSurroundings.Serves (soloDb.exPutExOperation m) := by
  have accepted : Message.read 1048576
      [0xE2, 1, 0, 1, 0, 1, 8, 0, 0, 0, 0, 11, 0, 0, 0, 0, 0, 0, 0, 5, 100, 107, 118] =
        .ok ⟨⟨0xE2, 1, 1, 1, 8, 0, 11⟩, some (.putEx 5), [100], [107], [118]⟩ [] := by decide
  refine ⟨_, accepted, (Surroundings.registered_serves_iff accepted (.tail _ (.head _))).2 ?_⟩
  exact (Surroundings.suits_iff_announces (.inl rfl)).2 ⟨rfl, by decide⟩

/-- A put with a timeout that comes without its extra, and a question about a partition that does not exist. -/
theorem accepted_requests_panic :
    (∃ m, Message.read 1048576 [0xE2, 1, 0, 0, 0, 0, 0, 0, 0, 0, 0, 0] = .ok m [] ∧ ∀ db : Db,
      (m.op, db.exPutExOperation) ∈ db.registerOperations ∧ db.exPutExOperation m = throw .interfaceConversion) ∧
    ∃ m, Message.read 1048576 [0xE2, 22, 0, 0, 0, 0, 8, 0, 0, 0, 0, 8, 255, 255, 255, 255, 255, 255, 255, 255] =
        .ok m [] ∧ ∀ db : Db,
      (m.op, db.isPartEmptyOperation) ∈ db.registerOperations ∧ db.isPartEmptyOperation m = throw .nilPartition := by
  refine ⟨⟨⟨⟨0xE2, 1, 0, 0, 0, 0, 0⟩, none, [], [], []⟩, by decide, fun db => ⟨.tail _ (.head _), rfl⟩⟩, ?_⟩
  refine ⟨⟨⟨0xE2, 22, 0, 0, 8, 0, 8⟩, some (.isPartEmpty 0xFFFFFFFFFFFFFFFF), [], [], []⟩, by decide,
    fun db => ⟨?_, ?_⟩⟩
  · simp [Db.registerOperations, OpCode.isPartEmpty]
  · have noPartition : ¬ (0xFFFFFFFFFFFFFFFF : UInt64) < db.config.partitionCount := by
      rw [UInt64.not_lt, UInt64.le_iff_toNat_le]
      exact Nat.le_of_lt_succ (UInt64.toNat_lt _)
    have missing : db.lookup false 0xFFFFFFFFFFFFFFFF = throw .nilPartition := if_neg noPartition
    change (db.lookup false 0xFFFFFFFFFFFFFFFF >>= _) = _
    rw [missing]
    rfl

end Olric
