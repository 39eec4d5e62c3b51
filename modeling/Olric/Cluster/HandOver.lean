import Olric.Cluster.Rules
import Olric.Cluster.Wire

namespace Olric

open Program

namespace Config

variable (cfg : Config)

/-- The part of `getKeyVal` after the dmap has been found. -/
def readLocal (hkey : UInt64) (name key : Bytes) : Option Ref → Prog Response
  | none => .ret .failed
  | some r => .call (.get r hkey) fun
    | .ok entry => answerEntry entry
    | .error _ => cfg.getFromOthers hkey name key

/-- The part of `getKeyVal` after the owners list has been read. -/
def askPrevious (hkey : UInt64) (name key : Bytes) (hosts : List Host) : Prog Response :=
  (askInTurn (.getPrev name key) hosts).bind fun
    | .keyNotFound => .call (.owners (cfg.place true hkey)) fun backups => askInTurn (.getBackup name key) backups
    | answer => .ret answer

theorem getKeyVal_eq (hkey : UInt64) (name key : Bytes) : cfg.getKeyVal hkey name key =
    (cfg.getDMap (cfg.place false hkey) name).bind (cfg.readLocal hkey name key) := rfl

theorem getFromOthers_eq (hkey : UInt64) (name key : Bytes) : cfg.getFromOthers hkey name key =
    .call (.owners (cfg.place false hkey)) fun owners => cfg.askPrevious hkey name key owners.dropLast.reverse := rfl

end Config

/-- What a program has learnt about the dmap object under a name. It sends no requests. -/
def finds (p : Place) (name : Bytes) : Discipline Cmd Cmd.Reply (Option Ref) where
  allows _ c := c.outgoing = none
  after known c reply :=
    match c, reply with
    | .load p' name', reply => if p' = p ∧ name' = name then reply else known
    | .store p' name' r, _ => if p' = p ∧ name' = name then some r else known
    | _, _ => known

section

variable {cfg : Config} {p : Place} {name : Bytes}

theorem finds_load (known reply : Option Ref) : (finds p name).after known (.load p name) reply = reply := by
  simp [finds]

theorem snapshotCall_finds {call : Prog Bool} {known : Option Ref}
    (follows : call.Follows (finds p name) known fun _ known' => known' = known) :
    (cfg.snapshotCall call).Follows (finds p name) known fun _ known' => known' = known := by
  unfold Config.snapshotCall
  split
  · exact follows
  · rfl

theorem createFresh_finds {known : Option Ref} :
    (cfg.createFresh p name).Follows (finds p name) known fun dm known' => ∀ r, dm = some r → known' = some r := by
  refine ⟨rfl, ?_⟩
  rintro (_ | r)
  · exact nofun
  · have register (known : Option Ref) : (act (.register p name r)).Follows (finds p name) known
        fun _ known' => known' = known := ⟨rfl, fun _ => rfl⟩
    refine ⟨rfl, fun _ => (snapshotCall_finds (register _)).bind ?_⟩
    rintro (_ | _) known' _
    · exact nofun
    · refine ⟨rfl, fun _ => ⟨rfl, fun _ => ?_⟩⟩
      rintro r' ⟨⟩
      simp [finds]

theorem getDMap_finds :
    (cfg.getDMap p name).Follows (finds p name) none fun dm known => ∀ r, dm = some r → known = some r := by
  refine ⟨rfl, ?_⟩
  rintro (_ | r)
  · refine ⟨rfl, fun _ => ⟨rfl, ?_⟩⟩
    rintro (_ | r)
    · exact createFresh_finds.bind fun dm known learnt => ⟨rfl, fun _ => learnt⟩
    · refine ⟨rfl, fun _ => ?_⟩
      rintro r' ⟨⟩
      exact finds_load _ _
  · rintro r' ⟨⟩
    exact finds_load _ _

end

/-- A key of a partition that has a previous and a primary owner and no backups. Its name and the key fit
into the header of a request. -/
structure HandedOver where
  members : Members
  maxValueSize : Int
  partID : UInt64
  name : Bytes
  key : Bytes
  sizes : 0 ≤ maxValueSize
  nameShort : name.length < 65536
  keyShort : key.length < 65536
  previous : Host
  primary : Host
  distinct : previous ≠ primary
  owners : members.routing ⟨false, partID⟩ = [previous, primary]
  placed : ∀ host, (members.config host).place false (getHKey members.sum64 name key) = ⟨false, partID⟩
  noBackups : ∀ host, (members.config host).backupCount = 0

namespace HandedOver

variable (o : HandedOver)

def place : Place := ⟨false, o.partID⟩

def hkey : UInt64 := getHKey o.members.sum64 o.name o.key

/-- A read of the key on the primary owner. -/
def getKeyVal : Prog Response := (o.members.config o.primary).getKeyVal o.hkey o.name o.key

/-- The read has missed the key in the storage of the primary owner. -/
def getFromOthers : Prog Response := (o.members.config o.primary).getFromOthers o.hkey o.name o.key

/-- The read asks the previous owner. -/
def askPrevious : Prog Response := (o.members.config o.primary).askPrevious o.hkey o.name o.key [o.previous]

/-- The look-up of the previous owner. -/
def getPrevOperation : Prog Response := (o.members.config o.previous).getPrevOperation o.hkey o.name

/-- Reads and puts of the key on the primary owner, and moves of its dmap. -/
inductive Starts : Host → Prog Response → Prop
  | get : Starts o.primary o.getKeyVal
  | put (value : Bytes) (timeout : Int64) :
      Starts o.primary ((o.members.config o.primary).putKeyVal o.hkey o.name o.key value timeout)
  | move : Starts o.previous (answered ((o.members.config o.previous).moveStored o.place o.name o.primary))

/-- Without backups there are no asynchronous ones either. Requests are served as they arrive. -/
def rules : Network.Rules Cmd Cmd.Reply Host Request Response Node :=
  { o.members.rules o.Starts with
    starts := o.Starts
    handle := fun host => (o.members.config host).serve o.members.sum64 o.maxValueSize }

def Stores (s : Node) (entry : VData) : Prop := s.Stores o.place o.name o.hkey entry

/-- The key is stored on an owner and has not expired at any time of the clock, which shows the
times of the run. -/
structure KeyKept (clock : Set Int64) (net : Cluster) (label : ClusterLabel) : Prop where
  stored : ∃ host entry, (host = o.previous ∨ host = o.primary) ∧ o.Stores (net.nodes host) entry
  fresh : ∀ host entry, host = o.previous ∨ host = o.primary → o.Stores (net.nodes host) entry →
    ∀ now ∈ clock, isKeyExpired now entry.ttl = false
  clock : ∀ tid now, label = .perform tid .now now → now ∈ clock

/-- A read has missed the key on the primary owner, and the previous owner has not looked it up yet. -/
inductive Pending (net : Cluster) : Prop
  | missed {tid calls caller} (found : net.threads tid = some ⟨o.primary, o.getFromOthers, calls, caller⟩)
  | asking {tid caller} (found : net.threads tid = some ⟨o.primary, o.askPrevious, none, caller⟩)
  | sent {tid calls caller} (found : net.threads tid = some ⟨o.primary, o.askPrevious, some calls, caller⟩)
      (sent : ∀ call ∈ calls, call.state = .sent)
  | loading {tid calls caller} (found : net.threads tid = some ⟨o.previous, o.getPrevOperation, calls, caller⟩)
  | reading {tid r calls caller} (found : net.threads tid = some ⟨o.previous, Config.answerGet r o.hkey,
      calls, caller⟩)

/-- The commands that take the key, or its dmap, away from a member. -/
def Takes (s : Node) : Cmd → Prop
  | .remove p name => p = o.place ∧ name = o.name
  | .delete r _ | .close r => s.Has o.place o.name r
  | _ => False

/-- The previous owner gives nothing up while a read is pending, and no dmap object is stored over
another one. -/
structure LooksFirst (net : Cluster) (label : ClusterLabel) : Prop where
  takes : ∀ tid c reply p caller, label = .perform tid c reply →
    net.threads tid = some ⟨o.previous, p, none, caller⟩ → o.Takes (net.nodes o.previous) c → ¬ o.Pending net
  stores : ∀ tid host r p caller, label = .perform tid (.store o.place o.name r) () →
    net.threads tid = some ⟨host, p, none, caller⟩ → ∀ r', ¬ (net.nodes host).Has o.place o.name r'

/-- The requests of these programs. Only the previous owner gives dmaps up, and nothing is put there. -/
def Fits (dst : Host) : Request → Prop
  | .getPrev name key | .deletePrev name key | .getBackup name key => name = o.name ∧ key = o.key
  | .moveDMap .. => dst ≠ o.previous
  | _ => False

def Allowed (host : Host) : Cmd → Prop
  | .remove .. => host ≠ o.primary
  | .put .. => host ≠ o.previous
  | .request dst req => o.Fits dst req
  | .requestAll dst req => ∀ host ∈ dst, o.Fits host req
  | _ => True

end HandedOver

section

variable {o : HandedOver} {host : Host} {cfg : Config} {p : Place} {name : Bytes} {r : Ref} {α : Type}

theorem allowed_of_object (c : Cmd) (object : c.OnObject) : o.Allowed host c := by
  cases c <;> first | exact object.elim | trivial

theorem getDMap_allowed : (cfg.getDMap p name).Only (o.Allowed host) :=
  Config.getDMap_only trivial trivial trivial trivial (fun _ => trivial) (fun _ => trivial) (fun _ => trivial) trivial

theorem getKeyVal_allowed {hkey : UInt64} : (cfg.getKeyVal hkey o.name o.key).Only (o.Allowed host) :=
  Config.getKeyVal_only allowed_of_object getDMap_allowed
    (Config.getFromOthers_only (fun _ => trivial) (fun _ => ⟨rfl, rfl⟩) fun _ => ⟨rfl, rfl⟩)

theorem putKeyVal_allowed {hkey : UInt64} {value : Bytes} {timeout : Int64} (noBackups : cfg.backupCount = 0)
    (puts : host ≠ o.previous) : (cfg.putKeyVal hkey o.name o.key value timeout).Only (o.Allowed host) := by
  have backUp : cfg.backUp hkey o.name o.key value timeout = .ret true := by simp [Config.backUp, noBackups]
  refine Config.putKeyVal_only allowed_of_object getDMap_allowed ?_ (fun _ _ => puts)
    (Config.purgeOldVersions_only trivial fun _ => ⟨rfl, rfl⟩)
  rw [backUp]
  exact .ret _

theorem moveStored_allowed {owner : Host} (away : owner ≠ o.previous) (here : host ≠ o.primary) :
    (cfg.moveStored p name owner).Only (o.Allowed host) := by
  refine .call trivial fun found => ?_
  cases found with
  | none => exact .ret _
  | some r => exact Config.moveDMap_only allowed_of_object (fun _ => away) here trivial trivial

/-- These requests arrive as they are sent. -/
theorem HandedOver.Fits.arrives {req : Request} (fits : o.Fits host req) : req.arrives o.maxValueSize = some req := by
  cases req with
  | getPrev name key | deletePrev name key | getBackup name key =>
    obtain ⟨rfl, rfl⟩ := fits
    exact Request.Fits.arrives (Request.fits_of_short rfl o.nameShort o.keyShort o.sizes)
  | moveDMap => rfl
  | putBackup | deleteBackup | findLock | lockPrev | unlockPrev | external => exact fits.elim

theorem serve_allowed {sum64 : Bytes → UInt64} {req : Request} (fits : o.Fits host req) :
    (cfg.serve sum64 o.maxValueSize req).Only (o.Allowed host) := by
  rw [Config.serve_of_arrives fits.arrives]
  cases req with
  | deletePrev => exact Config.deleteLocal_only allowed_of_object getDMap_allowed
  | getPrev => exact Config.getPrevOperation_only allowed_of_object trivial
  | getBackup => exact Config.getBackupOperation_only allowed_of_object getDMap_allowed
  | moveDMap => exact Config.mergeDMaps_only allowed_of_object trivial (fun _ => trivial) fun _ _ _ => fits
  | putBackup | deleteBackup | findLock | lockPrev | unlockPrev | external => exact fits.elim

theorem HandedOver.Starts.only {p : Prog Response} (starts : o.Starts host p) : p.Only (o.Allowed host) := by
  cases starts with
  | get => exact getKeyVal_allowed
  | put => exact putKeyVal_allowed (o.noBackups _) o.distinct.symm
  | move => exact (moveStored_allowed o.distinct.symm o.distinct).bind fun _ => trivial

end

end Olric
