import Olric.Cluster.HandOver

namespace Olric

open Program

namespace HandedOver

variable {o : HandedOver} {clock : Set Int64} {net net' : Cluster} {label : ClusterLabel} {tid : Tid}

theorem getElem?_singleton {α : Type} {a b : α} {i : Nat} (found : [a][i]? = some b) : i = 0 ∧ a = b := by
  cases i with
  | zero => exact ⟨rfl, Option.some.inj found⟩
  | succ i => simp at found

/-- Where the look-up on the previous owner is, and what it has found. -/
inductive Looking (o : HandedOver) (clock : Set Int64) (net : Cluster) : Prog Response → Prop
  | loading {entry} (there : o.Stores (net.nodes o.previous) entry) : Looking o clock net o.getPrevOperation
  | reading {r entry} (has : (net.nodes o.previous).Has o.place o.name r)
      (there : o.Stores (net.nodes o.previous) entry) : Looking o clock net (Config.answerGet r o.hkey)
  | answering {entry : VData} (fresh : ∀ now ∈ clock, isKeyExpired now entry.ttl = false) :
      Looking o clock net (Config.answerEntry entry)
  | done {resp} (found : resp ≠ .keyNotFound) : Looking o clock net (.ret resp)

/-- Where a read on the primary owner is. Once it has missed the key there, the previous owner has
it until it has been looked up. -/
inductive Getting (o : HandedOver) (clock : Set Int64) (net : Cluster) (tid : Tid) :
    Prog Response → Option (List (RemoteCall Host Request Response)) → Prop
  | finding {q : Prog (Option Ref)} {known}
      (follows : q.Follows (finds o.place o.name) known fun dm known => ∀ r, dm = some r → known = some r)
      (has : ∀ r, known = some r → (net.nodes o.primary).Has o.place o.name r) :
      Getting o clock net tid (q.bind ((o.members.config o.primary).readLocal o.hkey o.name o.key)) none
  | answering {entry : VData} (fresh : ∀ now ∈ clock, isKeyExpired now entry.ttl = false) :
      Getting o clock net tid (Config.answerEntry entry) none
  | missed {entry} (there : o.Stores (net.nodes o.previous) entry) : Getting o clock net tid o.getFromOthers none
  | asking {entry} (there : o.Stores (net.nodes o.previous) entry) : Getting o clock net tid o.askPrevious none
  | sent {entry} (there : o.Stores (net.nodes o.previous) entry) :
      Getting o clock net tid o.askPrevious (some [⟨o.previous, .getPrev o.name o.key, .sent⟩])
  | serving {handler p} (found : net.threads handler = some ⟨o.previous, p, none, some tid⟩)
      (looking : Looking o clock net p) :
      Getting o clock net tid o.askPrevious (some [⟨o.previous, .getPrev o.name o.key, .serving handler⟩])
  | answered {resp} (found : resp ≠ .keyNotFound) :
      Getting o clock net tid o.askPrevious (some [⟨o.previous, .getPrev o.name o.key, .answered resp⟩])
  | done {resp} (found : resp ≠ .keyNotFound) : Getting o clock net tid (.ret resp) none

/-- What every step of a run comes with. -/
structure Allows (o : HandedOver) (clock : Set Int64) (net : Cluster) (label : ClusterLabel) (net' : Cluster) :
    Prop where
  kept : o.KeyKept clock net label
  first : o.LooksFirst net label
  only : net.Only o.Allowed o.Fits
  step : Network.Step o.rules net label net'

/-- A member keeps its dmap object as long as none of its goroutines removes the name. -/
theorem Allows.keeps_object {host : Host} {r : Ref} (allows : Allows o clock net label net')
    (stays : ∀ t reply next caller, label = .perform t (.remove o.place o.name) reply →
      net.threads t ≠ some ⟨host, .call (.remove o.place o.name) next, none, caller⟩)
    (has : (net.nodes host).Has o.place o.name r) : (net'.nodes host).Has o.place o.name r := by
  rcases allows.step.node_cases host with same | ⟨t, c, next, caller, reply, performs, running, exec, _⟩
  · rwa [same]
  · refine Node.exec_has exec has ?_ ?_
    · intro removes
      subst removes
      exact stays t reply next caller performs running
    · intro r' stores
      subst stores
      exact absurd has (allows.first.stores t _ r' _ _ performs running r)

theorem Allows.primary_has {r : Ref} (allows : Allows o clock net label net')
    (has : (net.nodes o.primary).Has o.place o.name r) : (net'.nodes o.primary).Has o.place o.name r :=
  allows.keeps_object (fun _ _ _ _ _ running => (allows.only _ _ running).1.1 rfl) has

/-- While a read is pending, the previous owner keeps its dmap object. -/
theorem Allows.previous_has {r : Ref} (allows : Allows o clock net label net') (pending : o.Pending net)
    (has : (net.nodes o.previous).Has o.place o.name r) : (net'.nodes o.previous).Has o.place o.name r :=
  allows.keeps_object (fun t _ _ _ performs running =>
    allows.first.takes t _ _ _ _ performs running ⟨rfl, rfl⟩ pending) has

/-- While a read is pending, the previous owner keeps the key. -/
theorem Allows.previous_stores {entry : VData} (allows : Allows o clock net label net') (pending : o.Pending net)
    (there : o.Stores (net.nodes o.previous) entry) : o.Stores (net'.nodes o.previous) entry := by
  rcases allows.step.node_cases o.previous with same | ⟨t, c, next, caller, reply, rfl, running, exec, _⟩
  · rwa [same]
  · have keeps : ¬ o.Takes (net.nodes o.previous) c :=
      fun takes => allows.first.takes t c reply _ _ rfl running takes pending
    refine Node.exec_stores exec there ?_ ?_ ?_ ?_ ?_
    · rintro rfl
      exact keeps ⟨rfl, rfl⟩
    · rintro r rfl
      obtain ⟨r', _, has, _⟩ := there
      exact allows.first.stores t _ r _ _ rfl running r' has
    · rintro r hkey value rfl
      exact (allows.only _ _ running).1.1 rfl
    · rintro r hkey has rfl
      exact keeps has
    · rintro r has rfl
      exact keeps has

theorem Allows.previous_same {c : Cmd} {reply : c.Reply} {p : Prog Response}
    {calls : Option (List (RemoteCall Host Request Response))} {caller : Option Tid}
    (allows : Allows o clock net (.perform tid c reply) net')
    (found : net.threads tid = some ⟨o.primary, p, calls, caller⟩) :
    net'.nodes o.previous = net.nodes o.previous := by
  rcases allows.step.node_cases o.previous with same | ⟨t, c, next, caller, reply, performs, running, _⟩
  · exact same
  · cases performs
    exact absurd (congrArg Activity.host (Option.some.inj (running.symm.trans found))) o.distinct

theorem KeyKept.answers {entry : VData} {now : Int64} (fresh : ∀ now ∈ clock, isKeyExpired now entry.ttl = false)
    (kept : o.KeyKept clock net (.perform tid .now now)) :
    (if isKeyExpired now entry.ttl then Response.keyNotFound else .ok entry.value) ≠ .keyNotFound := by
  simp [fresh now (kept.clock tid now rfl)]

theorem Looking.found {resp : Response} (looking : Looking o clock net (.ret resp)) : resp ≠ .keyNotFound := by
  cases looking
  assumption

theorem Looking.step {handler : Tid} {p : Prog Response} (looking : Looking o clock net p)
    (allows : Allows o clock net label net') (found : net.threads handler = some ⟨o.previous, p, none, some tid⟩) :
    ∃ p', net'.threads handler = some ⟨o.previous, p', none, some tid⟩ ∧ Looking o clock net' p' := by
  obtain ⟨a, found', moves⟩ := allows.step.moves found
  cases looking with
  | loading there =>
    have there' := allows.previous_stores (.loading found) there
    cases moves with
    | forks forks => cases forks
    | stays => exact ⟨_, found', .loading there'⟩
    | @performs _ _ _ _ reply _ exec =>
      obtain ⟨⟨rfl, _⟩, _⟩ := exec
      obtain ⟨r, dm, has, _⟩ := there
      have loaded :
          ((net.nodes o.previous).partition ((o.members.config o.previous).place false o.hkey)).m.lookup o.name =
              some r := by
        rw [hkey, o.placed]
        exact has
      rw [loaded] at found'
      exact ⟨_, found', .reading (allows.previous_has (.loading found) has) there'⟩
    | sends away => cases away
  | @reading r entry has there =>
    cases moves with
    | forks forks => cases forks
    | stays =>
      exact ⟨_, found', .reading (allows.previous_has (.reading found) has)
        (allows.previous_stores (.reading found) there)⟩
    | @performs _ _ _ _ reply _ exec =>
      obtain ⟨⟨dm, stored, get, _⟩, _⟩ := exec
      have fresh := allows.kept.fresh o.previous entry (.inl rfl) there
      obtain ⟨r', dm', has', stored', get'⟩ := there
      cases has.symm.trans has'
      cases stored.symm.trans stored'
      cases get.symm.trans get'
      exact ⟨_, found', .answering fresh⟩
    | sends away => cases away
  | answering fresh =>
    cases moves with
    | forks forks => cases forks
    | stays => exact ⟨_, found', .answering fresh⟩
    | performs => exact ⟨_, found', .done (KeyKept.answers fresh allows.kept)⟩
    | sends away => cases away
  | done resp =>
    cases moves with
    | stays => exact ⟨_, found', .done resp⟩

/-- The object a program has learnt about is there after its command, too. -/
theorem Allows.learns {c : Cmd} {reply : c.Reply} {known : Option Ref}
    (allows : Allows o clock net (.perform tid c reply) net')
    (exec : (net.nodes o.primary).exec tid c reply (net'.nodes o.primary))
    (has : ∀ r, known = some r → (net.nodes o.primary).Has o.place o.name r) :
    ∀ r, (finds o.place o.name).after known c reply = some r → (net'.nodes o.primary).Has o.place o.name r := by
  have old (r : Ref) (learnt : known = some r) : (net'.nodes o.primary).Has o.place o.name r :=
    allows.primary_has (has r learnt)
  intro r learnt
  cases c
  case load p name =>
    dsimp only [finds] at learnt
    split at learnt
    · rename_i here
      obtain ⟨rfl, rfl⟩ := here
      obtain ⟨rfl, same⟩ := exec
      rw [same]
      exact learnt
    · exact old r learnt
  case store p name r' =>
    dsimp only [finds] at learnt
    split at learnt
    · rename_i here
      obtain ⟨rfl, rfl⟩ := here
      cases learnt
      have after : net'.nodes o.primary = _ := exec
      rw [after]
      simp [Node.Has, Node.setPartition]
    · exact old r learnt
  all_goals exact old r learnt

/-- The goroutine of the read, wherever it is. -/
def Gets (o : HandedOver) (clock : Set Int64) (net : Cluster) (tid : Tid) : Prop :=
  ∃ p calls, net.threads tid = some ⟨o.primary, p, calls, none⟩ ∧ Getting o clock net tid p calls

/-- The read looks for the dmap on the primary owner, and for the key in it. -/
theorem Allows.finds {q : Prog (Option Ref)} {known : Option Ref} (allows : Allows o clock net label net')
    (follows : q.Follows (finds o.place o.name) known fun dm known => ∀ r, dm = some r → known = some r)
    (has : ∀ r, known = some r → (net.nodes o.primary).Has o.place o.name r)
    (found : net.threads tid =
      some ⟨o.primary, q.bind ((o.members.config o.primary).readLocal o.hkey o.name o.key), none, none⟩) :
    Gets o clock net' tid := by
  obtain ⟨a, found', moves⟩ := allows.step.moves found
  have has' (r : Ref) (learnt : known = some r) : (net'.nodes o.primary).Has o.place o.name r :=
    allows.primary_has (has r learnt)
  rcases q with dm | ⟨c, next⟩
  · cases dm with
    | none =>
      cases moves with
      | stays => exact ⟨_, _, found', .done nofun⟩
    | some r =>
      cases moves with
      | forks forks => cases forks
      | stays => exact ⟨_, _, found', .finding follows has'⟩
      | @performs _ _ _ _ reply _ exec =>
        have here := has r (follows r rfl)
        obtain ⟨⟨dm, stored, get, same⟩, _⟩ := exec
        cases reply with
        | ok entry =>
          have stores : o.Stores (net.nodes o.primary) entry := ⟨r, dm, here, stored, get⟩
          exact ⟨_, _, found', .answering (allows.kept.fresh _ entry (.inr rfl) stores)⟩
        | error e =>
          -- the key is on one of the owners, and not on this one
          obtain ⟨host, entry, rfl | rfl, there⟩ := allows.kept.stored
          · rw [← allows.previous_same found] at there
            exact ⟨_, _, found', .missed there⟩
          · obtain ⟨r', dm', here', stored', get'⟩ := there
            cases here.symm.trans here'
            cases stored.symm.trans stored'
            cases get.symm.trans get'
      | sends away => cases away
  · cases moves with
    | forks forks => cases forks
    | stays => exact ⟨_, _, found', .finding follows has'⟩
    | @performs _ _ _ _ reply _ exec => exact ⟨_, _, found', .finding (follows.2 reply) (allows.learns exec.1 has)⟩
    | sends away => cases away.symm.trans follows.1

/-- The read asks the owners of the partition, of whom the previous one has the key. -/
theorem Allows.asks {entry : VData} (allows : Allows o clock net label net')
    (there : o.Stores (net.nodes o.previous) entry)
    (found : net.threads tid = some ⟨o.primary, o.getFromOthers, none, none⟩) : Gets o clock net' tid := by
  obtain ⟨a, found', moves⟩ := allows.step.moves found
  have there' := allows.previous_stores (.missed found) there
  rw [getFromOthers, Config.getFromOthers_eq] at moves
  cases moves with
  | forks forks => cases forks
  | stays => exact ⟨_, _, found', .missed there'⟩
  | @performs _ _ _ _ reply _ exec =>
    -- the routing table is the one of the two owners
    have owners : reply = [o.previous, o.primary] := by
      rw [← o.owners, ← o.placed o.primary]
      exact exec.2
    subst owners
    exact ⟨_, _, found', .asking there'⟩
  | sends away => cases away

/-- The request to the previous owner, until it is served. -/
theorem Allows.sent {entry : VData} (allows : Allows o clock net label net')
    (there : o.Stores (net.nodes o.previous) entry)
    (found : net.threads tid = some ⟨o.primary, o.askPrevious, some [⟨o.previous, .getPrev o.name o.key, .sent⟩],
      none⟩) :
    Gets o clock net' tid := by
  obtain ⟨a, found', moves⟩ := allows.step.moves found
  have there' := allows.previous_stores (.sent found (by simp)) there
  cases moves with
  | stays => exact ⟨_, _, found', .sent there'⟩
  | @delivers _ _ _ _ i dst req handler call serves =>
    obtain ⟨rfl, same⟩ := getElem?_singleton call
    cases same
    have fits : o.Fits o.previous (.getPrev o.name o.key) := ⟨rfl, rfl⟩
    have looks : o.rules.handle o.previous (.getPrev o.name o.key) = o.getPrevOperation :=
      Config.serve_of_arrives fits.arrives
    rw [looks] at serves
    exact ⟨_, _, found', .serving serves (.loading there')⟩
  | answers call =>
    obtain ⟨_, same⟩ := getElem?_singleton call
    cases same
  | @receives _ _ _ _ _ resps _ answered => cases resps <;> simp at answered

/-- The request, until it is answered. -/
theorem Allows.serves {handler : Tid} {p : Prog Response} (allows : Allows o clock net label net')
    (serves : net.threads handler = some ⟨o.previous, p, none, some tid⟩) (looking : Looking o clock net p)
    (found : net.threads tid =
      some ⟨o.primary, o.askPrevious, some [⟨o.previous, .getPrev o.name o.key, .serving handler⟩], none⟩) :
    Gets o clock net' tid := by
  obtain ⟨a, found', moves⟩ := allows.step.moves found
  cases moves with
  | stays =>
    obtain ⟨p', serves', looking'⟩ := looking.step allows serves
    exact ⟨_, _, found', .serving serves' looking'⟩
  | delivers call =>
    obtain ⟨_, same⟩ := getElem?_singleton call
    cases same
  | answers call finished =>
    obtain ⟨rfl, same⟩ := getElem?_singleton call
    cases same
    cases serves.symm.trans finished
    exact ⟨_, _, found', .answered looking.found⟩
  | @receives _ _ _ _ _ resps _ answered => cases resps <;> simp at answered

/-- The answer is the one of the read. -/
theorem Allows.answered {resp : Response} (allows : Allows o clock net label net') (known : resp ≠ .keyNotFound)
    (found : net.threads tid =
      some ⟨o.primary, o.askPrevious, some [⟨o.previous, .getPrev o.name o.key, .answered resp⟩], none⟩) :
    Gets o clock net' tid := by
  obtain ⟨a, found', moves⟩ := allows.step.moves found
  cases moves with
  | stays => exact ⟨_, _, found', .answered known⟩
  | delivers call =>
    obtain ⟨_, same⟩ := getElem?_singleton call
    cases same
  | answers call =>
    obtain ⟨_, same⟩ := getElem?_singleton call
    cases same
  | @receives _ _ _ _ _ resps reply answered collected =>
    obtain ⟨resp', rfl, same⟩ := List.map_eq_singleton_iff.1 answered.symm
    cases same
    cases collected
    cases resp with
    | keyNotFound => exact absurd rfl known
    | ok _ | noSuchLock | failed => exact ⟨_, _, found', .done nofun⟩

theorem Getting.step {p : Prog Response} {calls : Option (List (RemoteCall Host Request Response))}
    (getting : Getting o clock net tid p calls) (allows : Allows o clock net label net')
    (found : net.threads tid = some ⟨o.primary, p, calls, none⟩) : Gets o clock net' tid := by
  obtain ⟨a, found', moves⟩ := allows.step.moves found
  cases getting with
  | finding follows has => exact allows.finds follows has found
  | answering fresh =>
    cases moves with
    | forks forks => cases forks
    | stays => exact ⟨_, _, found', .answering fresh⟩
    | performs => exact ⟨_, _, found', .done (KeyKept.answers fresh allows.kept)⟩
    | sends away => cases away
  | missed there => exact allows.asks there found
  | asking there =>
    have there' := allows.previous_stores (.asking found) there
    cases moves with
    | forks forks => cases forks
    | stays => exact ⟨_, _, found', .asking there'⟩
    | performs here => cases here
    | sends away =>
      cases away
      exact ⟨_, _, found', .sent there'⟩
  | sent there => exact allows.sent there found
  | serving serves looking => exact allows.serves serves looking found
  | answered known => exact allows.answered known found
  | done known =>
    cases moves with
    | stays => exact ⟨_, _, found', .done known⟩

theorem Getting.start : Getting o clock net tid o.getKeyVal none := by
  have here : (o.members.config o.primary).place false o.hkey = o.place := o.placed o.primary
  rw [getKeyVal, Config.getKeyVal_eq, here]
  exact .finding getDMap_finds nofun

theorem Getting.result {resp : Response} {calls : Option (List (RemoteCall Host Request Response))}
    (getting : Getting o clock net tid (.ret resp) calls) : resp ≠ .keyNotFound := by
  generalize eq : Program.ret resp = p at getting
  cases getting with
  | @finding q =>
    cases q with
    | ret dm =>
      cases dm with
      | none =>
        cases eq
        nofun
      | some r => cases eq
    | call => cases eq
  | answering | missed | asking | sent | serving | answered => cases eq
  | done found =>
    cases eq
    exact found

end HandedOver

open HandedOver

/-- The key `k` of the dmap `d`. -/
def handedOver : HandedOver where
  members := twoMembers
  maxValueSize := 1048576
  partID := 0
  name := [100]
  key := [107]
  sizes := by decide
  nameShort := by decide
  keyShort := by decide
  previous := previousHost
  primary := primaryHost
  distinct := by decide
  owners := rfl
  placed _ := congrArg (Place.mk false) (show (7 : UInt64) % 1 = 0 by decide)
  noBackups _ := rfl

/-- The storage of a new dmap. -/
def freshStorage : Storage := ⟨[⟨∅, .zeroed 1048576, 0, 1048576, 0, 0⟩], false, false⟩

/-- A member that has the dmap `d` only. -/
def ownerNode (str : Storage) : Node where
  partition p := if p = ⟨false, 0⟩ then ⟨1, Finmap.singleton [100] 0, none⟩ else ⟨0, ∅, none⟩
  dmaps r := if r = 0 then some ⟨str, none, some newLocker, none⟩ else none
  oplogs _ := ∅
  syncing := []

/-- The member has the dmap `d` with the storage. -/
def Holds (s : Node) (str : Storage) : Prop := s.Has ⟨false, 0⟩ [100] 0 ∧ ∃ dm, s.dmaps 0 = some dm ∧ dm.str = str

theorem holds_ownerNode (str : Storage) : Holds (ownerNode str) str := ⟨by simp [Node.Has, ownerNode], _, rfl, rfl⟩

theorem Holds.setDMap {s : Node} {str : Storage} (holds : Holds s str) (str' : Storage) (mutex : Option Tid)
    (locker : Option Locker) (oplog : Option (Finmap fun _ : UInt64 => LogOp)) :
    Holds (s.setDMap 0 ⟨str', mutex, locker, oplog⟩) str' :=
  ⟨holds.1, _, setDMap_found.2 (.inl ⟨rfl, rfl⟩), rfl⟩

theorem Holds.setDMap_other {s : Node} {str : Storage} (holds : Holds s str) (dm : DMap) :
    Holds (s.setDMap 1 dm) str := by
  obtain ⟨has, dm', found, same⟩ := holds
  exact ⟨has, dm', setDMap_found.2 (.inr ⟨by decide, found⟩), same⟩

theorem Holds.stores {s : Node} {str : Storage} {entry : VData} (holds : Holds s str) :
    handedOver.Stores s entry ↔ str.get 7 = .ok (.ok entry) := by
  obtain ⟨has, dm, found, rfl⟩ := holds
  constructor
  · rintro ⟨r, dm', has', found', get⟩
    cases has.symm.trans has'
    cases found.symm.trans found'
    exact get
  · exact fun get => ⟨0, dm, has, found, get⟩

/-- What the two members store does not expire, and one of them has the key. -/
structure KeepsKey (previous primary : Node) : Prop where
  stored : ∃ s entry, (s = previous ∨ s = primary) ∧ handedOver.Stores s entry
  lasting : ∀ s entry, s = previous ∨ s = primary → handedOver.Stores s entry → entry.ttl = 0

theorem KeepsKey.keyKept {net : Cluster} {label : ClusterLabel}
    (keeps : KeepsKey (net.nodes previousHost) (net.nodes primaryHost)) : handedOver.KeyKept Set.univ net label where
  stored := by
    obtain ⟨s, entry, rfl | rfl, stores⟩ := keeps.stored
    · exact ⟨previousHost, entry, .inl rfl, stores⟩
    · exact ⟨primaryHost, entry, .inr rfl, stores⟩
  fresh host entry owner stores now _ := by
    have ttl : entry.ttl = 0 := by
      rcases owner with rfl | rfl
      · exact keeps.lasting _ entry (.inl rfl) stores
      · exact keeps.lasting _ entry (.inr rfl) stores
    simp [isKeyExpired, ttl]
  clock _ _ _ := trivial

def keyEntry : VData := ⟨[107], 0, [1]⟩

section

variable {str : Storage} {s s' previous primary : Node} {net : Cluster} {mark : ClusterLabel} {caller : Option Tid}
  {p q : Prog Response} {guard : Cmd → Prop}

theorem Holds.not_stores {entry : VData} (holds : Holds s freshStorage) : ¬ handedOver.Stores s entry := by
  rw [holds.stores]
  rintro ⟨⟩

theorem Holds.lasting {entry : VData} (get : str.get 7 = .ok (.ok keyEntry)) (holds : Holds s str)
    (stores : handedOver.Stores s entry) : entry.ttl = 0 := by
  cases get.symm.trans (holds.stores.1 stores)
  rfl

theorem keepsKey_previous (get : str.get 7 = .ok (.ok keyEntry)) (there : Holds previous str)
    (here : Holds primary freshStorage ∨ Holds primary str) : KeepsKey previous primary where
  stored := ⟨previous, keyEntry, .inl rfl, there.stores.2 get⟩
  lasting s entry owner stores := by
    rcases owner with rfl | rfl
    · exact there.lasting get stores
    · rcases here with none | here
      · exact absurd stores none.not_stores
      · exact here.lasting get stores

theorem keepsKey_primary (get : str.get 7 = .ok (.ok keyEntry)) (gone : ∀ r, ¬ previous.Has ⟨false, 0⟩ [100] r)
    (here : Holds primary str) : KeepsKey previous primary where
  stored := ⟨primary, keyEntry, .inr rfl, here.stores.2 get⟩
  lasting s entry owner stores := by
    rcases owner with rfl | rfl
    · obtain ⟨r, _, has, _⟩ := stores
      exact absurd has (gone r)
    · exact here.lasting get stores

def Guarded (guard : Cmd → Prop) : ClusterLabel → Prop
  | .perform _ c _ => guard c
  | _ => True

/-- A step of a run in which the key is always stored and the commands are guarded. -/
structure GuardedStep (guard : Cmd → Prop) (net : Cluster) (label : ClusterLabel) : Prop where
  kept : handedOver.KeyKept Set.univ net label
  guarded : Guarded guard label

/-- The states of such runs that have had the step. -/
abbrev KeptRun (guard : Cmd → Prop) (mark : ClusterLabel) (net : Cluster) : Prop :=
  (Network.system handedOver.rules).ReachableAfter (GuardedStep guard) mark net

theorem KeptRun.next {net' : Cluster} {label : ClusterLabel} (reach : KeptRun guard mark net)
    (allowed : GuardedStep guard net label) (step : Network.Step handedOver.rules net label net') :
    KeptRun guard mark net' :=
  Transitions.ReachableAfter.next reach allowed step

theorem KeptRun.alone {host : Host} (reach : KeptRun guard mark net) (tid : Tid)
    (running : net.threads tid = some ⟨host, p, none, caller⟩)
    (reaches : p.Reaches (fun s c reply s' =>
      KeepsKey (Function.update net.nodes host s previousHost) (Function.update net.nodes host s primaryHost) ∧
        guard c ∧ twoMembers.Acts tid s c reply s') (net.nodes host) q s') :
    KeptRun guard mark ((net.setThread tid ⟨host, q, none, caller⟩).setNode host s') := by
  refine Network.alone_closed KeptRun.next reach tid running
    (Function.update_eq_self _ _).symm (reaches.mono fun now =>
      ⟨fun net' nodes => ⟨KeepsKey.keyKept ?_, now.2.1⟩, now.2.2⟩)
  rw [nodes]
  exact now.1

theorem KeptRun.alone_previous (reach : KeptRun guard mark net) (tid : Tid)
    (running : net.threads tid = some ⟨previousHost, p, none, caller⟩) (here : net.nodes previousHost = s)
    (reaches : p.Reaches (fun s c reply s' => KeepsKey s (net.nodes primaryHost) ∧ guard c ∧
      twoMembers.Acts tid s c reply s') s q s') :
    KeptRun guard mark ((net.setThread tid ⟨previousHost, q, none, caller⟩).setNode previousHost s') := by
  subst here
  refine reach.alone tid running (reaches.mono fun now => ⟨?_, now.2⟩)
  rw [Function.update_self, Function.update_of_ne (by decide)]
  exact now.1

theorem KeptRun.alone_primary (reach : KeptRun guard mark net) (tid : Tid)
    (running : net.threads tid = some ⟨primaryHost, p, none, caller⟩) (here : net.nodes primaryHost = s)
    (reaches : p.Reaches (fun s c reply s' => KeepsKey (net.nodes previousHost) s ∧ guard c ∧
      twoMembers.Acts tid s c reply s') s q s') :
    KeptRun guard mark ((net.setThread tid ⟨primaryHost, q, none, caller⟩).setNode primaryHost s') := by
  subst here
  refine reach.alone tid running (reaches.mono fun now => ⟨?_, now.2⟩)
  rw [Function.update_self, Function.update_of_ne (by decide)]
  exact now.1

section

variable (reach : KeptRun guard mark net)
  (kept : KeepsKey (net.nodes previousHost) (net.nodes primaryHost)) (tid : Tid)
include reach kept

theorem KeptRun.spawn {host : Host} (free : net.threads tid = none) (starts : handedOver.Starts host p) :
    KeptRun guard mark (net.setThread tid ⟨host, p, none, none⟩) :=
  reach.next ⟨kept.keyKept, by trivial⟩ (.spawn free starts)

theorem KeptRun.send {host : Host} {c : Cmd} {next : c.Reply → Prog Response} {requests : List (Host × Request)}
    (running : net.threads tid = some ⟨host, .call c next, none, caller⟩) (away : c.outgoing = some requests) :
    KeptRun guard mark (net.setThread tid
      ⟨host, .call c next, some (requests.map fun out => ⟨out.1, out.2, .sent⟩), caller⟩) :=
  reach.next ⟨kept.keyKept, by trivial⟩ (.send running away)

/-- The only request of a goroutine arrives. -/
theorem KeptRun.deliver (handler : Tid) {host dst : Host} {req : Request}
    (waiting : net.threads tid = some ⟨host, p, some [⟨dst, req, .sent⟩], caller⟩) (free : net.threads handler = none)
    (fits : handedOver.Fits dst req) :
    KeptRun guard mark ((net.setThread tid ⟨host, p, some [⟨dst, req, .serving handler⟩], caller⟩).setThread handler
      ⟨dst, (twoMembers.config dst).handle twoMembers.sum64 req, none, some tid⟩) := by
  have serves : handedOver.rules.handle dst req = (twoMembers.config dst).handle twoMembers.sum64 req :=
    Config.serve_of_arrives fits.arrives
  rw [← serves]
  exact reach.next ⟨kept.keyKept, by trivial⟩ (.deliver (i := 0) waiting rfl free)

theorem KeptRun.answer (handler : Tid) {host dst there : Host} {req : Request} {resp : Response}
    (waiting : net.threads tid = some ⟨host, p, some [⟨dst, req, .serving handler⟩], caller⟩)
    (done : net.threads handler = some ⟨there, .ret resp, none, some tid⟩) :
    KeptRun guard mark (net.setThread tid ⟨host, p, some [⟨dst, req, .answered resp⟩], caller⟩) :=
  reach.next ⟨kept.keyKept, by trivial⟩ (.answer (i := 0) waiting rfl done)

theorem KeptRun.receive {host dst : Host} {req : Request} {resp : Response} {next : Response → Prog Response}
    (waiting : net.threads tid = some ⟨host, .call (.request dst req) next,
      some [⟨dst, req, .answered resp⟩], caller⟩) :
    KeptRun guard mark (net.setThread tid ⟨host, next resp, none, caller⟩) := by
  have answered : [(⟨dst, req, .answered resp⟩ : RemoteCall Host Request Response)].map (·.state) =
      [resp].map .answered := rfl
  exact reach.next ⟨kept.keyKept, by trivial⟩ (.receive waiting answered rfl)

end

end

/-- A dmap with the key, before and after it is sent to another member. -/
theorem key_travels : ∃ str tr t, freshStorage.put [] 7 keyEntry = .ok (str, none) ∧ str.closed = false ∧
    str.get 7 = .ok (.ok keyEntry) ∧ str.exportTable = .ok tr ∧
    Storage.importTable true tr = .ok ⟨[t], false, false⟩ ∧ t.get 7 = some keyEntry ∧
      t.hkeys = Finmap.singleton 7 0 :=
  ⟨_, _, _, rfl, rfl, rfl, rfl, rfl, rfl, rfl⟩

/-- The previous owner has the key, the primary owner an empty dmap. -/
def keyOnPrevious (str : Storage) : Host → Node :=
  fun host => if host = previousHost then ownerNode str else ownerNode freshStorage

section

variable {str : Storage} {s previous primary : Node} {guard : Cmd → Prop}

theorem keyOnPrevious_idle (isOpen : str.closed = false) (host : Host) (r : Ref) (dm : DMap)
    (found : (keyOnPrevious str host).dmaps r = some dm) : dm.Idle := by
  unfold keyOnPrevious at found
  split at found
  all_goals
    simp only [ownerNode] at found
    split at found
    · cases found
      exact ⟨rfl, by first | exact isOpen | rfl⟩
    · cases found

/-- A read starts on the primary owner. -/
theorem KeptRun.start (isOpen : str.closed = false) (get : str.get 7 = .ok (.ok keyEntry)) :
    KeptRun guard (.spawn 0 primaryHost handedOver.getKeyVal)
      (Network.setThread ⟨keyOnPrevious str, fun _ => none⟩ 0 ⟨primaryHost, handedOver.getKeyVal, none, none⟩) := by
  have start : (Network.system handedOver.rules).Run (GuardedStep guard) [] ⟨keyOnPrevious str, fun _ => none⟩ :=
    .start ⟨keyOnPrevious_idle isOpen, fun _ => rfl⟩
  have kept := keepsKey_previous get (holds_ownerNode str) (.inl (holds_ownerNode freshStorage))
  exact ⟨_, start.next ⟨KeepsKey.keyKept kept, by trivial⟩ (.spawn rfl .get), .head _⟩

/-- The read misses the key in the storage of its member. -/
theorem get_reaches_others (tid : Tid) (get : str.get 7 = .ok (.ok keyEntry)) (there : Holds previous str)
    (loads : ∀ p name, guard (.load p name)) (gets : ∀ r hkey, guard (.get r hkey)) :
    handedOver.getKeyVal.Reaches (fun s c reply s' => KeepsKey previous s ∧ guard c ∧
      twoMembers.Acts tid s c reply s')
      (ownerNode freshStorage) handedOver.getFromOthers (ownerNode freshStorage) := by
  have keeps := keepsKey_previous get there (.inl (holds_ownerNode freshStorage))
  exact .step (some 0) ⟨keeps, loads _ _, rfl, ⟨(holds_ownerNode _).1.symm, rfl⟩, trivial⟩
    (.step (.error .keyNotFound) ⟨keeps, gets _ _, rfl, ⟨_, rfl, rfl, rfl⟩, trivial⟩ .refl)

/-- The commands of reads and look-ups on members that have the dmap. -/
def Cmd.Looks : Cmd → Prop
  | .load .. | .get .. | .owners _ | .now => True
  | _ => False

theorem Cmd.Looks.looksFirst {net : Cluster} {label : ClusterLabel}
    (looks : Guarded Cmd.Looks label) : handedOver.LooksFirst net label where
  takes tid c reply p caller performs _ takes := by
    subst performs
    cases c <;> first | exact takes.elim | exact looks.elim
  stores tid host r p caller performs := by
    subst performs
    exact looks.elim

theorem move_reaches_request_kept (tid : Tid) {tr : Transport} (get : str.get 7 = .ok (.ok keyEntry))
    (exported : str.exportTable = .ok tr) : ∃ next rest,
    (answered ((twoMembers.config previousHost).moveStored ⟨false, 0⟩ [100] primaryHost)).Reaches
      (fun s c reply s' => KeepsKey s (ownerNode freshStorage) ∧ True ∧ twoMembers.Acts tid s c reply s')
        (ownerNode str)
      (.call (.request primaryHost (.moveDMap false ⟨0, [100], some tr⟩)) next)
      ((ownerNode str).setDMap 0 ⟨str, some tid, some newLocker, none⟩) ∧
    next (.ok []) = .call (.remove ⟨false, 0⟩ [100]) rest := by
  have keeps {s : Node} (there : Holds s str) : KeepsKey s (ownerNode freshStorage) :=
    keepsKey_previous get there (.inl (holds_ownerNode freshStorage))
  have before := holds_ownerNode str
  have locked := keeps (before.setDMap str (some tid) (some newLocker) none)
  exact ⟨_, _, .step (some 0) ⟨keeps before, trivial, rfl, ⟨before.1.symm, rfl⟩, trivial⟩ (.step ()
    ⟨keeps before, trivial, rfl, ⟨_, rfl, rfl, rfl⟩, trivial⟩ (.step (0 : Nat)
    ⟨locked, trivial, rfl, ⟨_, newLocker, rfl, rfl, rfl, rfl⟩, trivial⟩ (.step (.ok tr)
    ⟨locked, trivial, rfl, ⟨_, rfl, exported.symm, rfl⟩, trivial⟩ .refl))), rfl⟩

/-- The merge of a moved dmap puts the key that the new owner does not have. -/
theorem merge_reaches_answer (tid : Tid) {tr : Transport} {t : Table} (get : str.get 7 = .ok (.ok keyEntry))
    (there : Holds previous str) (put : freshStorage.put [] 7 keyEntry = .ok (str, none))
    (imported : Storage.importTable true tr = .ok ⟨[t], false, false⟩) (entry : t.get 7 = some keyEntry)
    (hkeys : t.hkeys = Finmap.singleton 7 0) : ∃ s, Holds s str ∧
      ((twoMembers.config primaryHost).handle twoMembers.sum64 (.moveDMap false ⟨0, [100], some tr⟩)).Reaches
        (fun s c reply s' => KeepsKey previous s ∧ True ∧ twoMembers.Acts tid s c reply s') (ownerNode freshStorage)
        (.ret (.ok [])) s := by
  have keeps {s : Node} (here : Holds s freshStorage) : KeepsKey previous s := keepsKey_previous get there (.inl here)
  have before := holds_ownerNode freshStorage
  have opened := before.setDMap_other ⟨⟨[t], false, false⟩, none, none, none⟩
  have locked := opened.setDMap freshStorage (some tid) (some newLocker) none
  have merged := locked.setDMap str (some tid) (some newLocker) none
  have visits : (⟨[t], false, false⟩ : Storage).Visits [[(7, keyEntry)]] := by
    refine .cons ⟨⟨by simp, fun hkey => by simp [hkeys]⟩, ?_⟩ .nil
    intro e mem
    cases List.mem_singleton.1 mem
    exact entry
  refine ⟨_, merged.setDMap str none (some newLocker) none, .step (some 1)
    ⟨keeps before, trivial, rfl, ⟨rfl, _, imported, rfl⟩, trivial⟩ (.step (some 0)
    ⟨keeps opened, trivial, rfl, ⟨opened.1.symm, rfl⟩, trivial⟩ (.step ()
    ⟨keeps opened, trivial, rfl, ⟨_, rfl, rfl, rfl⟩, trivial⟩ (.step [[(7, keyEntry)]]
    ⟨keeps locked, trivial, rfl, ⟨_, rfl, by simp, visits, rfl⟩, trivial⟩ (.step false
    ⟨keeps locked, trivial, rfl, ⟨_, rfl, rfl, rfl⟩, trivial⟩ (.step none
    ⟨keeps locked, trivial, rfl, ⟨_, [], str, rfl, put, rfl⟩, trivial⟩ (.step ()
    ⟨keepsKey_previous get there (.inr merged), trivial, rfl, ⟨_, rfl, rfl⟩, trivial⟩ .refl))))))⟩

/-- The look-up of the previous owner, once it has given the dmap up. -/
theorem getPrev_reaches_miss (tid : Tid) (get : str.get 7 = .ok (.ok keyEntry)) (here : Holds primary str)
    (gone : (s.partition ⟨false, 0⟩).m.lookup [100] = none) :
    ((twoMembers.config previousHost).handle twoMembers.sum64 (.getPrev [100] [107])).Reaches
      (fun s c reply s' => KeepsKey s primary ∧ True ∧ twoMembers.Acts tid s c reply s') s (.ret .keyNotFound) s := by
  have keeps : KeepsKey s primary := by
    refine keepsKey_primary get (fun r has => ?_) here
    cases gone.symm.trans has
  exact .step none ⟨keeps, trivial, rfl, ⟨gone.symm, rfl⟩, trivial⟩ .refl

end

end Olric
