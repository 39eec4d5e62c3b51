import Olric.Cluster.MoveBackups
import Olric.Node.Putting

namespace Olric

open Program

section

variable {cfg : Config} {hkey : UInt64} {name key value : Bytes} {timeout : Int64}

theorem backUp_returns_true : (cfg.backUp hkey name key value timeout).Returns true := by
  unfold Config.backUp
  split
  · rfl
  · split
    · exact ⟨(), rfl⟩
    · have none (count : Int) : (if (([] : List Host).length : Int) > count then
          ([] : List Host).drop ((([] : List Host).length : Int) - count).toNat else []) = [] := by simp
      refine ⟨(0 : Int), ([] : List Host), ?_⟩
      dsimp only [ret_bind, pure_eq, bind_eq]
      rw [none]
      rfl

theorem putKeyVal_issues (cfg : Config) (hkey : UInt64) (name key value : Bytes) (timeout : Int64) : ∃ ttl,
    (cfg.putKeyVal hkey name key value timeout).Issues (.put 0 hkey ⟨key, ttl, value⟩) := by
  have clock : ∃ ttl, (Config.ttlOf timeout).Returns ttl := by
    unfold Config.ttlOf
    split
    · exact ⟨0, rfl⟩
    · exact ⟨_, (0 : Int64), rfl⟩
  obtain ⟨ttl, clock⟩ := clock
  have found : (cfg.getDMap (cfg.place false hkey) name).Returns (some 0) := ⟨some (0 : Ref), rfl⟩
  refine ⟨ttl, found.issues (.inr ⟨(), ?_⟩)⟩
  dsimp only [ret_bind]
  refine Issues.bind (backUp_returns_true.issues ?_)
  exact clock.issues (Or.inl rfl)

/-- A call of `putKeyVal` tells what it puts. -/
theorem putKeyVal_injective {hkey' : UInt64} {name' key' value' : Bytes} {timeout' : Int64}
    (same : cfg.putKeyVal hkey name key value timeout = cfg.putKeyVal hkey' name' key' value' timeout') :
    hkey = hkey' ∧ key = key' ∧ value = value' := by
  obtain ⟨ttl, issues⟩ := putKeyVal_issues cfg hkey name key value timeout
  rw [same] at issues
  obtain ⟨g, allowed⟩ := putKeyVal_puts.issues issues
  rcases putting_cases allowed with calm | ⟨_, _, wrong⟩ | ⟨r, ttl', _, put⟩
  · exact calm.elim
  · cases wrong
  · cases put
    exact ⟨rfl, rfl, rfl⟩

end

/-- The new owner of a partition, and a dmap of the partition that the previous owners send it. -/
structure Takeover where
  config : Config
  sum64 : Bytes → UInt64
  partID : UInt64
  name : Bytes

namespace Takeover

/-- A put of a key, or an `OpMoveDMap` message with an exported storage. -/
inductive Call
  | put (hkey : UInt64) (key value : Bytes) (timeout : Int64)
  | move (tr : Transport)

variable (o : Takeover)

def place : Place := ⟨false, o.partID⟩

def prog : Call → Prog Response
  | .put hkey key value timeout => o.config.putKeyVal hkey o.name key value timeout
  | .move tr => o.config.handle o.sum64 (.moveDMap false ⟨o.partID, o.name, some tr⟩)

/-- The key is in the partition, or the storage has been one. -/
def Calls : Call → Prop
  | .put hkey _ _ _ => o.config.place false hkey = o.place
  | .move tr => ∃ str : Storage, str.Valid ∧ str.exportTable = .ok tr

/-- What other members answer to the requests of a put is not determined. -/
def rules : Pool.Rules Cmd Cmd.Reply Response Node where
  initial := Node.Sound
  starts p := ∃ call, o.Calls call ∧ p = o.prog call
  exec := Node.exec
  background _ _ := False

end Takeover

/-- A dmap is stored only under a name that has none, and values are shorter than 4 GiB. -/
def Node.StoresFree (s : Node) : Cmd → Prop
  | .store p name _ => (s.partition p).m.lookup name = none
  | .put _ _ entry => entry.value.length < 2 ^ 32
  | _ => True

def StoresFree (pool : NodePool) : NodeLabel → Prop
  | .step _ c _ => pool.shared.StoresFree c
  | _ => True

/-- The put of an hkey that a step is. -/
def writeOf (hkey : UInt64) : NodeLabel → Option (Tid × VData)
  | .step tid (.put _ hkey' entry) err => if hkey' = hkey ∧ err = none then some (tid, entry) else none
  | _ => none

/-- The puts of an hkey in a run, with the goroutines that made them. -/
def writes (labels : List NodeLabel) (hkey : UInt64) : List (Tid × VData) := labels.filterMap (writeOf hkey)

theorem writes_snoc (labels : List NodeLabel) (label : NodeLabel) (hkey : UInt64) :
    writes (labels ++ [label]) hkey = writes labels hkey ++ (writeOf hkey label).toList := by
  unfold writes
  rw [List.filterMap_append]
  cases found : writeOf hkey label <;> simp [found]

theorem writes_same {labels : List NodeLabel} {label : NodeLabel} {hkey : UInt64}
    (other : writeOf hkey label = none) : writes (labels ++ [label]) hkey = writes labels hkey := by
  rw [writes_snoc, other, Option.toList_none, List.append_nil]

namespace Takeover

/-- How far a goroutine has got. -/
inductive Stage
  | put (hkey : UInt64) (key value : Bytes) (timeout : Int64) (g : Putting)
  | move (tr : Transport) (m : Merge)

def Stage.call : Stage → Call
  | .put hkey key value timeout _ => .put hkey key value timeout
  | .move tr _ => .move tr

variable (o : Takeover)

def receiving : Discipline Cmd Cmd.Reply Stage where
  allows
    | .put hkey key value timeout g, c => (putting o.config hkey o.name key value timeout).allows g c
    | .move tr m, c => (merging o.place o.name tr).allows m c
  after
    | .put hkey key value timeout g, c, reply =>
      .put hkey key value timeout ((putting o.config hkey o.name key value timeout).after g c reply)
    | .move tr m, c, reply => .move tr ((merging o.place o.name tr).after m c reply)

def Stage.Ends (answer : Response) : Stage → Prop
  | .put _ _ _ _ g => g.Answers answer
  | .move _ m => m.Answers answer

def Stage.grip : Stage → Grip
  | .put _ _ _ _ g => g.grip o.place o.name
  | .move _ m => m.grip o.place o.name

/-- An imported storage has one table. A key that a merge has not found is not there. -/
def Knows (s : Node) : Stage → Prop
  | .put .. => True
  | .move _ m => match m with
    | .imported fresh | .absent fresh | .found fresh _ | .locked fresh _ =>
      ∃ dm t, s.dmaps fresh = some dm ∧ dm.str.tables = [t]
    | .missing _ hkey _ _ => s.view o.place o.name hkey = none
    | .astray _ => False
    | _ => True

/-- The goroutine is a put of the entry. -/
def IsPut (labels : List NodeLabel) (hkey : UInt64) (x : Tid × VData) : Prop :=
  ∃ timeout, .spawn x.1 (o.config.putKeyVal hkey o.name x.2.key x.2.value timeout) ∈ labels

/-- The put has written its entry. -/
def Stored : Putting → Prop
  | .written _ | .done => True
  | _ => False

/-- Every hkey that has been written has the entry that was written last. A merge writes an hkey
only if nobody has, so that entry is from a put if there has been a put. -/
structure Received (labels : List NodeLabel) (s : Node) (points : Points Stage) : Prop where
  sound : s.Sound
  gripped : s.Gripped (points.read (Stage.grip o) {})
  fresh : ∀ {tid r}, (points.read (Stage.grip o) {} tid).fresh = some r → ∃ dm, s.dmaps r = some dm ∧ dm.str.Valid
  knows : ∀ {tid g}, points tid = some g → o.Knows s g
  last : ∀ {hkey x}, (writes labels hkey).getLast? = some x → s.view o.place o.name hkey = some x.2
  byPut : ∀ {hkey x}, x ∈ writes labels hkey → o.IsPut labels hkey x →
    ∃ y, (writes labels hkey).getLast? = some y ∧ o.IsPut labels hkey y
  wrote : ∀ {hkey x}, x ∈ writes labels hkey → ∃ g, points x.1 = some g
  spawned : ∀ {tid g}, points tid = some g → .spawn tid (o.prog g.call) ∈ labels ∧ o.Calls g.call
  known : ∀ {tid p}, .spawn tid p ∈ labels → ∃ g, points tid = some g ∧ o.prog g.call = p
  acked : ∀ {tid hkey key value timeout g}, points tid = some (.put hkey key value timeout g) → Stored g →
    ∃ ttl, (tid, ⟨key, ttl, value⟩) ∈ writes labels hkey

variable {o} {labels : List NodeLabel} {points : Points Stage} {tid : Tid} {g : Stage} {c : Cmd} {reply : c.Reply}
  {s s' : Node}

theorem putKeyVal_receives (hkey : UInt64) (key value : Bytes) (timeout : Int64) :
    (o.prog (.put hkey key value timeout)).Follows o.receiving (.put hkey key value timeout (.search .start))
      fun answer g => g.Ends answer := by
  refine (putKeyVal_puts.embed (Stage.put hkey key value timeout) fun g c allowed => ⟨allowed, fun _ => rfl⟩).mono ?_
  rintro answer _ ⟨g, rfl, ended⟩
  exact ended

theorem mergeDMaps_receives (tr : Transport) :
    (o.prog (.move tr)).Follows o.receiving (.move tr .start) fun answer g => g.Ends answer := by
  refine ((mergeDMaps_merges ⟨o.partID, o.name, some tr⟩ rfl).embed (Stage.move tr)
    fun g c allowed => ⟨allowed, fun _ => rfl⟩).mono ?_
  rintro answer _ ⟨g, rfl, ended⟩
  exact ended

theorem receiving_grip (calls : o.Calls g.call) (knows : o.Knows s g) (allowed : o.receiving.allows g c)
    (run : s.exec tid c reply s') : Grip.After c reply (g.grip o) ((o.receiving.after g c reply).grip o) := by
  cases g with
  | put hkey key value timeout g =>
    have after := putting_grip allowed run
    rw [show o.config.place false hkey = o.place from calls] at after
    exact after
  | move tr m =>
    refine merging_grip allowed run ?_
    rintro r rfl
    exact knows

/-- The commands that change what the name stands for or what is in a storage. -/
theorem receiving_cases (calls : o.Calls g.call) (knows : o.Knows s g) (allowed : o.receiving.allows g c) : c.Calm ∨
    (∃ r, c = .store o.place o.name r ∧ (g.grip o).fresh = some r) ∨
    ∃ r hkey entry, c = .put r hkey entry ∧ (g.grip o).named = some (o.place, o.name, r) ∧
      (g.grip o).locked = some r ∧
      ((∃ timeout, g = .put hkey entry.key entry.value timeout (.backed r)) ∨
        ∃ tr left, g = .move tr (.missing r hkey entry left)) := by
  cases g with
  | put hkey key value timeout g =>
    have place : o.config.place false hkey = o.place := calls
    rcases putting_cases allowed with calm | ⟨r, rfl, rfl⟩ | ⟨r, ttl, rfl, rfl⟩
    · exact .inl calm
    · exact .inr (.inl ⟨r, by rw [place], rfl⟩)
    · exact .inr (.inr ⟨r, hkey, _, rfl, rfl, rfl, .inl ⟨timeout, rfl⟩⟩)
  | move tr m =>
    rcases merging_cases allowed with calm | ⟨fresh, rfl, rfl⟩ | ⟨r, hkey, entry, left, rfl, rfl⟩ | ⟨_, _, _, rfl, _⟩
    · exact .inl calm
    · exact .inr (.inl ⟨fresh, rfl, rfl⟩)
    · exact .inr (.inr ⟨r, hkey, entry, rfl, rfl, rfl, .inr ⟨tr, left, rfl⟩⟩)
    · exact knows.elim

theorem receiving_imports {tr : Transport} (calls : o.Calls g.call)
    (allowed : o.receiving.allows g (.importStorage tr)) :
    (∃ str : Storage, str.Valid ∧ str.exportTable = .ok tr) ∧ g = .move tr .start := by
  cases g with
  | put => exact (putting_imports allowed).elim
  | move tr' m =>
    cases m with
    | start =>
      cases allowed
      exact ⟨calls, rfl⟩
    | merging r left => cases left <;> cases allowed
    | imported | found | locked | missing | failing => cases allowed
    | absent => rcases allowed with wrong | wrong <;> cases wrong
    | astray => rcases allowed with ⟨_, wrong⟩ | ⟨_, _, wrong⟩ | wrong <;> cases wrong
    | stored | merged | failed => exact allowed.elim

/-- A put that has written its entry has done it before, or does it now. -/
theorem putting_stores {hkey : UInt64} {key value : Bytes} {timeout : Int64} {g : Putting}
    (allowed : (putting o.config hkey o.name key value timeout).allows g c)
    (stored : Stored ((putting o.config hkey o.name key value timeout).after g c reply)) :
    Stored g ∨ ∃ ttl, writeOf hkey (.step tid c reply) = some (tid, ⟨key, ttl, value⟩) := by
  cases g with
  | search g =>
    rcases allowed with allowed | ⟨r, rfl, rfl⟩
    · cases g <;> first | exact stored.elim | exact allowed.elim
    · change Stored (if _ then _ else _) at stored
      split at stored <;> exact stored.elim
  | locked r => rcases allowed with ⟨rfl, _⟩ | ⟨rfl, _⟩ <;> exact stored.elim
  | counted r memCount =>
    obtain rfl := allowed
    change Stored (if _ then _ else _) at stored
    split at stored <;> exact stored.elim
  | backups r owners =>
    obtain rfl := allowed
    change Stored (if _ then _ else _) at stored
    split at stored <;> exact stored.elim
  | backed r =>
    rcases allowed with rfl | ⟨ttl, rfl⟩
    · exact stored.elim
    · cases reply with
      | none => exact .inr ⟨ttl, by simp [writeOf]⟩
      | some e => exact stored.elim
  | written r => exact .inl trivial
  | failing r =>
    obtain rfl := allowed
    exact stored.elim
  | done | failed => exact allowed.elim

theorem Knows.frame (knows : o.Knows s g)
    (copies : ∀ fresh dm, (g.grip o).fresh = some fresh → s.dmaps fresh = some dm →
      ∃ dm', s'.dmaps fresh = some dm' ∧ dm'.str = dm.str)
    (view : ∀ tr r hkey entry left, g = .move tr (.missing r hkey entry left) → s.view o.place o.name hkey = none →
      s'.view o.place o.name hkey = none) : o.Knows s' g := by
  have single {fresh : Ref} (mine : (g.grip o).fresh = some fresh)
      (before : ∃ dm t, s.dmaps fresh = some dm ∧ dm.str.tables = [t]) :
      ∃ dm t, s'.dmaps fresh = some dm ∧ dm.str.tables = [t] := by
    obtain ⟨dm, t, found, one⟩ := before
    obtain ⟨dm', found', str⟩ := copies fresh dm mine found
    exact ⟨dm', t, found', str ▸ one⟩
  cases g with
  | put => trivial
  | move tr m =>
    cases m with
    | imported fresh | absent fresh | found fresh r | locked fresh r => exact single rfl knows
    | missing r hkey entry left => exact view tr r hkey entry left rfl knows
    | astray r => exact knows.elim
    | start | stored | merging | failing | merged | failed => trivial

namespace Received

section

variable (inv : o.Received labels s points)
include inv

theorem has (known : points tid = some g) {r : Ref} (named : (g.grip o).named = some (o.place, o.name, r)) :
    s.Has o.place o.name r := by
  have mine : (points.read (Stage.grip o) {} tid).named = some (o.place, o.name, r) := by
    rw [Points.read_of_some known, named]
  exact inv.gripped.named mine

theorem unnamed (known : points tid = some g) {r : Ref} (fresh : (g.grip o).fresh = some r) (p : Place)
    (name : Bytes) : ¬ s.Has p name r := by
  have mine : (points.read (Stage.grip o) {} tid).fresh = some r := by rw [Points.read_of_some known, fresh]
  exact inv.gripped.apart.unnamed mine

theorem locks (known : points tid = some g) {r : Ref} (locked : (g.grip o).locked = some r) : s.Locked r tid := by
  have mine : (points.read (Stage.grip o) {} tid).locked = some r := by rw [Points.read_of_some known, locked]
  exact inv.gripped.locked mine

end

variable (inv : o.Received labels s points) (known : points tid = some g) (allowed : o.receiving.allows g c)
include inv known allowed

theorem effects : c.Calm ∨
    (∃ r, c = .store o.place o.name r ∧ (g.grip o).fresh = some r) ∨
    ∃ r hkey entry, c = .put r hkey entry ∧ s.Has o.place o.name r ∧ s.Locked r tid ∧
      ((∃ timeout, g = .put hkey entry.key entry.value timeout (.backed r)) ∨
        ∃ tr left, g = .move tr (.missing r hkey entry left)) := by
  rcases receiving_cases (inv.spawned known).2 (inv.knows known) allowed with
    calm | stored | ⟨r, hkey, entry, put, named, locked, from_⟩
  · exact .inl calm
  · exact .inr (.inl stored)
  · exact .inr (.inr ⟨r, hkey, entry, put, inv.has known named, inv.locks known locked, from_⟩)

variable (run : s.exec tid c reply s')
include run

/-- New dmaps that are not stored are not written to. -/
theorem unwritten {tid' : Tid} {g' : Stage} {fresh : Ref} {dm : DMap} (known' : points tid' = some g')
    (mine : (g'.grip o).fresh = some fresh) (found : s.dmaps fresh = some dm) :
    ∃ dm', s'.dmaps fresh = some dm' ∧ dm'.str = dm.str := by
  rcases inv.effects known allowed with calm | ⟨r, rfl, _⟩ | ⟨r, hkey, entry, rfl, has, _⟩
  · refine Node.exec_str run found ?_ ?_ ?_
    · rintro _ _ rfl
      exact calm
    · rintro _ rfl
      exact calm
    · rintro rfl
      exact calm
  · exact Node.exec_str run found nofun nofun nofun
  · refine Node.exec_str run found ?_ nofun nofun
    rintro _ _ ⟨⟩
    exact inv.unnamed known' mine _ _ has

theorem fresh_step {tid' : Tid} {r : Ref}
    (now : ((points.set tid (o.receiving.after g c reply)).read (Stage.grip o) {} tid').fresh = some r) :
    ∃ dm, s'.dmaps r = some dm ∧ dm.str.Valid := by
  have kept {tid₁ : Tid} (before : (points.read (Stage.grip o) {} tid₁).fresh = some r) :
      ∃ dm, s'.dmaps r = some dm ∧ dm.str.Valid := by
    obtain ⟨dm, found, valid⟩ := inv.fresh before
    cases known₁ : points tid₁ with
    | none =>
      rw [Points.read_of_none known₁] at before
      cases before
    | some g₁ =>
      rw [Points.read_of_some known₁] at before
      obtain ⟨dm', found', str⟩ := inv.unwritten known allowed run known₁ before found
      exact ⟨dm', found', str ▸ valid⟩
  rw [Points.read_set] at now
  rcases Node.update_cases now with ⟨rfl, mine⟩ | ⟨_, theirs⟩
  · rcases (receiving_grip (inv.spawned known).2 (inv.knows known) allowed run).fresh with none | ⟨same, _⟩ | ⟨r', _,
      made, makes⟩
    · rw [none] at mine
      cases mine
    · have before : (points.read (Stage.grip o) {} tid').fresh = some r := by
        rw [Points.read_of_some known, ← same, mine]
      exact kept before
    · cases made.symm.trans mine
      obtain ⟨_, str, found, makes⟩ := Node.exec_makes run makes
      refine ⟨_, found, ?_⟩
      cases c
      case newStorage => exact (Storage.new_spec makes.2).1
      case importStorage tr =>
        obtain ⟨⟨str₀, valid, exported⟩, _⟩ := receiving_imports (inv.spawned known).2 allowed
        exact (Storage.importTable_spec valid exported makes.2).1
      all_goals exact makes.elim
  · exact kept theirs

theorem self_knows : o.Knows s' (o.receiving.after g c reply) := by
  cases g with
  | put => trivial
  | move tr m =>
    have knows := inv.knows known
    have single {fresh : Ref} (mine : (Stage.grip o (.move tr m)).fresh = some fresh)
        (before : ∃ dm t, s.dmaps fresh = some dm ∧ dm.str.tables = [t]) :
        ∃ dm t, s'.dmaps fresh = some dm ∧ dm.str.tables = [t] := by
      obtain ⟨dm, t, found, one⟩ := before
      obtain ⟨dm', found', str⟩ := inv.unwritten known allowed run known mine found
      exact ⟨dm', t, found', str ▸ one⟩
    cases m with
    | start =>
      obtain ⟨str, valid, exported⟩ : ∃ str : Storage, str.Valid ∧ str.exportTable = .ok tr := (inv.spawned known).2
      obtain rfl := allowed
      cases reply with
      | none => trivial
      | some fresh =>
        obtain ⟨_, str', imported, rfl⟩ := run
        obtain ⟨_, _, t, one⟩ := Storage.importTable_spec valid exported imported
        exact ⟨_, t, setDMap_found.2 (.inl ⟨rfl, rfl⟩), one⟩
    | imported fresh =>
      obtain rfl := allowed
      cases reply <;> exact single rfl knows
    | absent fresh =>
      rcases allowed with rfl | rfl
      · exact single rfl knows
      · trivial
    | found fresh r =>
      obtain rfl := allowed
      exact single rfl knows
    | locked fresh r =>
      obtain rfl := allowed
      obtain ⟨dm, t, found, one⟩ := knows
      obtain ⟨_, found', _, visited, rfl⟩ := run
      cases found.symm.trans found'
      obtain ⟨entries, rfl, _⟩ := Storage.Visits.single one visited
      trivial
    | merging r left =>
      cases left with
      | nil =>
        obtain rfl := allowed
        trivial
      | cons e left =>
        obtain rfl := allowed
        obtain ⟨rfl, there⟩ := Node.exec_check_view inv.sound (inv.has known rfl) run
        cases reply with
        | true => trivial
        | false => exact Option.isNone_iff_eq_none.1 (by simpa using there.symm)
    | missing r hkey entry left =>
      obtain rfl := allowed
      cases reply <;> trivial
    | failing r =>
      obtain rfl := allowed
      trivial
    | astray r => exact knows.elim
    | stored | merged | failed => exact allowed.elim

variable (free : ∀ p name r, c = .store p name r → (s.partition p).m.lookup name = none)
  (short : ∀ r hkey entry, c = .put r hkey entry → entry.value.length < 2 ^ 32)
include free short

/-- What a command does to an hkey: nothing, it stores a dmap where there was none, or it puts an
entry, with the mutex of the dmap held. -/
theorem outcome : s'.Sound ∧ ∀ hkey, writeOf hkey (.step tid c reply) = none ∧
      (s'.view o.place o.name hkey = s.view o.place o.name hkey ∨ (s.partition o.place).m.lookup o.name = none) ∨
    ∃ r entry, writeOf hkey (.step tid c reply) = some (tid, entry) ∧ s'.view o.place o.name hkey = some entry ∧
      s.Has o.place o.name r ∧ s.Locked r tid ∧
      ((∃ timeout, g = .put hkey entry.key entry.value timeout (.backed r)) ∨
        ∃ tr left, g = .move tr (.missing r hkey entry left)) := by
  rcases inv.effects known allowed with calm | ⟨r, rfl, made⟩ | ⟨r, hkey, entry, rfl, has, locked, from_⟩
  · obtain ⟨sound, view, _⟩ := Node.exec_calm run calm inv.sound
    refine ⟨sound, fun hkey => .inl ⟨?_, .inl (by rw [view])⟩⟩
    cases c
    case put => exact calm.elim
    all_goals rfl
  · have mine : (points.read (Stage.grip o) {} tid).fresh = some r := by rw [Points.read_of_some known, made]
    obtain ⟨dm, found, valid⟩ := inv.fresh mine
    obtain ⟨sound, _, _⟩ := Node.exec_store_content run inv.sound found valid (inv.unnamed known made)
    exact ⟨sound, fun hkey => .inl ⟨rfl, .inr (free _ _ _ rfl)⟩⟩
  · obtain ⟨sound, view⟩ := Node.exec_put_view run inv.sound has (short r hkey entry rfl)
    refine ⟨sound, fun other => ?_⟩
    cases reply with
    | some e => exact .inl ⟨by simp [writeOf], .inl (by rw [view, if_neg nofun])⟩
    | none =>
      rw [if_pos rfl] at view
      by_cases this : other = hkey
      · subst this
        exact .inr ⟨r, entry, by simp [writeOf], by rw [view, View.set_self, Function.update_self], has,
          locked, from_⟩
      · refine .inl ⟨by simp [writeOf, Ne.symm this], .inl ?_⟩
        rw [view, View.set_self, Function.update_of_ne this]

theorem others_know {tid' : Tid} {g' : Stage} (differs : tid' ≠ tid) (known' : points tid' = some g') :
    o.Knows s' g' := by
  refine (inv.knows known').frame (fun fresh dm mine found => inv.unwritten known allowed run known' mine found) ?_
  rintro tr r hkey entry left rfl absent
  have has' : s.Has o.place o.name r := inv.has known' rfl
  rcases (inv.outcome known allowed run free short).2 hkey with ⟨_, same | none⟩ | ⟨r', _, _, _, has, locked, _⟩
  · rw [same, absent]
  · cases none.symm.trans has'
  · cases has.symm.trans has'
    exact absurd (locked.unique (inv.locks known' rfl)) differs

theorem step : o.Received (labels ++ [.step tid c reply]) s' (points.set tid (o.receiving.after g c reply)) := by
  have outcome := inv.outcome known allowed run free short
  have after := receiving_grip (inv.spawned known).2 (inv.knows known) allowed run
  have call : (o.receiving.after g c reply).call = g.call := by cases g <;> rfl
  have older {hkey x} (put : o.IsPut (labels ++ [.step tid c reply]) hkey x) : o.IsPut labels hkey x := by
    obtain ⟨timeout, mem⟩ := put
    exact ⟨timeout, by simpa using mem⟩
  have later {hkey x} (put : o.IsPut labels hkey x) : o.IsPut (labels ++ [.step tid c reply]) hkey x := by
    obtain ⟨timeout, mem⟩ := put
    exact ⟨timeout, List.mem_append_left _ mem⟩
  refine { sound := outcome.1, gripped := ?_, fresh := inv.fresh_step known allowed run,
           knows := fun {tid' g'} now => ?_,
           last := fun {hkey x} now => ?_, byPut := fun {hkey x} mem put => ?_, wrote := fun {hkey x} mem => ?_,
           spawned := fun {tid' g'} now => ?_, known := fun {tid' p} mem => ?_,
           acked := fun {tid' hkey key value timeout g'} now stored => ?_ }
  · rw [Points.read_set]
    refine inv.gripped.exec run (by rw [Points.read_of_some known]; exact after) free ?_
    rintro p name rfl
    rcases inv.effects known allowed with calm | ⟨_, wrong, _⟩ | ⟨_, _, _, wrong, _⟩
    · exact calm.elim
    · cases wrong
    · cases wrong
  · rcases Points.set_eq_some.1 now with ⟨_, rfl⟩ | ⟨differs, now⟩
    · exact inv.self_knows known allowed run
    · exact inv.others_know known allowed run free short differs now
  · rcases outcome.2 hkey with ⟨unwritten, same | none⟩ | ⟨r, entry, written, view, _⟩
    · rw [writes_same unwritten] at now
      rw [same, inv.last now]
    · rw [writes_same unwritten] at now
      have there := inv.last now
      rw [Node.view_of_absent none] at there
      cases there
    · rw [writes_snoc, written, Option.toList_some, List.getLast?_concat] at now
      cases now
      exact view
  · rcases outcome.2 hkey with ⟨unwritten, _⟩ | ⟨r, entry, written, _, _, _, from_⟩
    · rw [writes_same unwritten] at mem ⊢
      obtain ⟨y, last, put⟩ := inv.byPut mem (older put)
      exact ⟨y, last, later put⟩
    · rw [writes_snoc, written, Option.toList_some] at mem ⊢
      rcases from_ with ⟨timeout, rfl⟩ | ⟨tr, left, rfl⟩
      · exact ⟨_, List.getLast?_concat .., later ⟨timeout, (inv.spawned known).1⟩⟩
      · -- The hkey has not been there, so nobody has written it before.
        have first : writes labels hkey = [] := by
          cases last : (writes labels hkey).getLast? with
          | none => exact List.getLast?_eq_none_iff.1 last
          | some x => cases (inv.last last).symm.trans (inv.knows known)
        rw [first, List.nil_append] at mem ⊢
        exact ⟨x, by rw [List.mem_singleton.1 mem]; rfl, put⟩
  · have before (mem : x ∈ writes labels hkey) : ∃ g',
        points.set tid (o.receiving.after g c reply) x.1 = some g' := by
      obtain ⟨g', there⟩ := inv.wrote mem
      by_cases same : x.1 = tid
      · exact ⟨_, by rw [same]; exact Points.set_self⟩
      · exact ⟨g', by rw [Points.set_of_ne same, there]⟩
    rcases outcome.2 hkey with ⟨unwritten, _⟩ | ⟨r, entry, written, _⟩
    · rw [writes_same unwritten] at mem
      exact before mem
    · rw [writes_snoc, written, Option.toList_some] at mem
      rcases List.mem_append.1 mem with mem | mem
      · exact before mem
      · rw [List.mem_singleton.1 mem]
        exact ⟨_, Points.set_self⟩
  · have before : .spawn tid' (o.prog g'.call) ∈ labels ∧ o.Calls g'.call := by
      rcases Points.set_eq_some.1 now with ⟨rfl, rfl⟩ | ⟨_, now⟩
      · rw [call]
        exact inv.spawned known
      · exact inv.spawned now
    exact ⟨List.mem_append_left _ before.1, before.2⟩
  · have mem : .spawn tid' p ∈ labels := by simpa using mem
    obtain ⟨g', there, prog⟩ := inv.known mem
    by_cases same : tid' = tid
    · subst same
      cases known.symm.trans there
      exact ⟨_, Points.set_self, by rw [call, prog]⟩
    · exact ⟨g', by rw [Points.set_of_ne same, there], prog⟩
  · have kept {ttl} (mem : (tid', ⟨key, ttl, value⟩) ∈ writes labels hkey) :
        ∃ ttl, (tid', ⟨key, ttl, value⟩) ∈ writes (labels ++ [.step tid c reply]) hkey := by
      rw [writes_snoc]
      exact ⟨ttl, List.mem_append_left _ mem⟩
    rcases Points.set_eq_some.1 now with ⟨rfl, same⟩ | ⟨_, now⟩
    · cases g with
      | move => cases same
      | put hkey' key' value' timeout' g₀ =>
        cases same
        rcases putting_stores allowed stored with before | ⟨ttl, written⟩
        · obtain ⟨ttl, mem⟩ := inv.acked known before
          exact kept mem
        · rw [writes_snoc, written]
          exact ⟨ttl, List.mem_append_right _ (List.mem_singleton_self _)⟩
    · obtain ⟨ttl, mem⟩ := inv.acked now stored
      exact kept mem

end Received

theorem outline : Pool.Outline o.rules StoresFree o.receiving (fun answer g => g.Ends answer) o.Received where
  initial s sound := by
    refine { sound := sound, gripped := ⟨?_, nofun, nofun⟩, fresh := nofun, knows := nofun, last := nofun,
             byPut := nofun,
             wrote := nofun, spawned := nofun, known := nofun, acked := nofun }
    refine ⟨fun has => ?_, sound.apart, nofun, nofun, nofun⟩
    obtain ⟨dm, found, _⟩ := sound.valid has
    exact ⟨dm, found⟩
  spawn {labels pool points tid p} inv outlined free _ starts := by
    obtain ⟨call, calls, rfl⟩ := starts
    have started (g : Stage) (here : g.call = call) (nothing : g.grip o = {}) (knows : ∀ s, o.Knows s g)
        (unstored : ∀ hkey key value timeout g', g = .put hkey key value timeout g' → ¬ Stored g') :
        o.Received (labels ++ [.spawn tid (o.prog call)]) pool.shared (points.set tid g) := by
      have reads : (points.set tid g).read (Stage.grip o) {} = points.read (Stage.grip o) {} :=
        Points.read_set_of_free free nothing
      have same (hkey : UInt64) : writes (labels ++ [.spawn tid (o.prog call)]) hkey = writes labels hkey :=
        writes_same rfl
      refine { sound := inv.sound, gripped := by rw [reads]; exact inv.gripped,
               fresh := by rw [reads]; exact inv.fresh,
               knows := fun {tid' g'} now => ?_, last := fun {hkey x} now => inv.last (by rwa [same] at now),
               byPut := fun {hkey x} mem put => ?_, wrote := fun {hkey x} mem => ?_,
               spawned := fun {tid' g'} now => ?_, known := fun {tid' p} mem => ?_,
               acked := fun {tid' hkey key value timeout g'} now stored => ?_ }
      · rcases Points.set_eq_some.1 now with ⟨_, rfl⟩ | ⟨_, now⟩
        · exact knows _
        · exact inv.knows now
      · rw [same] at mem ⊢
        obtain ⟨g', there⟩ := inv.wrote mem
        obtain ⟨timeout, spawned⟩ := put
        have before : o.IsPut labels hkey x := by
          refine ⟨timeout, ?_⟩
          rcases List.mem_append.1 spawned with before | now
          · exact before
          · obtain ⟨mine, _⟩ := Pool.Label.spawn.inj (List.mem_singleton.1 now)
            rw [mine, free] at there
            cases there
        obtain ⟨y, last, timeout', byPut⟩ := inv.byPut mem before
        exact ⟨y, last, timeout', List.mem_append_left _ byPut⟩
      · rw [same] at mem
        obtain ⟨g', there⟩ := inv.wrote mem
        exact ⟨g', Points.set_kept_of_free there free⟩
      · rcases Points.set_eq_some.1 now with ⟨rfl, rfl⟩ | ⟨_, now⟩
        · rw [here]
          exact ⟨List.mem_append_right _ (List.mem_singleton_self _), calls⟩
        · exact ⟨List.mem_append_left _ (inv.spawned now).1, (inv.spawned now).2⟩
      · rcases List.mem_append.1 mem with before | now
        · obtain ⟨g', there, prog⟩ := inv.known before
          exact ⟨g', Points.set_kept_of_free there free, prog⟩
        · cases List.mem_singleton.1 now
          exact ⟨g, Points.set_self, by rw [here]⟩
      · rw [same]
        rcases Points.set_eq_some.1 now with ⟨rfl, rfl⟩ | ⟨_, now⟩
        · exact absurd stored (unstored _ _ _ _ _ rfl)
        · exact inv.acked now stored
    cases call with
    | put hkey key value timeout =>
      refine ⟨_, putKeyVal_receives hkey key value timeout, started _ rfl rfl (fun _ => trivial) ?_⟩
      rintro _ _ _ _ _ ⟨⟩
      exact id
    | move tr => exact ⟨_, mergeDMaps_receives tr, started _ rfl rfl (fun _ => trivial) nofun⟩
  step {labels pool points tid g c reply s} inv outlined known allowed free run := by
    refine inv.step known allowed run ?_ ?_
    · rintro p name r rfl
      exact free
    · rintro r hkey entry rfl
      exact free
  fork _ _ _ _ _ forks _ := by cases forks
  background _ _ _ change := change.elim

end Takeover

/-- A single owner, and a dmap `d` that is sent to it. -/
def arriving : Takeover where
  config := soloConfig
  sum64 _ := 7
  partID := 0
  name := [100]

def newKeyPut : Prog Response := soloConfig.putKeyVal 9 [100] [120] [1] 0

/-- The put finds no dmap and makes one. -/
theorem newKeyPut_reaches_end (tid : Tid) (dm : DMap) : ∃ s, newKeyPut.Reaches
    (fun s c reply s' => s.StoresFree c ∧ s.exec tid c reply s') (emptyNode.setDMap 0 dm) (.ret (.ok [])) s ∧
      s.dmaps 0 = some dm := by
  have stored : ∃ str, freshStorage.put [] 9 ⟨[120], 0, [1]⟩ = .ok (str, none) := ⟨_, rfl⟩
  obtain ⟨str, stored⟩ := stored
  dsimp only [newKeyPut, Config.putKeyVal, Config.getDMap, Config.createDMap, withPartitionLock, Config.createFresh,
    Config.snapshotCall, bind_eq, act, call_bind, ret_bind, pure_eq]
  refine ⟨_, .step none ⟨trivial, rfl, rfl⟩ (.step () ⟨trivial, rfl, rfl⟩ (.step none ⟨trivial, ?_, rfl⟩
    (.step (some 1) ⟨trivial, rfl, _, freshStorage_new, rfl⟩ (.step () ⟨trivial, _, rfl, rfl⟩ (.step () ⟨?_, rfl⟩
    (.step () ⟨trivial, rfl⟩ (.step () ⟨trivial, rfl⟩ (.step () ⟨trivial, _, rfl, rfl, rfl⟩
    (.step none ⟨?_, _, [], _, rfl, stored, rfl⟩ (.step [soloConfig.this] ⟨trivial, nofun, rfl⟩
    (.step () ⟨trivial, _, rfl, rfl⟩ .refl))))))))))), ?_⟩
  · simp [emptyNode, Node.setDMap, Node.setPartition, Config.place, soloConfig]
  · simp [Node.StoresFree, emptyNode, Node.setDMap, Node.setPartition]
  · change ([1] : Bytes).length < 2 ^ 32
    decide
  · simp [emptyNode, Node.setDMap, Node.setPartition]

/-- A merge that has found no dmap is overtaken by a put, which creates one. -/
theorem put_overtakes_merge : ∃ labels t s, (Pool.system arriving.rules).Run StoresFree labels
    ((idlePool.setThread 0 (.call (.setLocker 0) fun _ => .call (.store ⟨false, 0⟩ [100] 0) fun _ => .ret (.ok []))
      (emptyNode.setDMap 0 ⟨⟨[t], false, false⟩, none, none, none⟩)).setThread 1 (.ret (.ok [])) s) ∧
    .spawn 1 newKeyPut ∈ labels ∧ t.hkeys = Finmap.singleton 7 0 ∧
    s.dmaps 0 = some ⟨⟨[t], false, false⟩, none, none, none⟩ := by
  obtain ⟨str, tr, t, put, _, _, exported, imported, _, keys⟩ := key_travels
  obtain rfl : str = keyStorage := by
    rw [keyStorage_put] at put
    cases put
    rfl
  let moved : Node := emptyNode.setDMap 0 ⟨⟨[t], false, false⟩, none, none, none⟩
  let rest : Prog Response := .call (.setLocker 0) fun _ => .call (.store ⟨false, 0⟩ [100] 0) fun _ => .ret (.ok [])
  have merges : (arriving.prog (.move tr)).Reaches (fun s c reply s' => s.StoresFree c ∧
    s.exec 0 c reply s') emptyNode
      rest moved :=
    .step (some 0) ⟨trivial, rfl, _, imported, rfl⟩ (.step none ⟨trivial, rfl, rfl⟩ .refl)
  obtain ⟨s, puts, kept⟩ := newKeyPut_reaches_end 1 ⟨⟨[t], false, false⟩, none, none, none⟩
  have start : (Pool.system arriving.rules).Run StoresFree [] idlePool := .start ⟨emptyNode_sound, fun _ => rfl⟩
  have called : (Pool.system arriving.rules).Run StoresFree _
      (idlePool.setThread 0 (arriving.prog (.move tr)) emptyNode) :=
    start.next (by exact trivial) (.spawn rfl ⟨.move tr, ⟨keyStorage, keyStorage_spec.1, exported⟩, rfl⟩)
  obtain ⟨first, merged⟩ := Pool.run_alone id merges called
  have putting : (Pool.system arriving.rules).Run StoresFree _
      ((idlePool.setThread 0 rest moved).setThread 1 newKeyPut moved) :=
    merged.next (by exact trivial) (.spawn rfl ⟨.put 9 [120] [1] 0, rfl, rfl⟩)
  obtain ⟨second, put⟩ := Pool.run_alone id puts putting
  exact ⟨_, t, s, put, by simp, keys, kept⟩

end Olric
