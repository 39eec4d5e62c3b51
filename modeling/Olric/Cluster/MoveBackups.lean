import Olric.Cluster.ReadDuringMove
import Olric.Cluster.StaleBackup
import Olric.Lib.Outline

namespace Olric

open Program

/-- Where a goroutine is: in `moveBackupDMaps`, with the last dmap that it has looked up, in
`moveDMap`, or in `mergeDMaps`. -/
inductive Relocation
  | round (last : Option (Bytes × Ref))
  | move (name : Bytes) (r : Ref) (owner : Host) (m : Move)
  | merge (name : Bytes) (tr : Transport) (m : Merge)

def Relocation.Ends (answer : Response) : Relocation → Prop
  | .round _ => True
  | .move _ _ _ m => m = .done
  | .merge _ _ m => m.Answers answer

def Relocation.fresh : Relocation → Option Ref
  | .merge _ _ m => m.fresh
  | _ => none

namespace StaleBackup

variable (o : StaleBackup) {backup : Host} {tid : Tid} {s s' : Node} {c : Cmd} {reply : c.Reply} {name : Bytes}
  {tr : Transport} {m : Merge} {r : Ref}

def relocating : Discipline Cmd Cmd.Reply Relocation where
  allows
    | .round last, c => c = .names o.place ∨ (∃ name, c = .load o.place name) ∨
      ∃ name r owner, c = .go (.moveDMap o.place name r owner) ∧ last = some (name, r) ∧ owner ∈ o.backups
    | .move name r owner m, c => (moving o.place name r owner).allows m c
    | .merge name tr m, c => (merging o.place name tr).allows m c
  after
    | .round _, .load _ name, reply => .round (reply.map fun r => (name, r))
    | .round last, _, _ => .round last
    | .move name r owner m, c, reply => .move name r owner ((moving o.place name r owner).after m c reply)
    | .merge name tr m, c, reply => .merge name tr ((merging o.place name tr).after m c reply)

variable {o}

theorem moveBackupDMaps_relocates :
    o.moveBackupDMaps.Follows o.relocating (.round none) fun answer g => g.Ends answer := by
  refine Follows.bind (Q := fun _ g => ∃ last, g = Relocation.round last) ?_ ?_
  · refine Follows.forEach (fun g => ∃ last, g = Relocation.round last) ?_ ⟨none, rfl⟩
    rintro backup mem _ ⟨last, rfl⟩
    refine ⟨.inl rfl, fun names => ?_⟩
    refine Follows.forEach (fun g => ∃ last, g = Relocation.round last) ?_ ⟨last, rfl⟩
    rintro name _ _ ⟨last, rfl⟩
    refine ⟨.inr (.inl ⟨name, rfl⟩), fun found => ?_⟩
    cases found with
    | none => exact ⟨none, rfl⟩
    | some r => exact ⟨.inr (.inr ⟨name, r, backup, rfl, rfl, mem⟩), fun _ => ⟨_, rfl⟩⟩
  · rintro _ _ ⟨last, rfl⟩
    trivial

theorem moveDMap_relocates {cfg : Config} (name : Bytes) (r : Ref) (owner : Host) :
    (answered (cfg.job (.moveDMap o.place name r owner))).Follows o.relocating (.move name r owner .start)
      fun answer g => g.Ends answer := by
  have moves : (cfg.moveDMap o.place name r owner).Follows (moving o.place name r owner) .start fun _ g =>
      g = .done :=
    moveDMap_moves
  refine (moves.embed (E := o.relocating) (.move name r owner) fun _ _ allowed => ⟨allowed, fun _ => rfl⟩).bind ?_
  rintro _ _ ⟨_, rfl, rfl⟩
  exact rfl

theorem mergeDMaps_relocates (name : Bytes) (tr : Transport) :
    (Config.mergeDMaps o.place ⟨o.partID, name, some tr⟩).Follows o.relocating (.merge name tr .start)
      fun answer g => g.Ends answer := by
  have merges : (Config.mergeDMaps o.place ⟨o.partID, name, some tr⟩).Follows (merging o.place name tr) .start
      fun answer g => g.Answers answer :=
    mergeDMaps_merges ⟨o.partID, name, some tr⟩ rfl
  refine (merges.embed (E := o.relocating) (.merge name tr) fun _ _ allowed => ⟨allowed, fun _ => rfl⟩).mono ?_
  rintro answer _ ⟨m, rfl, answers⟩
  exact answers

/-- Only a goroutine that has exported its dmap sends something, and none starts another. -/
theorem moving_local {p : Place} {owner : Host} {m : Move} (allowed : (moving p name r owner).allows m c) :
    (c.outgoing = none ∧ c.job = none) ∨
      ∃ tr, m = .exported tr ∧ c = .request owner (.moveDMap p.backup ⟨p.id, name, some tr⟩) := by
  cases m with
  | exported tr => exact .inr ⟨tr, rfl, allowed⟩
  | removed => rcases allowed with rfl | rfl | rfl | rfl <;> exact .inl ⟨rfl, rfl⟩
  | done => exact allowed.elim
  | start | locked | unused | accepted | leaving =>
    obtain rfl : c = _ := allowed
    exact .inl ⟨rfl, rfl⟩

theorem merging_local {p : Place} (allowed : (merging p name tr).allows m c) : c.outgoing = none ∧ c.job = none := by
  cases m with
  | absent fresh => rcases allowed with rfl | rfl <;> exact ⟨rfl, rfl⟩
  | merging r left =>
    cases left <;>
    · obtain rfl : c = _ := allowed
      exact ⟨rfl, rfl⟩
  | astray r => rcases allowed with ⟨_, rfl⟩ | ⟨_, _, rfl⟩ | rfl <;> exact ⟨rfl, rfl⟩
  | stored | merged | failed => exact allowed.elim
  | start | imported | found | locked | missing | failing =>
    obtain rfl : c = _ := allowed
    exact ⟨rfl, rfl⟩

theorem relocating_sends {g : Relocation} {requests : List (Host × Request)} (allowed : o.relocating.allows g c)
    (away : c.outgoing = some requests) : ∃ name r owner tr, g = .move name r owner (.exported tr) ∧
      c = .request owner (.moveDMap true ⟨o.partID, name, some tr⟩) ∧
      requests = [(owner, .moveDMap true ⟨o.partID, name, some tr⟩)] := by
  cases g with
  | round last => rcases allowed with rfl | ⟨_, rfl⟩ | ⟨_, _, _, rfl, _⟩ <;> cases away
  | move name r owner m =>
    rcases moving_local allowed with ⟨here, _⟩ | ⟨tr, rfl, rfl⟩
    · cases here.symm.trans away
    · exact ⟨name, r, owner, tr, rfl, rfl, (Option.some.inj away).symm⟩
  | merge name tr m => cases (merging_local allowed).1.symm.trans away

theorem relocating_forks {g : Relocation} {job : Job} (allowed : o.relocating.allows g c)
    (starts : c.job = some job) :
    ∃ name r owner, g = .round (some (name, r)) ∧ owner ∈ o.backups ∧ job = .moveDMap o.place name r owner := by
  cases g with
  | round last =>
    rcases allowed with rfl | ⟨_, rfl⟩ | ⟨name, r, owner, rfl, rfl, listed⟩
    · cases starts
    · cases starts
    · cases starts
      exact ⟨name, r, owner, rfl, listed, rfl⟩
  | move name r owner m =>
    rcases moving_local allowed with ⟨_, alone⟩ | ⟨tr, rfl, rfl⟩
    · cases alone.symm.trans starts
    · cases starts
  | merge name tr m => cases (merging_local allowed).2.symm.trans starts

variable (o)

abbrev Relocations := Points (Origin Host Request × Relocation)

/-- The backup owner has what it should have under the name. -/
def Merged (backup : Host) (nodes : Host → Node) (name : Bytes) : Prop :=
  (nodes backup).view o.place name = o.merged backup name

/-- What a goroutine knows that moves a dmap. -/
def MoveAt (backup : Host) (nodes : Host → Node) (name : Bytes) : Move → Prop
  | .exported tr => o.Sends name tr
  | .accepted | .removed => o.Merged backup nodes name
  | _ => True

/-- What a goroutine knows. -/
def Knows (backup : Host) (nodes : Host → Node) (tid : Tid) (origin : Origin Host Request) : Relocation → Prop
  | .round last => origin = .own o.stale ∧ ∀ name r, last = some (name, r) → (o.nodes o.stale).Has o.place name r
  | .move name r owner m => origin = .own o.stale ∧ owner = backup ∧ (o.nodes o.stale).Has o.place name r ∧
    (m.Holds → (nodes o.stale).Locked r tid) ∧ o.MoveAt backup nodes name m
  | .merge name tr m => (∃ caller, origin = .served backup caller (.moveDMap true ⟨o.partID, name, some tr⟩)) ∧
    o.Sends name tr ∧ o.MergeAt backup (nodes backup) name m

/-- What the stale owner has dropped, the backup owner has. -/
structure Source (backup : Host) (nodes : Host → Node) : Prop where
  held : ∀ {name r}, (nodes o.stale).Has o.place name r → (o.nodes o.stale).Has o.place name r
  kept : ∀ {name r}, (o.nodes o.stale).Has o.place name r → (nodes o.stale).Has o.place name r ∨
      o.Merged backup nodes name
  object : ∀ {name r}, (o.nodes o.stale).Has o.place name r → ∃ dm₀ dm, (o.nodes o.stale).dmaps r = some dm₀ ∧
    (nodes o.stale).dmaps r = some dm ∧ (dm.str.tables = dm₀.str.tables ∨ dm.str.tables = []) ∧
    (dm.str.closed = true → o.Merged backup nodes name)

structure Relocated (backup : Host) (nodes : Host → Node) (points : Relocations) : Prop where
  target : o.Target backup (nodes backup)
  apart : (nodes backup).Apart (points.say fun x => x.2.fresh)
  source : o.Source backup nodes
  knows : ∀ {tid origin g}, points tid = some (origin, g) → o.Knows backup nodes tid origin g

variable {o} {nodes : Host → Node} {points : Relocations} {origin : Origin Host Request} {g : Relocation}

/-- A goroutine gets to another point without any change of the members. -/
theorem Relocated.moves (inv : o.Relocated backup nodes points) (same : (points.say fun x => x.2.fresh) tid = g.fresh)
    (knows : o.Knows backup nodes tid origin g) : o.Relocated backup nodes (points.set tid (origin, g)) where
  target := inv.target
  apart := by
    rw [Points.say_set, ← same, Function.update_eq_self]
    exact inv.apart
  source := inv.source
  knows {tid' origin' g'} known := by
    rcases Points.set_eq_some.1 known with ⟨rfl, now⟩ | ⟨_, known⟩
    · cases now
      exact knows
    · exact inv.knows known

theorem say_fresh (known : points tid = some (origin, g)) : (points.say fun x => x.2.fresh) tid = g.fresh := by
  simp [Points.say, known]

theorem say_fresh_free (free : points tid = none) : (points.say fun x => x.2.fresh) tid = none := by
  simp [Points.say, free]

section

variable {net : Cluster}

/-- One goroutine at a time works on a dmap of the backup owner: its caller has the mutex of the
dmap of the stale owner. -/
theorem Relocated.merges_alone {h₁ h₂ : Tid} {origin₁ origin₂ : Origin Host Request} {tr₁ tr₂ : Transport}
    {m₁ m₂ : Merge} (inv : o.Relocated backup net.nodes points)
    (outlined : Network.Outlined o.rules (fun _ => o.relocating) (fun _ answer g => g.Ends answer) net points)
    (known₁ : points h₁ = some (origin₁, .merge name tr₁ m₁))
    (known₂ : points h₂ = some (origin₂, .merge name tr₂ m₂)) (working₁ : ∀ answer, ¬ m₁.Answers answer)
    (working₂ : ∀ answer, ¬ m₂.Answers answer) : h₁ = h₂ := by
  have caller {h origin tr m} (known : points h = some (origin, .merge name tr m)) (working : ∀ answer,
      ¬ m.Answers answer) :
      ∃ tid r dst req, (o.nodes o.stale).Has o.place name r ∧ (net.nodes o.stale).Locked r tid ∧
        net.HasCall tid 0 ⟨dst, req, .serving h⟩ := by
    obtain ⟨⟨tid, rfl⟩, _⟩ := inv.knows known
    obtain ⟨i, a, calls, found, waits, at'⟩ := outlined.caller_waits known working
    obtain ⟨c, next, calling, away⟩ := outlined.waits found calls waits
    obtain ⟨origin, g, known', _, _, follows⟩ := outlined.follows found
    rw [calling] at follows
    obtain ⟨name', r, owner, tr', rfl, _, requests⟩ := relocating_sends follows.1 away
    obtain ⟨_, _, has, locked, _⟩ := inv.knows known'
    have listed : (backup, Request.moveDMap true ⟨o.partID, name, some tr⟩) ∈ calls.map fun call =>
        (call.dst, call.req) :=
      List.mem_map.2 ⟨_, List.mem_of_getElem? at', rfl⟩
    rw [requests] at listed
    cases List.mem_singleton.1 listed
    have single : calls.length = 1 := by simpa using congrArg List.length requests
    have inside := (List.getElem?_eq_some_iff.1 at').1
    obtain rfl : i = 0 := by omega
    exact ⟨tid, r, _, _, has, locked trivial, a, calls, found, waits, at'⟩
  obtain ⟨tid₁, r₁, dst₁, req₁, has₁, locked₁, call₁⟩ := caller known₁ working₁
  obtain ⟨tid₂, r₂, dst₂, req₂, has₂, locked₂, call₂⟩ := caller known₂ working₂
  cases has₁.symm.trans has₂
  cases locked₁.unique locked₂
  cases call₂.unique call₁
  rfl

end

/-- A merge leaves the dmaps of the other names alone. -/
theorem merging_others {fresh : Tid → Option Ref} {name' : Bytes} (apart : s.Apart fresh)
    (knows : o.MergeAt backup s name m) (allowed : (merging o.place name tr).allows m c) (run : s.exec tid c reply s')
    (other : name' ≠ name) :
    s'.view o.place name' = s.view o.place name' ∧
      (s'.partition o.place).m.lookup name' = (s.partition o.place).m.lookup name' := by
  refine Node.exec_view_same run (fun r => apart.known) (fun r stored => ?_) (fun removed => ?_) fun r has =>
    ⟨fun hkey entry put => ?_, fun hkey deleted => ?_, fun closed => ?_⟩
  · exact other (merging_stores allowed _ _ _ stored).2.2
  all_goals subst c; rcases merging_cases allowed with calm | ⟨_, _, same⟩ | ⟨_, _, _, _, rfl, same⟩
    | ⟨_, _, _, rfl, _⟩
  all_goals first | exact calm.elim | exact knows.elim | cases same
  exact other (apart.names knows.1 has).2

theorem merging_copies {fresh : Tid → Option Ref} {name' : Bytes} {tid' : Tid} (apart : s.Apart fresh)
    (knows : o.MergeAt backup s name m) (allowed : (merging o.place name tr).allows m c) (run : s.exec tid c reply s')
    (own : fresh tid' = some r) (copy : o.Copy s name' r) : o.Copy s' name' r := by
  refine copy.kept run (fun hkey entry put => ?_) (fun hkey deleted => ?_) fun closed => ?_
  all_goals subst c; rcases merging_cases allowed with calm | ⟨_, _, same⟩ | ⟨_, _, _, _, rfl, same⟩
    | ⟨_, _, _, rfl, _⟩
  all_goals first | exact calm.elim | exact knows.elim | cases same
  exact apart.unnamed own knows.1

/-- A goroutine that can go on with a merge has not answered. -/
theorem working_of_allowed (knows : o.MergeAt backup s name m) (allowed : (merging o.place name tr).allows m c)
    (answer : Response) : ¬ m.Answers answer := by
  cases m with
  | stored | merged | failed => exact allowed.elim
  | astray => exact knows.elim
  | start | imported | absent | found | locked | merging | missing | failing => exact id

section

variable {net : Cluster} {node : Node}

/-- What an exporting goroutine gets from the stale owner. -/
theorem Source.sends {nodes : Host → Node} {exported : Except StorageError Transport} (source : o.Source backup nodes)
    (has : (o.nodes o.stale).Has o.place name r) (run : (nodes o.stale).exec tid (.exportTable r) exported node)
    (ok : exported = .ok tr) : o.Sends name tr := by
  obtain ⟨dm₀, dm, found₀, found, tables, _⟩ := source.object has
  obtain ⟨_, found', rfl, _⟩ := run
  cases found.symm.trans found'
  unfold Storage.exportTable at ok
  rcases tables with same | empty
  · rw [same] at ok
    exact ⟨r, dm₀, has, found₀, ok⟩
  · rw [empty] at ok
    cases ok

/-- What the stale owner does is not seen on the backup owner. -/
theorem merged_of_stale {nodes : Host → Node} (differs : o.stale ≠ backup) :
    o.Merged backup (Function.update nodes o.stale node) name ↔ o.Merged backup nodes name := by
  unfold Merged
  rw [Function.update_of_ne (Ne.symm differs)]

theorem moveAt_of_stale {nodes : Host → Node} {m : Move} (differs : o.stale ≠ backup)
    (before : o.MoveAt backup nodes name m) :
    o.MoveAt backup (Function.update nodes o.stale node) name m := by
  cases m with
  | accepted | removed => exact (merged_of_stale differs).2 before
  | exported => exact before
  | start | locked | unused | leaving | done => trivial

/-- A goroutine that moves a dmap removes and closes it only after the backup owner has it. -/
theorem Source.move_step {nodes : Host → Node} {owner : Host} {m : Move} (source : o.Source backup nodes)
    (differs : o.stale ≠ backup) (has : (o.nodes o.stale).Has o.place name r) (moves : o.MoveAt backup nodes name m)
    (allowed : (moving o.place name r owner).allows m c) (run : (nodes o.stale).exec tid c reply node) :
    o.Source backup (Function.update nodes o.stale node) := by
  have stale : Function.update nodes o.stale node o.stale = node := Function.update_self _ _ _
  refine ⟨fun {name' r'} has' => ?_, fun {name' r'} has' => ?_, fun {name' r'} has' => ?_⟩
  · rw [stale] at has'
    rcases Node.exec_has_origin run has' with before | stored
    · exact source.held before
    · exact absurd stored ((moving_keeps allowed).1 _ _ _)
  · rw [stale, merged_of_stale differs]
    rcases source.kept has' with there | done
    · by_cases removes : c = .remove o.place name'
      · subst removes
        rcases moving_cases allowed with calm | ⟨rfl, same⟩ | ⟨_, wrong⟩
        · exact calm.elim
        · cases same
          exact .inr moves
        · cases wrong
      · exact .inl (Node.exec_has run there removes fun r'' stored => absurd stored ((moving_keeps allowed).1 _ _ _))
    · exact .inr done
  · rw [stale, merged_of_stale differs]
    obtain ⟨dm₀, dm, found₀, found, tables, closed⟩ := source.object has'
    obtain ⟨dm', found', change⟩ := Node.exec_change run found
    refine ⟨dm₀, dm', found₀, found', ?_⟩
    cases change with
    | put => exact absurd rfl ((moving_keeps allowed).2.1 _ _ _)
    | delete => exact absurd rfl ((moving_keeps allowed).2.2 _ _)
    | close munmapOk =>
      rcases moving_cases allowed with calm | ⟨_, wrong⟩ | ⟨rfl, same⟩
      · exact calm.elim
      · cases wrong
      · cases same
        cases ((o.sound o.stale).apart has has').2
        refine ⟨?_, fun _ => moves⟩
        unfold Storage.close
        split
        · exact tables
        · split
          · exact .inr rfl
          · exact tables
    | other | lock | unlock | setLocker | enter | acquire | dec | release | oplog => exact ⟨tables, closed⟩

/-- What the goroutine knows after a step of its own. -/
theorem Source.moved {nodes : Host → Node} {owner : Host} {m : Move} (source : o.Source backup nodes)
    (differs : o.stale ≠ backup) (has : (o.nodes o.stale).Has o.place name r)
    (locked : m.Holds → (nodes o.stale).Locked r tid) (moves : o.MoveAt backup nodes name m)
    (allowed : (moving o.place name r owner).allows m c) (here : c.outgoing = none)
    (run : (nodes o.stale).exec tid c reply node) :
    (((moving o.place name r owner).after m c reply).Holds → node.Locked r tid) ∧
      o.MoveAt backup (Function.update nodes o.stale node) name ((moving o.place name r owner).after m c reply) := by
  have holds (keeps : c ≠ .unlock r) (was : m.Holds) : node.Locked r tid := Node.exec_locked run (locked was) keeps
  cases m with
  | start =>
    obtain rfl : c = _ := allowed
    obtain ⟨dm, found, _, rfl⟩ := run
    exact ⟨fun _ => ⟨_, setDMap_found.2 (.inl ⟨rfl, rfl⟩), rfl⟩, trivial⟩
  | locked =>
    obtain rfl : c = _ := allowed
    refine ⟨fun _ => holds nofun trivial, ?_⟩
    dsimp only [moving]
    split <;> trivial
  | unused =>
    obtain rfl : c = _ := allowed
    refine ⟨fun _ => holds nofun trivial, ?_⟩
    cases reply with
    | error e => trivial
    | ok tr => exact source.sends has run rfl
  | exported tr =>
    obtain rfl : c = _ := allowed
    cases here
  | accepted =>
    obtain rfl : c = _ := allowed
    exact ⟨fun _ => holds nofun trivial, (merged_of_stale differs).2 moves⟩
  | removed =>
    have merged : o.Merged backup (Function.update nodes o.stale node) name := (merged_of_stale differs).2 moves
    rcases allowed with rfl | rfl | rfl | rfl
    · exact ⟨fun _ => holds nofun trivial, merged⟩
    · exact ⟨fun _ => holds nofun trivial, merged⟩
    · exact ⟨fun _ => holds nofun trivial, merged⟩
    · exact ⟨fun held => held.elim, trivial⟩
  | leaving =>
    obtain rfl : c = _ := allowed
    exact ⟨fun held => held.elim, trivial⟩
  | done => exact allowed.elim

theorem Relocated.move_step {owner : Host} {m : Move} (differs : o.stale ≠ backup)
    (inv : o.Relocated backup net.nodes points) (known : points tid = some (origin, .move name r owner m))
    (allowed : (moving o.place name r owner).allows m c) (here : c.outgoing = none)
    (run : (net.nodes origin.host).exec tid c reply node) :
    o.Relocated backup (Function.update net.nodes origin.host node)
      (points.set tid (origin, .move name r owner ((moving o.place name r owner).after m c reply))) := by
  obtain ⟨rfl, rfl, has, locked, moves⟩ := inv.knows known
  change (net.nodes o.stale).exec tid c reply node at run
  change o.Relocated owner (Function.update net.nodes o.stale node) _
  have stale : Function.update net.nodes o.stale node o.stale = node := Function.update_self _ _ _
  have backup : Function.update net.nodes o.stale node owner = net.nodes owner :=
    Function.update_of_ne (Ne.symm differs) _ _
  have fresh : (points.say fun x => x.2.fresh) tid = none := say_fresh known
  refine { target := by rw [backup]; exact inv.target, apart := ?_,
           source := inv.source.move_step differs has moves allowed run, knows := fun {tid' origin' g'} known' => ?_ }
  · rw [backup, Points.say_set]
    change (net.nodes owner).Apart (Function.update _ tid none)
    rw [← fresh, Function.update_eq_self]
    exact inv.apart
  · rcases Points.set_eq_some.1 known' with ⟨rfl, now⟩ | ⟨other, old⟩
    · cases now
      obtain ⟨holds, at_⟩ := inv.source.moved differs has locked moves allowed here run
      exact ⟨rfl, rfl, has, fun held => by rw [stale]; exact holds held, at_⟩
    · have before := inv.knows old
      cases g' with
      | round last => exact before
      | move name' r' owner' m' =>
        obtain ⟨own, target, has', locked', moves'⟩ := before
        refine ⟨own, target, has', fun held => ?_, moveAt_of_stale differs moves'⟩
        rw [stale]
        refine Node.exec_locked run (locked' held) ?_
        rintro rfl
        obtain ⟨rfl, holds⟩ := moving_unlocks allowed
        exact other ((locked holds).unique (locked' held))
      | merge name' tr' m' =>
        obtain ⟨served, sends, at'⟩ := before
        exact ⟨served, sends, by rw [backup]; exact at'⟩

theorem Relocated.merge_step (differs : o.stale ≠ backup) (inv : o.Relocated backup net.nodes points)
    (outlined : Network.Outlined o.rules (fun _ => o.relocating) (fun _ answer g => g.Ends answer) net points)
    (known : points tid = some (origin, .merge name tr m)) (allowed : (merging o.place name tr).allows m c)
    (run : (net.nodes origin.host).exec tid c reply node) :
    o.Relocated backup (Function.update net.nodes origin.host node)
      (points.set tid (origin, .merge name tr ((merging o.place name tr).after m c reply))) := by
  obtain ⟨⟨caller, rfl⟩, sends, at'⟩ := inv.knows known
  change (net.nodes backup).exec tid c reply node at run
  change o.Relocated backup (Function.update net.nodes backup node) _
  have fresh : (points.say fun x => x.2.fresh) tid = m.fresh := say_fresh known
  obtain ⟨target, after, _, kept⟩ := merging_step inv.target sends at'
    (fun f here _ _ => inv.apart.unnamed (fresh.trans here)) allowed run
  have here : Function.update net.nodes backup node backup = node := Function.update_self _ _ _
  have stale : Function.update net.nodes backup node o.stale = net.nodes o.stale := Function.update_of_ne differs _ _
  have merged {name'} (done : o.Merged backup net.nodes name') :
      o.Merged backup (Function.update net.nodes backup node) name' := by
    unfold Merged at done ⊢
    rw [here]
    by_cases same : name' = name
    · subst same
      exact kept done
    · rw [(merging_others inv.apart at' allowed run same).1, done]
  refine { target := here.symm ▸ target, apart := ?_, source := ⟨?_, ?_, ?_⟩,
           knows := fun {tid' origin' g'} known' => ?_ }
  · rw [here, Points.say_set]
    refine inv.apart.exec run (fun p name' r stored => ?_) ?_
    · rw [fresh]
      exact (merging_stores allowed p name' r stored).1
    · rw [fresh]
      exact merging_gives allowed run
  · rw [stale]
    exact inv.source.held
  · intro name' r has
    rw [stale]
    exact (inv.source.kept has).imp_right merged
  · intro name' r has
    rw [stale]
    obtain ⟨dm₀, dm, found₀, found, tables, closed⟩ := inv.source.object has
    exact ⟨dm₀, dm, found₀, found, tables, fun now => merged (closed now)⟩
  · rcases Points.set_eq_some.1 known' with ⟨rfl, now⟩ | ⟨other, old⟩
    · cases now
      exact ⟨⟨caller, rfl⟩, sends, here.symm ▸ after⟩
    · have before := inv.knows old
      cases g' with
      | round last => exact before
      | move name' r owner m' =>
        obtain ⟨own, target, has, locked, moves⟩ := before
        refine ⟨own, target, has, by rw [stale]; exact locked, ?_⟩
        cases m' with
        | accepted | removed => exact merged moves
        | exported => exact moves
        | start | locked | unused | leaving | done => trivial
      | merge name' tr' m' =>
        obtain ⟨served, sends', at''⟩ := before
        refine ⟨served, sends', ?_⟩
        rw [here]
        by_cases same : name' = name
        · subst same
          -- Another goroutine that merges the same dmap has answered.
          by_cases working : ∀ answer, ¬ m'.Answers answer
          · exact absurd (inv.merges_alone outlined old known working (working_of_allowed at' allowed)) other
          · cases m' with
            | failed => trivial
            | stored | merged => exact kept at''
            | astray => exact at''.elim
            | start | imported | absent | found | locked | merging | missing | failing =>
              exact absurd (fun _ => id) working
        · obtain ⟨view, lookup⟩ := merging_others inv.apart at' allowed run same
          exact at''.frame view lookup fun f own copy =>
            merging_copies inv.apart at' allowed run ((say_fresh old).trans own) copy

end

theorem outline (one : ∀ owner ∈ o.backups, owner = backup) (listed : backup ∈ o.backups) :
    Network.Outline o.rules (fun _ _ => True) (fun _ => o.relocating) (fun _ answer g => g.Ends answer)
      fun _ nodes points => o.Relocated backup nodes points := by
  have differs : o.stale ≠ backup := by
    rintro rfl
    exact o.elsewhere listed
  refine { initial := ?_, spawn := ?_, perform := ?_, fork := ?_, silent := fun inv _ => inv, deliver := ?_,
           receive := ?_ }
  · rintro nodes rfl
    have none : (Points.say (fun _ => none) fun x : Origin Host Request × Relocation => x.2.fresh) = fun _ => none :=
      rfl
    refine ⟨⟨o.sound backup, .refl _, fun _ _ => .inl rfl⟩, ?_, ⟨id, .inl, fun {name r} has => ?_⟩, nofun⟩
    · rw [none]
      refine ⟨fun has => ?_, (o.sound backup).apart, nofun, nofun, nofun⟩
      obtain ⟨dm, found, _⟩ := (o.sound backup).valid has
      exact ⟨dm, found⟩
    · obtain ⟨dm, found, _⟩ := (o.sound o.stale).valid has
      refine ⟨dm, dm, found, found, .inl rfl, fun closed => ?_⟩
      rw [(o.idle _ _ _ found).2] at closed
      cases closed
  · rintro labels net points tid host p inv _ free _ ⟨rfl, rfl⟩
    exact ⟨_, moveBackupDMaps_relocates, inv.moves (say_fresh_free free) ⟨rfl, nofun⟩⟩
  · intro labels net points tid origin g c reply node inv outlined known allowed here _ exec
    obtain ⟨alone, run, _⟩ := exec
    cases g with
    | round last =>
      obtain ⟨rfl, looked⟩ := inv.knows known
      have fresh := say_fresh known
      rcases allowed with rfl | ⟨name, rfl⟩ | ⟨_, _, _, rfl, _⟩
      · obtain ⟨_, _, rfl⟩ := run
        rw [Function.update_eq_self]
        exact inv.moves fresh ⟨rfl, looked⟩
      · obtain ⟨found, rfl⟩ := run
        rw [Function.update_eq_self]
        refine inv.moves fresh ⟨rfl, fun name' r same => ?_⟩
        obtain ⟨r', here, same⟩ := Option.map_eq_some_iff.1 same
        cases same
        exact inv.source.held (found.symm.trans here)
      · cases alone
    | move name r owner m => exact inv.move_step differs known allowed here run
    | merge name tr m => exact inv.merge_step differs outlined known allowed run
  · intro labels net points tid origin g c reply child p inv _ known allowed _ forks free
    cases c
    case go job =>
      cases forks
      obtain ⟨name, r, owner, rfl, mem, rfl⟩ := relocating_forks allowed rfl
      obtain ⟨rfl, looked⟩ := inv.knows known
      have other : child ≠ tid := by
        rintro rfl
        rw [free] at known
        cases known
      have onward :=
        inv.moves (say_fresh known) (show o.Knows backup net.nodes tid (.own o.stale) (.round (some (name, r)))
        from ⟨rfl, looked⟩)
      refine ⟨_, moveDMap_relocates name r owner, onward.moves (say_fresh_free ?_) ?_⟩
      · rw [Points.set_of_ne other, free]
      · exact ⟨rfl, one owner mem, looked name r rfl, nofun, trivial⟩
    all_goals cases forks
  · intro labels net points tid origin g c requests i dst req handler inv _ known allowed away mem _ free
    obtain ⟨name, r, owner, tr, rfl, rfl, rfl⟩ := relocating_sends allowed away
    obtain ⟨rfl, rfl, has, _, sends⟩ := inv.knows known
    cases List.mem_singleton.1 mem
    exact ⟨_, mergeDMaps_relocates name tr, inv.moves (say_fresh_free free) ⟨⟨tid, rfl⟩, sends, trivial⟩⟩
  · intro labels net points tid origin g c requests resps reply inv _ known allowed away collected _ answers _
    obtain ⟨name, r, owner, tr, rfl, rfl, rfl⟩ := relocating_sends allowed away
    obtain ⟨rfl, rfl, has, locked, _⟩ := inv.knows known
    obtain ⟨resp, rest, ⟨h, g', served, ends⟩, _, rfl⟩ := List.forall₂_cons_left_iff.1 answers
    cases collected
    have fresh : (points.say fun x => x.2.fresh) tid = none := say_fresh known
    refine inv.moves fresh ?_
    -- The goroutine that has answered knows whether the dmap has been merged.
    have told := inv.knows served
    cases g' with
    | round last => cases told.1
    | move => cases told.1
    | merge name' tr' m =>
      obtain ⟨⟨caller, same⟩, _, at'⟩ := told
      cases same
      cases reply with
      | ok value =>
        refine ⟨rfl, rfl, has, fun _ => locked trivial, ?_⟩
        cases m with
        | stored | merged => exact at'
        | astray => exact at'.elim
        | failed => cases ends
        | start | imported | absent | found | locked | merging | missing | failing => exact ends.elim
      | keyNotFound | noSuchLock | failed => exact ⟨rfl, rfl, has, fun _ => locked trivial, trivial⟩

/-- With one backup owner, the stale owner has dropped a dmap, or closed its storage, only if the
backup owner has the entries. -/
theorem dropped_after_merge (o : StaleBackup) (one : ∀ owner ∈ o.backups, ∀ owner' ∈ o.backups, owner' = owner)
    {labels : List ClusterLabel} {net : Cluster} (run : (Network.system o.rules).AnyRun labels net) {name : Bytes}
    {r : Ref} (held : (o.nodes o.stale).Has o.place name r)
    (dropped : ¬ (net.nodes o.stale).Has o.place name r ∨ ∃ dm, (net.nodes o.stale).dmaps r = some dm ∧
      dm.str.closed = true) :
    ∀ backup ∈ o.backups, (net.nodes backup).view o.place name = o.merged backup name := by
  intro backup listed
  obtain ⟨points, inv, _⟩ := (outline (one backup listed) listed).run run
  rcases dropped with gone | ⟨dm, found, closed⟩
  · exact (inv.source.kept held).resolve_left gone
  · obtain ⟨_, dm', _, found', _, told⟩ := inv.source.object held
    cases found.symm.trans found'
    exact told closed

end StaleBackup

/-- The storage of a dmap with one key. -/
def keyStorage : Storage :=
  match freshStorage.put [] 7 keyEntry with
  | .ok (str, _) => str
  | .error _ => freshStorage

theorem freshStorage_new : Storage.new true 0 = .ok freshStorage := rfl

theorem keyStorage_put : freshStorage.put [] 7 keyEntry = .ok (keyStorage, none) := rfl

theorem keyStorage_spec : keyStorage.Valid ∧ keyStorage.layers.lookup 7 = some keyEntry := by
  obtain ⟨valid, _⟩ := Storage.new_spec freshStorage_new
  obtain ⟨valid', lookup⟩ := Storage.put_spec valid (by decide) keyStorage_put
  exact ⟨valid', by rw [lookup, Function.update_self]⟩

/-- A member that has the backup of the dmap `d` only. -/
def backupNode : Node where
  partition p := if p = ⟨true, 0⟩ then ⟨1, Finmap.singleton [100] 0, none⟩ else ⟨0, ∅, none⟩
  dmaps r := if r = 0 then some ⟨keyStorage, none, some newLocker, none⟩ else none
  oplogs _ := ∅
  syncing := []

theorem emptyNode_sound : emptyNode.Sound where
  valid has := by simp [Node.Has, emptyNode] at has
  apart has := by simp [Node.Has, emptyNode] at has

theorem backupNode_has {p : Place} {name : Bytes} {r : Ref} :
    backupNode.Has p name r ↔ p = ⟨true, 0⟩ ∧ name = [100] ∧ r = 0 := by
  unfold Node.Has backupNode
  by_cases here : p = ⟨true, 0⟩
  · by_cases named : name = [100]
    · subst here named
      simp [eq_comm]
    · simp [here, named, Finmap.lookup_eq_none.2]
  · simp [here]

theorem backupNode_sound : backupNode.Sound where
  valid has := by
    obtain ⟨_, _, rfl⟩ := backupNode_has.1 has
    exact ⟨_, rfl, keyStorage_spec.1⟩
  apart has has' := by
    obtain ⟨rfl, rfl, _⟩ := backupNode_has.1 has
    obtain ⟨rfl, rfl, _⟩ := backupNode_has.1 has'
    exact ⟨rfl, rfl⟩

def secondBackup : Host := ⟨[66], 0⟩

/-- The previous owner has the backup of the dmap `d`, and the backup owners have nothing. -/
def staleBackup (backups : List Host) (elsewhere : previousHost ∉ backups) : StaleBackup where
  members := twoMembers
  stale := previousHost
  partID := 0
  backups := backups
  nodes host := if host = previousHost then backupNode else emptyNode
  elsewhere := elsewhere
  sound host := by
    split
    · exact backupNode_sound
    · exact emptyNode_sound
  idle host r dm found := by
    split at found
    · simp only [backupNode] at found
      split at found
      · cases found
        exact ⟨rfl, rfl⟩
      · cases found
    · cases found

theorem staleBackup_held {backups : List Host} {elsewhere : previousHost ∉ backups} :
    ((staleBackup backups elsewhere).nodes previousHost).Has ⟨true, 0⟩ [100] 0 := backupNode_has.2 ⟨rfl, rfl, rfl⟩

/-- What a goroutine does on its own. -/
def Members.Goes (members : Members) (tid : Tid) (s : Node) (c : Cmd) (reply : c.Reply) (s' : Node) : Prop :=
  c.outgoing = none ∧ c.job = none ∧ s.exec tid c reply s' ∧ c.Routed members.routing reply

/-- The goroutine takes the mutex and exports the dmap. -/
theorem backupMove_reaches_request (tid : Tid) (owner : Host) {tr : Transport}
    (exported : keyStorage.exportTable = .ok tr) :
    ∃ next, (answered ((twoMembers.config previousHost).job (.moveDMap ⟨true, 0⟩ [100] 0 owner))).Reaches
      (twoMembers.Goes tid) backupNode (.call (.request owner (.moveDMap true ⟨0, [100], some tr⟩)) next)
      (backupNode.setDMap 0 ⟨keyStorage, some tid, some newLocker, none⟩) ∧
    next (.ok []) = (((twoMembers.config previousHost).dropMoved ⟨true, 0⟩ [100] 0).bind fun _ =>
      (act (.unlock 0)).bind fun _ => .ret (.ok [])) :=
  ⟨_, .step () ⟨rfl, rfl, ⟨_, rfl, rfl, rfl⟩, trivial⟩
    (.step (.ok tr) ⟨rfl, rfl, ⟨_, rfl, exported.symm, rfl⟩, trivial⟩ .refl), rfl⟩

/-- The backup owner has no such dmap and stores what it has got. -/
theorem merge_reaches_stored (tid : Tid) {tr : Transport} {t : Table}
    (imported : Storage.importTable true tr = .ok ⟨[t], false, false⟩) (host : Host) :
    ((twoMembers.config host).handle twoMembers.sum64 (.moveDMap true ⟨0, [100], some tr⟩)).Reaches
      (twoMembers.Goes tid)
      emptyNode (.ret (.ok [])) ((emptyNode.setDMap 0 ⟨⟨[t], false, false⟩, none, none, none⟩).setPartition ⟨true, 0⟩
        ⟨0, Finmap.singleton [100] 0, none⟩) :=
  .step (some 0) ⟨rfl, rfl, ⟨rfl, _, imported, rfl⟩, trivial⟩ (.step none ⟨rfl, rfl, ⟨rfl, rfl⟩, trivial⟩
    (.step () ⟨rfl, rfl, rfl, trivial⟩ .refl))

/-- The goroutine drops the dmap. -/
theorem drop_reaches_end (tid : Tid) : ∃ s, (∀ name r, ¬ s.Has ⟨true, 0⟩ name r) ∧
    (((twoMembers.config previousHost).dropMoved ⟨true, 0⟩ [100] 0).bind fun _ =>
      (act (.unlock 0)).bind fun _ => .ret (Response.ok [])).Reaches (twoMembers.Goes tid)
      (backupNode.setDMap 0 ⟨keyStorage, some tid, some newLocker, none⟩) (.ret (.ok [])) s := by
  refine ⟨_, ?_, .step () ⟨rfl, rfl, rfl, trivial⟩ (.step () ⟨rfl, rfl, rfl, trivial⟩ (.step true
    ⟨rfl, rfl, ⟨_, true, rfl, rfl, rfl⟩, trivial⟩ (.step () ⟨rfl, rfl, ⟨_, rfl, rfl⟩, trivial⟩ .refl)))⟩
  intro name r has
  by_cases named : name = [100]
  · subst named
    simp [Node.Has, Node.setDMap, Node.setPartition] at has
  · have before : backupNode.Has ⟨true, 0⟩ name r := by
      simpa [Node.Has, Node.setDMap, Node.setPartition, Finmap.lookup_erase_ne named] using has
    exact named (backupNode_has.1 before).2.1

/-- The look at the partition, up to the start of the first goroutine. -/
theorem round_reaches_go (tid : Tid) (owner : Host) (rest : List Host) : ∃ next,
    (answered (Config.moveBackupDMaps ⟨true, 0⟩ (owner :: rest))).Reaches (twoMembers.Goes tid) backupNode
      (.call (.go (.moveDMap ⟨true, 0⟩ [100] 0 owner)) next) backupNode ∧
    next () = answered (Config.moveBackupDMaps ⟨true, 0⟩ rest) :=
  ⟨_, .step [[100]] ⟨rfl, rfl, ⟨by simp, by simp [backupNode], rfl⟩, trivial⟩
    (.step (some 0) ⟨rfl, rfl, ⟨rfl, rfl⟩, trivial⟩ .refl), rfl⟩

/-- The first goroutine that is started gets to its end before the next one is started. -/
theorem first_move_drops {rest : List Host} (elsewhere : previousHost ∉ primaryHost :: rest) :
    ∃ net : Cluster, (Network.system (staleBackup (primaryHost :: rest) elsewhere).rules).Reachable net ∧
      (∀ name r, ¬ (net.nodes previousHost).Has ⟨true, 0⟩ name r) ∧
      (∀ host, host ≠ previousHost → host ≠ primaryHost → net.nodes host = emptyNode) ∧
      net.threads 0 = some ⟨previousHost, answered (Config.moveBackupDMaps ⟨true, 0⟩ rest), none, none⟩ ∧
      ∀ tid a, tid ≠ 0 → net.threads tid = some a → a.prog = .ret (.ok []) := by
  obtain ⟨str, tr, t, put, _, _, exported, imported, _⟩ := key_travels
  obtain rfl : str = keyStorage := by
    rw [keyStorage_put] at put
    cases put
    rfl
  obtain ⟨next₀, looks, goesOn₀⟩ := round_reaches_go 0 primaryHost rest
  obtain ⟨next₁, moves, goesOn₁⟩ := backupMove_reaches_request 1 primaryHost exported
  obtain ⟨dropped, gone, drops⟩ := drop_reaches_end 1
  have merges := merge_reaches_stored 2 imported primaryHost
  let rules := (staleBackup (primaryHost :: rest) elsewhere).rules
  let nodes := (staleBackup (primaryHost :: rest) elsewhere).nodes
  have start : (Network.system rules).Reachable ⟨nodes, fun _ => none⟩ := .start ⟨rfl, fun _ => rfl⟩
  have spawned : (Network.system rules).Reachable (Network.setThread ⟨nodes, fun _ => none⟩ 0
      ⟨previousHost, answered (Config.moveBackupDMaps ⟨true, 0⟩ (primaryHost :: rest)), none, none⟩) :=
    Network.reachable_spawn start 0 rfl ⟨rfl, rfl⟩
  have looked := Network.reachable_alone spawned 0 rfl rfl looks
  have forked := Network.reachable_fork looked 0 1 rfl rfl rfl
  rw [goesOn₀] at forked
  have asks := Network.reachable_alone forked 1 rfl rfl moves
  have served := Network.reachable_deliver (Network.reachable_send asks 1 rfl rfl) 1 2 (i := 0) rfl rfl rfl
  have stored := Network.reachable_alone served 2 rfl rfl merges
  have told := Network.reachable_receive (Network.reachable_answer stored 1 0 2 rfl rfl rfl) 1 [.ok []] rfl rfl rfl
  rw [goesOn₁] at told
  have ended := Network.reachable_alone told 1 rfl rfl drops
  refine ⟨_, ended, gone, ?_, rfl, ?_⟩
  · intro host notStale notFirst
    simp [Network.setNode, Network.setThread, notStale, notFirst, nodes, staleBackup]
  · intro tid a other found
    by_cases mover : tid = 1
    · subst mover
      cases found
      rfl
    · by_cases merger : tid = 2
      · subst merger
        cases found
        rfl
      · simp [Network.setNode, Network.setThread, other, mover, merger] at found

theorem staleBackup_merged {backups : List Host} {elsewhere : previousHost ∉ backups} {host : Host}
    (other : host ≠ previousHost) : (staleBackup backups elsewhere).merged host [100] 7 = some keyEntry := by
  have own : ((staleBackup backups elsewhere).nodes host).view ⟨true, 0⟩ [100] 7 = none := by
    simp [staleBackup, other, Node.view, emptyNode]
  have moved : (staleBackup backups elsewhere).moved [100] 7 = some keyEntry := by
    change backupNode.view ⟨true, 0⟩ [100] 7 = some keyEntry
    rw [Node.view_of_has (backupNode_has.2 ⟨rfl, rfl, rfl⟩) rfl]
    exact keyStorage_spec.2
  unfold StaleBackup.merged
  rw [moved]
  change (((staleBackup backups elsewhere).nodes host).view ⟨true, 0⟩ [100] 7).or _ = _
  rw [own]
  rfl

def oneBackup : StaleBackup := staleBackup [primaryHost] (by decide)

def twoBackups : StaleBackup := staleBackup [primaryHost, secondBackup] (by decide)

/-- With one backup owner, the dmap has been dropped, and the owner has the key. -/
theorem single_backup_gets_key : ∃ labels net, (Network.system oneBackup.rules).AnyRun labels net ∧
    ¬ (net.nodes previousHost).Has ⟨true, 0⟩ [100] 0 ∧ (net.nodes primaryHost).view ⟨true, 0⟩ [100] 7 =
      some keyEntry := by
  obtain ⟨net, ⟨labels, run⟩, gone, _⟩ := first_move_drops (show previousHost ∉ [primaryHost] by decide)
  have one : ∀ owner ∈ oneBackup.backups, ∀ owner' ∈ oneBackup.backups, owner' = owner := by
    intro owner mem owner' mem'
    exact (List.mem_singleton.1 mem').trans (List.mem_singleton.1 mem).symm
  have merged := StaleBackup.dropped_after_merge oneBackup one run staleBackup_held (.inl (gone [100] 0)) primaryHost
    List.mem_cons_self
  exact ⟨labels, net, run, gone [100] 0, (congrFun merged 7).trans (staleBackup_merged (by decide))⟩

/-- With two backup owners, the first goroutine drops the dmap. The second owner never gets it. -/
theorem second_backup_gets_nothing : ∃ labels net, (Network.system twoBackups.rules).AnyRun labels net ∧
    (twoBackups.nodes twoBackups.stale).Has ⟨true, 0⟩ [100] 0 ∧ ¬ (net.nodes twoBackups.stale).Has ⟨true, 0⟩ [100] 0 ∧
    (∀ tid a, net.threads tid = some a → a.prog = .ret (.ok [])) ∧ secondBackup ∈ twoBackups.backups ∧
    (net.nodes secondBackup).view ⟨true, 0⟩ [100] 7 = none ∧
      twoBackups.merged secondBackup [100] 7 = some keyEntry := by
  obtain ⟨net, reach, gone, untouched, main, others⟩ :=
    first_move_drops (show previousHost ∉ [primaryHost, secondBackup] by decide)
  have empty (name : Bytes) : name ∈ ([] : List Bytes) ↔ name ∈ ((net.nodes previousHost).partition ⟨true, 0⟩).m := by
    constructor
    · exact nofun
    · intro mem
      obtain ⟨r, has⟩ := Finmap.mem_iff.1 mem
      exact absurd has (gone name r)
  obtain ⟨labels, run⟩ := Network.reachable_alone reach 0 main rfl
    (.step [] ⟨rfl, rfl, ⟨.nil, empty, rfl⟩, trivial⟩ .refl)
  refine ⟨labels, _, run, staleBackup_held, ?_, ?_, by decide, ?_, staleBackup_merged (by decide)⟩
  · exact gone [100] 0
  · intro tid a found
    by_cases this : tid = 0
    · subst this
      cases found
      rfl
    · exact others tid a this (by simpa [Network.setNode, Network.setThread, this] using found)
  · rw [Network.setNode_nodes, if_neg (show ¬ secondBackup = previousHost by decide)]
    change (net.nodes secondBackup).view ⟨true, 0⟩ [100] 7 = none
    rw [untouched secondBackup (by decide) (by decide)]
    rfl

end Olric
