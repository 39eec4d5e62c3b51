import Olric.Node.Apart

namespace Olric

/-- What a goroutine has at some point: a dmap that it has made and not stored, one that it has found
under a name, the mutex of a dmap, the lock of a partition, and a name that it has seen to be free
under that lock. -/
structure Grip where
  fresh : Option Ref := none
  named : Option (Place × Bytes × Ref) := none
  locked : Option Ref := none
  inside : Option Place := none
  absent : Option (Place × Bytes) := none

/-- The commands after which a name has the object. -/
inductive Cmd.Finds (p : Place) (name : Bytes) (r : Ref) : (c : Cmd) → c.Reply → Prop
  | load : Finds p name r (.load p name) (some r)
  | store {reply} : Finds p name r (.store p name r) reply

inductive Cmd.Misses (p : Place) (name : Bytes) : (c : Cmd) → c.Reply → Prop
  | load : Misses p name (.load p name) none

/-- How what a goroutine has can change by a command. -/
structure Grip.After (c : Cmd) (reply : c.Reply) (before after : Grip) : Prop where
  fresh : Node.Gives c reply before.fresh after.fresh
  stores : ∀ p name r, c = .store p name r → before.fresh = some r
  named : ∀ p name r, after.named = some (p, name, r) → before.named = some (p, name, r) ∨ c.Finds p name r reply
  locked : ∀ r, after.locked = some r → before.locked = some r ∧ c ≠ .unlock r ∨ c = .lock r
  unlocks : ∀ r, c = .unlock r → before.locked = some r
  inside : ∀ p, after.inside = some p → before.inside = some p ∧ c ≠ .unlockPartition p ∨ c = .lockPartition p
  leaves : ∀ p, c = .unlockPartition p → before.inside = some p
  absent : ∀ p name, after.absent = some (p, name) → after.inside = some p ∧
    (before.absent = some (p, name) ∧ (∀ r, c ≠ .store p name r) ∨ c.Misses p name reply)

/-- Most commands change nothing of what a goroutine has. -/
theorem Grip.After.stay {c : Cmd} {reply : c.Reply} {g : Grip} (stores : ∀ p name r, c ≠ .store p name r)
    (unlocks : ∀ r, c ≠ .unlock r) (leaves : ∀ p, c ≠ .unlockPartition p)
    (absent : ∀ p name, g.absent = some (p, name) → g.inside = some p) : Grip.After c reply g g where
  fresh := .inr (.inl ⟨rfl, stores⟩)
  stores p name r stored := absurd stored (stores p name r)
  named _ _ _ now := .inl now
  locked r now := .inl ⟨now, unlocks r⟩
  unlocks r unlocked := absurd unlocked (unlocks r)
  inside p now := .inl ⟨now, leaves p⟩
  leaves p left := absurd left (leaves p)
  absent p name now := ⟨absent p name now, .inl ⟨now, stores p name⟩⟩

section

variable {c : Cmd} {reply : c.Reply} {g : Grip} {p : Place} {name : Bytes} {r : Ref}

theorem Grip.After.takes {reply : (Cmd.lock r).Reply}
    (absent : ∀ p name, g.absent = some (p, name) → g.inside = some p) :
    Grip.After (.lock r) reply g { g with locked := some r } :=
  { (Grip.After.stay nofun nofun nofun absent : Grip.After (.lock r) reply g g) with
    locked := fun _ now => .inr (by rw [Option.some.inj now]) }

/-- A goroutine that gives a mutex back has nothing more to do with the dmap. -/
theorem Grip.After.gives {reply : (Cmd.unlock r).Reply} (held : g.locked = some r) :
    Grip.After (.unlock r) reply g {} where
  fresh := .inl rfl
  stores := nofun
  named := nofun
  locked := nofun
  unlocks r' same := by
    cases same
    exact held
  inside := nofun
  leaves := nofun
  absent := nofun

/-- A goroutine that leaves a partition may have found a dmap there. -/
theorem Grip.After.leave {reply : (Cmd.unlockPartition p).Reply} (held : g.inside = some p)
    {named : Option (Place × Bytes × Ref)} (known : named = none ∨ named = g.named) :
    Grip.After (.unlockPartition p) reply g { named := named } where
  fresh := .inl rfl
  stores := nofun
  named _ _ _ now := by
    rcases known with rfl | rfl
    · cases now
    · exact .inl now
  locked := nofun
  unlocks := nofun
  inside := nofun
  leaves p' same := by
    cases same
    exact held
  absent := nofun

end

namespace Node

/-- Every goroutine has what it thinks it has. -/
structure Gripped (s : Node) (grips : Tid → Grip) : Prop where
  apart : s.Apart fun tid => (grips tid).fresh
  named : ∀ {tid p name r}, (grips tid).named = some (p, name, r) → s.Has p name r
  locked : ∀ {tid r}, (grips tid).locked = some r → s.Locked r tid

/-- The names that a goroutine has seen to be free under the lock of their partition are free. -/
structure Guarded (s : Node) (grips : Tid → Grip) : Prop where
  inside : ∀ {tid p}, (grips tid).inside = some p → (s.partition p).mutex = some tid
  absent : ∀ {tid p name}, (grips tid).absent = some (p, name) →
    (grips tid).inside = some p ∧ (s.partition p).m.lookup name = none

variable {tid : Tid} {s s' : Node} {p : Place} {name : Bytes} {r : Ref} {c : Cmd} {reply : c.Reply}
  {grips : Tid → Grip} {next : Grip}

theorem exec_finds (run : s.exec tid c reply s') (finds : c.Finds p name r reply) : s'.Has p name r := by
  cases finds with
  | load =>
    obtain ⟨found, rfl⟩ := run
    exact found.symm
  | store =>
    obtain rfl := run
    simp [Has, setPartition]

theorem exec_misses (run : s.exec tid c reply s') (misses : c.Misses p name reply) :
    (s'.partition p).m.lookup name = none := by
  cases misses with
  | load =>
    obtain ⟨missed, rfl⟩ := run
    exact missed.symm

theorem exec_lock (run : s.exec tid (.lock r) () s') : s'.Locked r tid := by
  obtain ⟨dm, _, _, rfl⟩ := run
  exact ⟨_, setDMap_found.2 (.inl ⟨rfl, rfl⟩), rfl⟩

/-- What one goroutine has after a command, and what the others have. -/
theorem update_cases {α : Type} {f : Grip → Option α} {x : α} {tid' : Tid}
    (now : f (Function.update grips tid next tid') = some x) :
    tid' = tid ∧ f next = some x ∨ tid' ≠ tid ∧ f (grips tid') = some x := by
  by_cases same : tid' = tid
  · subst same
    exact .inl ⟨rfl, by simpa using now⟩
  · exact .inr ⟨same, by simpa [same] using now⟩

/-- A command of one goroutine takes nothing away from the others if it stores only under free names
and removes no name whose dmap somebody has. -/
theorem Gripped.exec (gripped : s.Gripped grips) (run : s.exec tid c reply s')
    (after : Grip.After c reply (grips tid) next)
    (free : ∀ p name r, c = .store p name r → (s.partition p).m.lookup name = none)
    (stays : ∀ p name, c = .remove p name → ∀ tid' r,
      (Function.update grips tid next tid').named ≠ some (p, name, r)) :
    s'.Gripped (Function.update grips tid next) where
  apart := by
    have fresh : (fun tid' => (Function.update grips tid next tid').fresh) =
        Function.update (fun tid' => (grips tid').fresh) tid next.fresh :=
          Function.comp_update Grip.fresh grips tid next
    rw [fresh]
    exact gripped.apart.exec run after.stores after.fresh
  named {tid' p name r} now := by
    have kept (before : s.Has p name r) : s'.Has p name r := by
      refine exec_has run before ?_ ?_
      · rintro rfl
        exact stays p name rfl tid' r now
      · rintro r' rfl
        cases (free p name r' rfl).symm.trans before
    rcases update_cases now with ⟨rfl, mine⟩ | ⟨_, theirs⟩
    · rcases after.named p name r mine with before | finds
      · exact kept (gripped.named before)
      · exact exec_finds run finds
    · exact kept (gripped.named theirs)
  locked {tid' r} now := by
    rcases update_cases now with ⟨rfl, mine⟩ | ⟨differs, theirs⟩
    · rcases after.locked r mine with ⟨before, keeps⟩ | rfl
      · exact exec_locked run (gripped.locked before) keeps
      · exact exec_lock run
    · refine exec_locked run (gripped.locked theirs) ?_
      rintro rfl
      exact differs ((gripped.locked (after.unlocks r rfl)).unique (gripped.locked theirs))

/-- The lock of a partition changes only by commands about it. -/
theorem exec_partition_mutex (run : s.exec tid c reply s') (locks : c ≠ .lockPartition p)
    (unlocks : c ≠ .unlockPartition p) : (s'.partition p).mutex = (s.partition p).mutex := by
  cases c
  case lockPartition p' =>
    obtain ⟨_, rfl⟩ := run
    have other : p ≠ p' := by
      rintro rfl
      exact locks rfl
    simp [setPartition, other]
  case unlockPartition p' =>
    obtain rfl := run
    have other : p ≠ p' := by
      rintro rfl
      exact unlocks rfl
    simp [setPartition, other]
  case store p' _ _ | remove p' _ | addCount p' _ =>
    obtain rfl := run
    by_cases here : p = p'
    · subst here
      simp [setPartition]
    · simp [setPartition, here]
  case newStorage | importStorage =>
    cases reply with
    | none =>
      obtain rfl := run
      rfl
    | some r =>
      obtain ⟨_, _, _, rfl⟩ := run
      rfl
  all_goals
    simp only [Node.exec] at run
    grind [Node.setDMap, Node.setOplogs, Node.setSyncing, Node.unregister]

/-- Goroutines that store only under names that they have seen to be free exclude each other. -/
theorem Guarded.exec (guarded : s.Guarded grips) (run : s.exec tid c reply s')
    (after : Grip.After c reply (grips tid) next)
    (stores : ∀ p name r, c = .store p name r → (grips tid).absent = some (p, name)) :
    s'.Guarded (Function.update grips tid next) := by
  have alone {tid' p} (mine : (grips tid).inside = some p) (theirs : (grips tid').inside = some p) : tid' = tid :=
    Option.some.inj ((guarded.inside theirs).symm.trans (guarded.inside mine))
  have missing {p name} (before : (s.partition p).m.lookup name = none) (unstored : ∀ r, c ≠ .store p name r) :
      (s'.partition p).m.lookup name = none := by
    cases has : (s'.partition p).m.lookup name with
    | none => rfl
    | some r =>
      rcases exec_has_origin run has with there | stored
      · cases before.symm.trans there
      · exact absurd stored (unstored r)
  have holds {tid' p} (held : (s.partition p).mutex = some tid') (keeps : c ≠ .unlockPartition p) :
      (s'.partition p).mutex = some tid' := by
    rw [exec_partition_mutex run ?_ keeps, held]
    rintro rfl
    cases run.1.symm.trans held
  constructor
  · intro tid' p now
    rcases update_cases now with ⟨rfl, mine⟩ | ⟨differs, theirs⟩
    · rcases after.inside p mine with ⟨before, keeps⟩ | rfl
      · exact holds (guarded.inside before) keeps
      · obtain ⟨_, rfl⟩ := run
        simp [setPartition]
    · refine holds (guarded.inside theirs) ?_
      rintro rfl
      exact differs (alone (after.leaves p rfl) theirs)
  · intro tid' p name now
    rcases update_cases now with ⟨rfl, mine⟩ | ⟨differs, theirs⟩
    · obtain ⟨inside, before⟩ := after.absent p name mine
      refine ⟨by simpa using inside, ?_⟩
      rcases before with ⟨before, unstored⟩ | misses
      · exact missing (guarded.absent before).2 unstored
      · exact exec_misses run misses
    · obtain ⟨inside, before⟩ := guarded.absent theirs
      refine ⟨by simpa [differs] using inside, missing before ?_⟩
      rintro r rfl
      exact differs (alone (guarded.absent (stores p name r rfl)).1 inside)

end Node

/-- What a goroutine has that looks for a dmap. -/
def Search.grip (p : Place) (name : Bytes) : Search → Grip
  | .inside | .leaving => { inside := some p }
  | .absent => { inside := some p, absent := some (p, name) }
  | .made r => { fresh := some r, inside := some p, absent := some (p, name) }
  | .stored r => { named := some (p, name, r), inside := some p }
  | .found r => { named := some (p, name, r) }
  | .start | .missing | .failed => {}

/-- What a goroutine has that merges an imported dmap. -/
def Merge.grip (p : Place) (name : Bytes) : Merge → Grip
  | .imported fresh | .absent fresh => { fresh := some fresh }
  | .found fresh r => { fresh := some fresh, named := some (p, name, r) }
  | .locked fresh r => { fresh := some fresh, named := some (p, name, r), locked := some r }
  | .merging r _ | .missing r _ _ _ | .failing r | .astray r => { named := some (p, name, r), locked := some r }
  | .start | .stored _ | .merged _ | .failed => {}

section

variable {p : Place} {name : Bytes} {c : Cmd} {reply : c.Reply} {tid : Tid} {s s' : Node}

theorem searching_grip {g : Search} (allowed : (searching p name).allows g c) (run : s.exec tid c reply s') :
    Grip.After c reply (g.grip p name) (((searching p name).after g c reply).grip p name) := by
  cases g with
  | start =>
    obtain rfl := allowed
    cases reply with
    | none => exact .stay nofun nofun nofun nofun
    | some r =>
      change Grip.After _ _ {} { named := some (p, name, r) }
      constructor <;> simp [Node.Gives, Cmd.Finds.load]
  | missing =>
    obtain rfl := allowed
    change Grip.After _ _ {} { inside := some p }
    constructor <;> simp [Node.Gives]
  | inside =>
    obtain rfl := allowed
    cases reply with
    | none =>
      change Grip.After _ _ { inside := some p } { inside := some p, absent := some (p, name) }
      constructor <;> simp [Node.Gives, Cmd.Misses.load]
    | some r =>
      change Grip.After _ _ { inside := some p } { named := some (p, name, r), inside := some p }
      constructor <;> simp [Node.Gives, Cmd.Finds.load]
  | absent =>
    have gives := searching_gives allowed run
    obtain rfl := allowed
    cases reply with
    | none =>
      change Grip.After _ _ { inside := some p, absent := some (p, name) } { inside := some p }
      constructor <;> simp [Node.Gives]
    | some r =>
      change Grip.After _ _ { inside := some p, absent := some (p, name) }
        { fresh := some r, inside := some p, absent := some (p, name) }
      refine ⟨gives, ?_, ?_, ?_, ?_, ?_, ?_, ?_⟩ <;> simp
  | made r =>
    have within : ∀ p' name', some (p, name) = some (p', name') → some p = some p' := by simp
    rcases allowed with rfl | rfl | rfl | rfl
    · exact .stay nofun nofun nofun within
    · exact .stay nofun nofun nofun within
    · change Grip.After _ _ { fresh := some r, inside := some p, absent := some (p, name) }
        { named := some (p, name, r), inside := some p }
      constructor <;> simp [Node.Gives, Cmd.Finds.store]
    · exact .leave rfl (.inl rfl)
  | stored r =>
    rcases allowed with rfl | rfl
    · exact .stay nofun nofun nofun nofun
    · exact .leave rfl (.inr rfl)
  | leaving =>
    obtain rfl := allowed
    exact .leave rfl (.inl rfl)
  | found | failed => exact allowed.elim

/-- A goroutine that looks for a dmap stores a new one only under a name that it has seen to be free. -/
theorem searching_guards {g : Search} {q : Place} {name' : Bytes} {r : Ref}
    (allowed : (searching p name).allows g (.store q name' r)) : (g.grip p name).absent = some (q, name') := by
  obtain ⟨made, rfl, rfl⟩ := searching_stores allowed q name' r rfl
  cases g with
  | made => rfl
  | start | missing | inside | absent | stored | leaving | found | failed => cases made

theorem merging_grip {tr : Transport} {m : Merge} (allowed : (merging p name tr).allows m c)
    (run : s.exec tid c reply s') (straight : ∀ r, m ≠ .astray r) :
    Grip.After c reply (m.grip p name) (((merging p name tr).after m c reply).grip p name) := by
  cases m with
  | start =>
    have gives := merging_gives allowed run
    obtain rfl := allowed
    cases reply with
    | none => exact .stay nofun nofun nofun nofun
    | some fresh =>
      change Grip.After _ _ {} { fresh := some fresh }
      refine ⟨gives, ?_, ?_, ?_, ?_, ?_, ?_, ?_⟩ <;> simp
  | imported fresh =>
    obtain rfl := allowed
    cases reply with
    | none => exact .stay nofun nofun nofun nofun
    | some r =>
      change Grip.After _ _ { fresh := some fresh } { fresh := some fresh, named := some (p, name, r) }
      constructor <;> simp [Node.Gives, Cmd.Finds.load]
  | absent fresh =>
    rcases allowed with rfl | rfl
    · exact .stay nofun nofun nofun nofun
    · change Grip.After _ _ { fresh := some fresh } {}
      constructor <;> simp [Node.Gives]
  | found fresh r =>
    obtain rfl := allowed
    exact .takes nofun
  | locked fresh r =>
    obtain rfl := allowed
    have after : Grip.After (.visits fresh) reply
        { fresh := some fresh, named := some (p, name, r), locked := some r }
        { named := some (p, name, r), locked := some r } := by
      constructor <;> simp [Node.Gives]
    rcases reply with _ | ⟨entries, _ | ⟨more, tables⟩⟩ <;> exact after
  | merging r left =>
    cases left with
    | nil =>
      obtain rfl := allowed
      exact .gives rfl
    | cons e left =>
      obtain rfl := allowed
      cases reply <;> exact .stay nofun nofun nofun nofun
  | missing r hkey entry left =>
    obtain rfl := allowed
    cases reply <;> exact .stay nofun nofun nofun nofun
  | failing r =>
    obtain rfl := allowed
    exact .gives rfl
  | astray r => exact absurd rfl (straight r)
  | stored | merged | failed => exact allowed.elim

end

end Olric
