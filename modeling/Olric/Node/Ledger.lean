import Olric.Node.View

namespace Olric

open Program

/-- What the snapshot of a member works with: the dmaps of the partitions, the registered oplogs,
and the storage and the oplog of every dmap object. -/
structure Ledger where
  names : Place → Finmap fun _ : Bytes => Ref
  registry : UInt64 → Finmap fun _ : Bytes => Ref
  objects : Ref → Option (Storage × Option (Finmap fun _ : UInt64 => LogOp))

def Node.ledger (s : Node) : Ledger where
  names p := (s.partition p).m
  registry := s.oplogs
  objects r := (s.dmaps r).map fun dm => (dm.str, dm.oplog)

namespace Ledger

variable (l : Ledger)

def setObject (r : Ref) (str : Storage) (log : Option (Finmap fun _ : UInt64 => LogOp)) : Ledger :=
  { l with objects := Function.update l.objects r (some (str, log)) }

def setName (p : Place) (name : Bytes) (r : Ref) : Ledger :=
  { l with names := Function.update l.names p ((l.names p).insert name r) }

def eraseName (p : Place) (name : Bytes) : Ledger :=
  { l with names := Function.update l.names p ((l.names p).erase name) }

def register (partID : UInt64) (name : Bytes) (r : Ref) : Ledger :=
  { l with registry := Function.update l.registry partID ((l.registry partID).insert name r) }

def unregister (partID : UInt64) (name : Bytes) : Ledger :=
  { l with registry := Function.update l.registry partID ((l.registry partID).erase name) }

end Ledger

/-- The commands that leave the ledger as it is. -/
def Cmd.Harmless : Cmd → Prop
  | .store .. | .remove .. | .newStorage | .importStorage _ | .put .. | .delete .. | .close _ | .log .. | .drain _
  | .relog .. | .register .. | .unregister .. | .destroySnapshot .. => False
  | _ => True

namespace Node

variable {tid : Tid} {s s' : Node} {p : Place} {name : Bytes} {r : Ref} {hkey : UInt64} {c : Cmd} {reply : c.Reply}

theorem ledger_setDMap {dm : DMap} : (s.setDMap r dm).ledger = s.ledger.setObject r dm.str dm.oplog := by
  unfold ledger Ledger.setObject setDMap
  congr 1
  funext r'
  by_cases same : r' = r
  · subst same
    simp
  · simp [same]

theorem ledger_objects {str : Storage} {log : Option (Finmap fun _ : UInt64 => LogOp)} :
    s.ledger.objects r = some (str, log) ↔ ∃ dm, s.dmaps r = some dm ∧ dm.str = str ∧ dm.oplog = log := by
  simp [ledger]

theorem exec_registry (run : s.exec tid c reply s') (harmless : c.Harmless) : s'.oplogs = s.oplogs := by
  cases c
  case store | remove | newStorage | importStorage | put | delete | close | log | drain | relog | register
    | unregister
    | destroySnapshot => exact harmless.elim
  all_goals
    simp only [exec] at run
    grind [setPartition, setDMap, setSyncing]

theorem exec_harmless (run : s.exec tid c reply s') (harmless : c.Harmless) : s'.ledger = s.ledger := by
  have names : s'.ledger.names = s.ledger.names :=
    funext fun p => exec_m run (by rintro _ _ _ rfl; exact harmless) (by rintro _ _ rfl; exact harmless) p
  have objects : s'.ledger.objects = s.ledger.objects := by
    funext r
    cases found : s.dmaps r with
    | some dm =>
      obtain ⟨dm', found', change⟩ := exec_change run found
      simp only [ledger, found, found', Option.map_some, Option.some.injEq, Prod.mk.injEq]
      cases change with
      | put | delete | close => exact harmless.elim
      | oplog writes => rcases writes with ⟨_, _, rfl⟩ | rfl | ⟨_, rfl⟩ | ⟨_, _, rfl⟩ <;> exact harmless.elim
      | other | lock | unlock | setLocker | enter | acquire | dec | release => exact ⟨rfl, rfl⟩
    | none =>
      cases found' : s'.dmaps r with
      | none => simp [ledger, found, found']
      | some dm' =>
        rcases exec_origin run found' with ⟨dm, before, _⟩ | ⟨_, str, _, made⟩
        · cases found.symm.trans before
        · cases c
          case newStorage | importStorage => exact harmless.elim
          all_goals exact made.elim
  have registry : s'.ledger.registry = s.ledger.registry := exec_registry run harmless
  calc s'.ledger = ⟨s'.ledger.names, s'.ledger.registry, s'.ledger.objects⟩ := rfl
    _ = s.ledger := by rw [names, objects, registry]

theorem ledger_setName : (s.setPartition p { s.partition p with m := (s.partition p).m.insert name r }).ledger =
    s.ledger.setName p name r := by
  unfold ledger Ledger.setName setPartition
  congr 1
  funext q
  by_cases here : q = p
  · subst here
    simp
  · simp [here]

theorem ledger_eraseName : (s.setPartition p { s.partition p with m := (s.partition p).m.erase name }).ledger =
    s.ledger.eraseName p name := by
  unfold ledger Ledger.eraseName setPartition
  congr 1
  funext q
  by_cases here : q = p
  · subst here
    simp
  · simp [here]

theorem ledger_found {dm : DMap} (found : s.dmaps r = some dm) : s.ledger.objects r = some (dm.str, dm.oplog) := by
  simp [ledger, found]

theorem ledger_missing (free : s.dmaps r = none) : s.ledger.objects r = none := by simp [ledger, free]

/-- A command that writes to the storage of a dmap. -/
theorem exec_put_ledger {value : VData} {err : Option StorageError} (run : s.exec tid (.put r hkey value) err s') :
    ∃ str log mmaps str', s.ledger.objects r = some (str, log) ∧ str.put mmaps hkey value = .ok (str', err) ∧
      s'.ledger = s.ledger.setObject r str' log := by
  obtain ⟨dm, mmaps, str, found, stored, rfl⟩ := run
  exact ⟨dm.str, dm.oplog, mmaps, str, ledger_found found, stored, ledger_setDMap⟩

theorem exec_delete_ledger {err : Option StorageError} (run : s.exec tid (.delete r hkey) err s') :
    ∃ str log mmapOk str', s.ledger.objects r = some (str, log) ∧ str.delete mmapOk hkey = .ok (str', err) ∧
      s'.ledger = s.ledger.setObject r str' log := by
  obtain ⟨dm, mmapOk, str, found, deleted, rfl⟩ := run
  exact ⟨dm.str, dm.oplog, mmapOk, str, ledger_found found, deleted, ledger_setDMap⟩

theorem exec_close_ledger {ok : Bool} (run : s.exec tid (.close r) ok s') :
    ∃ str log munmapOk, s.ledger.objects r = some (str, log) ∧ ok = (str.close munmapOk).2 ∧
      s'.ledger = s.ledger.setObject r (str.close munmapOk).1 log := by
  obtain ⟨dm, munmapOk, found, rfl, rfl⟩ := run
  exact ⟨dm.str, dm.oplog, munmapOk, ledger_found found, rfl, ledger_setDMap⟩

theorem exec_log_ledger {op : LogOp} (run : s.exec tid (.log r hkey op) () s') :
    ∃ str log, s.ledger.objects r = some (str, some log) ∧
      s'.ledger = s.ledger.setObject r str (some (log.insert hkey op)) := by
  obtain ⟨dm, log, found, has, rfl⟩ := run
  exact ⟨dm.str, log, by rw [ledger_found found, has], ledger_setDMap⟩

/-- The sync of an oplog changes nothing but what is logged. -/
theorem exec_relog_ledger {ops : List (UInt64 × LogOp)} (run : s.exec tid (.relog r ops) () s') :
    ∃ str log log', s.ledger.objects r = some (str, some log) ∧ s'.ledger = s.ledger.setObject r str (some log') := by
  obtain ⟨dm, log, found, has, rfl⟩ := run
  exact ⟨dm.str, log, _, by rw [ledger_found found, has], ledger_setDMap⟩

theorem exec_drain_ledger {ops : List (UInt64 × LogOp)} (run : s.exec tid (.drain r) ops s') :
    ∃ str log log', s.ledger.objects r = some (str, some log) ∧ s'.ledger = s.ledger.setObject r str (some log') := by
  obtain ⟨dm, log, found, has, _, _, rfl⟩ := run
  exact ⟨dm.str, log, _, by rw [ledger_found found, has], ledger_setDMap⟩

theorem exec_newStorage_ledger (run : s.exec tid .newStorage (some r) s') : s.ledger.objects r = none ∧
    ∃ str, Storage.new true 0 = .ok str ∧ s'.ledger = s.ledger.setObject r str none := by
  obtain ⟨free, str, made, rfl⟩ := run
  exact ⟨ledger_missing free, str, made, ledger_setDMap⟩

theorem exec_register_ledger (run : s.exec tid (.register p name r) true s') : ∃ str log,
    s.ledger.objects r = some (str, log) ∧ s'.ledger = (s.ledger.register p.id name r).setObject r str (some ∅) := by
  obtain ⟨_, dm, found, rfl⟩ := run
  exact ⟨dm.str, dm.oplog, ledger_found found, ledger_setDMap⟩

theorem exec_unregister_ledger {ok : Bool} (run : s.exec tid (.unregister p name) ok s') :
    s'.ledger = if ok then s.ledger.unregister p.id name else s.ledger := by
  obtain ⟨_, rfl⟩ := run
  cases ok <;> rfl

theorem exec_destroySnapshot_ledger {ok : Bool} (run : s.exec tid (.destroySnapshot p name) ok s') :
    s'.ledger = if ok then s.ledger.unregister p.id name else s.ledger := by
  obtain ⟨_, rfl⟩ := run
  cases ok <;> rfl

end Node

/-- A program whose commands are all harmless. -/
theorem runs_harmless {α : Type} {prog : Prog α} (only : prog.Only Cmd.Harmless) {tid : Tid} {s s' : Node} {a : α}
    (run : prog.Runs (Node.exec tid) s a s') : s'.ledger = s.ledger :=
  only.runs_rel (fun s s' : Node => s'.ledger = s.ledger) (fun _ => rfl) (fun first second => second.trans first)
    (fun allowed now => Node.exec_harmless now allowed) run

namespace Ledger

/-- What is in the storage of an object. -/
def content (l : Ledger) (r : Ref) (hkey : UInt64) : Option VData :=
  (l.objects r).bind fun o => o.1.layers.lookup hkey

/-- The hkey is in the oplog of the object. -/
def Logged (l : Ledger) (r : Ref) (hkey : UInt64) : Prop := ∃ str log, l.objects r = some (str, some log) ∧ hkey ∈ log

def Has (l : Ledger) (p : Place) (name : Bytes) (r : Ref) : Prop := (l.names p).lookup name = some r

/-- Every stored dmap has an oplog, and it is the one that is registered for the partition. -/
def Recorded (l : Ledger) : Prop := ∀ p name r, l.Has p name r →
  (l.registry p.id).lookup name = some r ∧ ∃ str log, l.objects r = some (str, some log)

/-- The other table of the partition. -/
def twin (p : Place) : Place := ⟨!p.backup, p.id⟩

/-- No name is in both tables of a partition, and no object has two names. The tables of a storage
that has been closed are gone. -/
structure Sound (l : Ledger) : Prop where
  recorded : l.Recorded
  storages : ∀ r str log, l.objects r = some (str, log) → str.Valid ∨ str.tables = []
  apart : ∀ p name, name ∈ l.names p → name ∉ l.names (twin p)
  once : ∀ p q name name' r, l.Has p name r → l.Has q name' r → p = q ∧ name = name'

/-- Every change of a content is logged, and nothing is taken out of an oplog. -/
structure Writes (l l' : Ledger) : Prop where
  changes : ∀ r hkey, l'.content r hkey ≠ l.content r hkey → l'.Logged r hkey
  keeps : ∀ r hkey, l.Logged r hkey → l'.Logged r hkey

theorem Writes.refl (l : Ledger) : l.Writes l := ⟨fun _ _ change => absurd rfl change, fun _ _ logged => logged⟩

theorem Writes.trans {l₁ l₂ l₃ : Ledger} (first : l₁.Writes l₂) (second : l₂.Writes l₃) : l₁.Writes l₃ where
  changes r hkey change := by
    by_cases same : l₂.content r hkey = l₁.content r hkey
    · exact second.changes r hkey (same.symm ▸ change)
    · exact second.keeps r hkey (first.changes r hkey same)
  keeps r hkey logged := second.keeps r hkey (first.keeps r hkey logged)

section

variable {l : Ledger} {p : Place} {name : Bytes} {r : Ref} {str str' : Storage}
  {log : Finmap fun _ : UInt64 => LogOp} {hkey : UInt64}

theorem setObject_objects {o : Option (Finmap fun _ : UInt64 => LogOp)} (r' : Ref) :
    (l.setObject r str o).objects r' = if r' = r then some (str, o) else l.objects r' := by
  simp [setObject, Function.update_apply]

theorem setObject_setObject {o o' : Option (Finmap fun _ : UInt64 => LogOp)} :
    (l.setObject r str o).setObject r str' o' = l.setObject r str' o' := by
  simp [setObject]

theorem content_of_object {o : Option (Finmap fun _ : UInt64 => LogOp)} (found : l.objects r = some (str, o)) :
    l.content r = str.layers.lookup := by
  funext hkey
  simp [content, found]

theorem content_of_missing (free : l.objects r = none) : l.content r = fun _ => none := by
  funext hkey
  simp [content, free]

theorem content_of_objects {l' : Ledger} (same : l'.objects r = l.objects r) : l'.content r = l.content r := by
  funext hkey
  simp [content, same]

/-- Another storage or oplog of an object. One that has an oplog keeps one. -/
theorem Sound.replace {o o' : Option (Finmap fun _ : UInt64 => LogOp)} (sound : l.Sound)
    (found : l.objects r = some (str, o)) (valid : str'.Valid ∨ str'.tables = []) (kept : o.isSome → o'.isSome) :
    (l.setObject r str' o').Sound := by
  refine ⟨fun p name r' has => ?_, fun r' other o'' at' => ?_, sound.apart, sound.once⟩
  · obtain ⟨registered, str₀, log₀, found₀⟩ := sound.recorded p name r' has
    refine ⟨registered, ?_⟩
    by_cases same : r' = r
    · subst same
      cases found.symm.trans found₀
      obtain ⟨log', rfl⟩ := Option.isSome_iff_exists.1 (kept rfl)
      exact ⟨str', log', by simp [setObject_objects]⟩
    · exact ⟨str₀, log₀, by rw [setObject_objects, if_neg same, found₀]⟩
  · rw [setObject_objects] at at'
    split at at'
    · cases at'
      exact valid
    · exact sound.storages r' other o'' at'

/-- What changes in the storage has to be in the oplog. -/
theorem Sound.update (sound : l.Sound) (found : l.objects r = some (str, some log))
    (log' : Finmap fun _ : UInt64 => LogOp) (valid : str'.Valid ∨ str'.tables = [])
    (grows : ∀ hkey ∈ log, hkey ∈ log')
    (logs : ∀ hkey, str'.layers.lookup hkey ≠ str.layers.lookup hkey → hkey ∈ log') :
    (l.setObject r str' (some log')).Sound ∧ l.Writes (l.setObject r str' (some log')) := by
  have object : (l.setObject r str' (some log')).objects r = some (str', some log') := by simp [setObject_objects]
  refine ⟨sound.replace found valid fun _ => rfl, fun r' hkey change => ?_, fun r' hkey logged => ?_⟩
  · by_cases same : r' = r
    · subst same
      rw [content_of_object object, content_of_object found] at change
      exact ⟨_, _, object, logs hkey change⟩
    · exact absurd (congrFun (content_of_objects (by rw [setObject_objects, if_neg same])) hkey) change
  · obtain ⟨str₀, log₀, found₀, mem⟩ := logged
    by_cases same : r' = r
    · subst same
      cases found.symm.trans found₀
      exact ⟨_, _, object, grows hkey mem⟩
    · exact ⟨str₀, log₀, by rw [setObject_objects, if_neg same, found₀], mem⟩

/-- Another storage with the same content. -/
theorem content_setObject {o o' : Option (Finmap fun _ : UInt64 => LogOp)} (found : l.objects r = some (str, o))
    (same : str'.layers.lookup = str.layers.lookup) : (l.setObject r str' o').content = l.content := by
  have object : (l.setObject r str' o').objects r = some (str', o') := by simp [setObject_objects]
  funext r'
  by_cases here : r' = r
  · subst here
    rw [content_of_object object, content_of_object found, same]
  · exact content_of_objects (by rw [setObject_objects, if_neg here])

theorem Sound.object (sound : l.Sound) (has : l.Has p name r) : ∃ str log, l.objects r = some (str, some log) :=
  (sound.recorded p name r has).2

/-- An object that no name stands for. -/
theorem Sound.setUnnamed {o : Option (Finmap fun _ : UInt64 => LogOp)} (sound : l.Sound)
    (unnamed : ∀ p name, ¬ l.Has p name r) (valid : str.Valid ∨ str.tables = []) : (l.setObject r str o).Sound := by
  refine ⟨fun p name r' has => ?_, fun r' other o' at' => ?_, sound.apart, sound.once⟩
  · obtain ⟨registered, str₀, log₀, found⟩ := sound.recorded p name r' has
    have differs : r' ≠ r := by
      rintro rfl
      exact unnamed p name has
    exact ⟨registered, str₀, log₀, by rw [setObject_objects, if_neg differs, found]⟩
  · rw [setObject_objects] at at'
    split at at'
    · cases at'
      exact valid
    · exact sound.storages r' other o' at'

theorem Sound.unnamed (sound : l.Sound) (free : l.objects r = none) (p : Place) (name : Bytes) :
    ¬ l.Has p name r := by
  intro has
  obtain ⟨_, _, found⟩ := sound.object has
  cases free.symm.trans found

theorem Writes.of_fresh {l' : Ledger} {o : Option (Finmap fun _ : UInt64 => LogOp)} (free : l.objects r = none)
    (found : l'.objects r = some (str, o)) (empty : str.layers.lookup = fun _ => none)
    (others : ∀ r', r' ≠ r → l'.objects r' = l.objects r') : l.Writes l' where
  changes r' hkey change := by
    by_cases same : r' = r
    · subst same
      rw [content_of_object found, content_of_missing free, empty] at change
      exact absurd rfl change
    · exact absurd (congrFun (content_of_objects (others r' same)) hkey) change
  keeps r' hkey logged := by
    obtain ⟨str₀, log, found₀, mem⟩ := logged
    have differs : r' ≠ r := by
      rintro rfl
      cases free.symm.trans found₀
    exact ⟨str₀, log, by rw [others r' differs, found₀], mem⟩

theorem setName_has {p' : Place} {name' : Bytes} {r' : Ref} : (l.setName p name r).Has p' name' r' ↔
    (p' = p ∧ name' = name) ∧ r' = r ∨ ¬ (p' = p ∧ name' = name) ∧ l.Has p' name' r' := by
  unfold Has setName
  by_cases here : p' = p
  · subst here
    by_cases named : name' = name
    · subst named
      simp [eq_comm]
    · simp [named, Finmap.lookup_insert_of_ne _ named]
  · simp [here]

theorem mem_names_iff : name ∈ l.names p ↔ ∃ r, l.Has p name r := by
  rw [← Finmap.lookup_isSome, Option.isSome_iff_exists]
  rfl

theorem eq_or_twin {p q : Place} (same : q.id = p.id) : q = p ∨ q = twin p := by
  obtain ⟨qb, qid⟩ := q
  obtain ⟨pb, pid⟩ := p
  cases same
  cases qb <;> cases pb <;> simp [twin]

theorem twin_twin (p : Place) : twin (twin p) = p := by simp [twin]

theorem twin_ne (p : Place) : twin p ≠ p := by
  obtain ⟨pb, pid⟩ := p
  cases pb <;> simp [twin]

/-- Registering an object that has no name, and storing it under a name that the other table of the
partition does not have. -/
theorem Sound.enroll {o : Option (Finmap fun _ : UInt64 => LogOp)} (sound : l.Sound)
    (found : l.objects r = some (str, o)) (free : ∀ p name, ¬ l.Has p name r) (alone : name ∉ l.names (twin p)) :
    (((l.register p.id name r).setObject r str (some ∅)).setName p name r).Sound := by
  have object : (((l.register p.id name r).setObject r str (some ∅)).setName p name r).objects r =
      some (str, some ∅) := by
    simp [setName, setObject, register]
  have others (r' : Ref) (differs : r' ≠ r) :
      (((l.register p.id name r).setObject r str (some ∅)).setName p name r).objects r' = l.objects r' := by
    simp [setName, setObject, register, differs]
  have hasIff {q name' r'} : (((l.register p.id name r).setObject r str (some ∅)).setName p name r).Has q name' r' ↔
      (q = p ∧ name' = name) ∧ r' = r ∨ ¬ (q = p ∧ name' = name) ∧ l.Has q name' r' := setName_has
  refine ⟨fun q name' r' has => ?_, fun r' other o' at' => ?_, fun q name' mem mem' => ?_,
    fun q q' name₁ name₂ r' has has' => ?_⟩
  · rcases hasIff.1 has with ⟨⟨rfl, rfl⟩, rfl⟩ | ⟨other, before⟩
    · exact ⟨by simp [setName, setObject, register], str, ∅, object⟩
    · obtain ⟨registered, str₀, log₀, found₀⟩ := sound.recorded q name' r' before
      have differs : r' ≠ r := by
        rintro rfl
        exact free q name' before
      refine ⟨?_, str₀, log₀, by rw [others r' differs, found₀]⟩
      by_cases part : q.id = p.id
      · -- the name is in neither table of the partition
        have named : name' ≠ name := by
          rintro rfl
          rcases eq_or_twin part with rfl | rfl
          · exact other ⟨rfl, rfl⟩
          · exact alone (mem_names_iff.2 ⟨r', before⟩)
        rw [part] at registered ⊢
        simp [setName, setObject, register, Finmap.lookup_insert_of_ne _ named, registered]
      · simp [setName, setObject, register, part, registered]
  · by_cases same : r' = r
    · subst same
      cases object.symm.trans at'
      exact sound.storages r' str o found
    · rw [others r' same] at at'
      exact sound.storages r' other o' at'
  · obtain ⟨r₁, has₁⟩ := mem_names_iff.1 mem
    obtain ⟨r₂, has₂⟩ := mem_names_iff.1 mem'
    rcases hasIff.1 has₁ with ⟨⟨rfl, rfl⟩, _⟩ | ⟨_, before₁⟩
    · rcases hasIff.1 has₂ with ⟨⟨same, _⟩, _⟩ | ⟨_, before₂⟩
      · exact twin_ne q same
      · exact alone (mem_names_iff.2 ⟨r₂, before₂⟩)
    · rcases hasIff.1 has₂ with ⟨⟨rfl, rfl⟩, _⟩ | ⟨_, before₂⟩
      · exact alone (by rw [twin_twin]; exact mem_names_iff.2 ⟨r₁, before₁⟩)
      · exact sound.apart q name' (mem_names_iff.2 ⟨r₁, before₁⟩) (mem_names_iff.2 ⟨r₂, before₂⟩)
  · rcases hasIff.1 has with ⟨⟨rfl, rfl⟩, rfl⟩ | ⟨_, before⟩
    · rcases hasIff.1 has' with ⟨⟨rfl, rfl⟩, _⟩ | ⟨_, before'⟩
      · exact ⟨rfl, rfl⟩
      · exact absurd before' (free _ _)
    · rcases hasIff.1 has' with ⟨_, rfl⟩ | ⟨_, before'⟩
      · exact absurd before (free _ _)
      · exact sound.once _ _ _ _ _ before before'

theorem eraseName_has {p' : Place} {name' : Bytes} {r' : Ref} : (l.eraseName p name).Has p' name' r' ↔
    ¬ (p' = p ∧ name' = name) ∧ l.Has p' name' r' := by
  unfold Has eraseName
  by_cases here : p' = p
  · subst here
    by_cases named : name' = name
    · subst named
      simp
    · simp [named, Finmap.lookup_erase_ne named]
  · simp [here]

/-- A dmap is unregistered and taken out of its partition. -/
theorem Sound.strike (sound : l.Sound) (has : l.Has p name r) :
    ((l.unregister p.id name).eraseName p name).Sound := by
  have hasIff {q name' r'} : ((l.unregister p.id name).eraseName p name).Has q name' r' ↔
      ¬ (q = p ∧ name' = name) ∧ l.Has q name' r' := eraseName_has
  refine ⟨fun q name' r' at' => ?_, sound.storages, fun q name' mem mem' => ?_,
    fun q q' name₁ name₂ r' at' at'' => ?_⟩
  · obtain ⟨other, before⟩ := hasIff.1 at'
    obtain ⟨registered, objects⟩ := sound.recorded q name' r' before
    refine ⟨?_, objects⟩
    by_cases part : q.id = p.id
    · have named : name' ≠ name := by
        rintro rfl
        rcases eq_or_twin part with rfl | rfl
        · exact other ⟨rfl, rfl⟩
        · exact sound.apart p name' (mem_names_iff.2 ⟨r, has⟩) (mem_names_iff.2 ⟨r', before⟩)
      rw [part] at registered ⊢
      simp [eraseName, unregister, Finmap.lookup_erase_ne named, registered]
    · simp [eraseName, unregister, part, registered]
  · obtain ⟨r₁, has₁⟩ := mem_names_iff.1 mem
    obtain ⟨r₂, has₂⟩ := mem_names_iff.1 mem'
    exact sound.apart q name' (mem_names_iff.2 ⟨r₁, (hasIff.1 has₁).2⟩) (mem_names_iff.2 ⟨r₂, (hasIff.1 has₂).2⟩)
  · exact sound.once _ _ _ _ _ (hasIff.1 at').2 (hasIff.1 at'').2

end

end Ledger

end Olric
