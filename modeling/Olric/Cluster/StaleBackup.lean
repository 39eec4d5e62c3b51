import Olric.Cluster.Rules
import Olric.Node.Apart
import Olric.Storage.TransportSpec

namespace Olric

open Program

/-- A member that is no backup owner of a partition any more, the backup owners, and what all
members store before `moveBackupDMaps` runs. -/
structure StaleBackup where
  members : Members
  stale : Host
  partID : UInt64
  backups : List Host
  nodes : Host → Node
  elsewhere : stale ∉ backups
  sound : ∀ host, (nodes host).Sound
  idle : ∀ host r dm, (nodes host).dmaps r = some dm → dm.Idle

namespace StaleBackup

variable (o : StaleBackup)

def place : Place := ⟨true, o.partID⟩

def moveBackupDMaps : Prog Response := answered (Config.moveBackupDMaps o.place o.backups)

def rules : Network.Rules Cmd Cmd.Reply Host Request Response Node :=
  o.members.goRules (fun nodes => nodes = o.nodes) fun host p => host = o.stale ∧ p = o.moveBackupDMaps

/-- What the stale owner has under a name. -/
def moved (name : Bytes) : UInt64 → Option VData := (o.nodes o.stale).view o.place name

/-- What a backup owner should have in the end: its own entries, and the others of the stale owner. -/
def merged (backup : Host) (name : Bytes) (hkey : UInt64) : Option VData :=
  ((o.nodes backup).view o.place name hkey).or (o.moved name hkey)

/-- The payload is what the stale owner has under the name. -/
def Sends (name : Bytes) (tr : Transport) : Prop :=
  ∃ r dm, (o.nodes o.stale).Has o.place name r ∧ (o.nodes o.stale).dmaps r = some dm ∧ dm.str.exportTable = .ok tr

/-- The object has the entries of the stale owner, in one table. -/
def Copy (s : Node) (name : Bytes) (r : Ref) : Prop :=
  ∃ dm t, s.dmaps r = some dm ∧ dm.str.Valid ∧ dm.str.layers.lookup = o.moved name ∧ dm.str.tables = [t]

/-- The keys that still have to be merged are among those that are left. -/
def Left (backup : Host) (s : Node) (name : Bytes) (left : List (UInt64 × VData)) : Prop :=
  (∀ e ∈ left, o.moved name e.1 = some e.2) ∧
    ∀ hkey, s.view o.place name hkey ≠ o.merged backup name hkey → ∃ entry, (hkey, entry) ∈ left

/-- What a goroutine knows that merges a dmap on a backup owner. -/
def MergeAt (backup : Host) (s : Node) (name : Bytes) : Merge → Prop
  | .start | .failed => True
  | .imported fresh => o.Copy s name fresh
  | .absent fresh => o.Copy s name fresh ∧ (s.partition o.place).m.lookup name = none
  | .found fresh r | .locked fresh r => o.Copy s name fresh ∧ s.Has o.place name r
  | .merging r left => s.Has o.place name r ∧ o.Left backup s name left
  | .missing r hkey entry left => s.Has o.place name r ∧ s.view o.place name hkey = none ∧
    o.Left backup s name ((hkey, entry) :: left)
  | .failing r => s.Has o.place name r
  | .astray _ => False
  | .stored _ | .merged _ => s.view o.place name = o.merged backup name

/-- What always holds of a backup owner: names keep their objects, and every key is as it was or as
it should be. -/
structure Target (backup : Host) (s : Node) : Prop where
  sound : s.Sound
  grows : (o.nodes backup).Grows s
  between : ∀ name hkey, s.view o.place name hkey = (o.nodes backup).view o.place name hkey ∨
    s.view o.place name hkey = o.merged backup name hkey

variable {o} {backup : Host} {tid : Tid} {s s' : Node} {c : Cmd} {reply : c.Reply} {name : Bytes} {tr : Transport}
  {m : Merge} {r : Ref} {hkey : UInt64} {entry : VData}

theorem Copy.kept (copy : o.Copy s name r) (run : s.exec tid c reply s') (puts : ∀ hkey entry, c ≠ .put r hkey entry)
    (deletes : ∀ hkey, c ≠ .delete r hkey) (closes : c ≠ .close r) : o.Copy s' name r := by
  obtain ⟨dm, t, found, valid, content, single⟩ := copy
  obtain ⟨dm', found', str⟩ := Node.exec_str run found puts deletes closes
  exact ⟨dm', t, found', str ▸ valid, str ▸ content, str ▸ single⟩

/-- What a goroutine knows is about its dmap and its copy only. -/
theorem MergeAt.frame (knows : o.MergeAt backup s name m) (view : s'.view o.place name = s.view o.place name)
    (lookup : (s'.partition o.place).m.lookup name = (s.partition o.place).m.lookup name)
    (copies : ∀ fresh, m.fresh = some fresh → o.Copy s name fresh → o.Copy s' name fresh) :
    o.MergeAt backup s' name m := by
  have has {r : Ref} (before : s.Has o.place name r) : s'.Has o.place name r := lookup.trans before
  have left {l : List (UInt64 × VData)} (before : o.Left backup s name l) : o.Left backup s' name l :=
    ⟨before.1, fun hkey differs => before.2 hkey (by rwa [view] at differs)⟩
  cases m with
  | start | failed => trivial
  | imported fresh => exact copies fresh rfl knows
  | absent fresh => exact ⟨copies fresh rfl knows.1, lookup.trans knows.2⟩
  | found fresh r | locked fresh r => exact ⟨copies fresh rfl knows.1, has knows.2⟩
  | merging r l => exact ⟨has knows.1, left knows.2⟩
  | missing r hkey entry l => exact ⟨has knows.1, by rw [view]; exact knows.2.1, left knows.2.2⟩
  | failing r => exact has knows
  | astray r => exact knows.elim
  | stored r | merged r => exact view.trans knows

theorem Sends.fits (sends : o.Sends name tr) (there : o.moved name hkey = some entry) : entry.Fits := by
  obtain ⟨r, dm, has, found, _⟩ := sends
  obtain ⟨_, found', valid⟩ := (o.sound o.stale).valid has
  cases found.symm.trans found'
  rw [moved, Node.view_of_has has found] at there
  exact valid.fits there

theorem Sends.copy {fresh : Ref} (sends : o.Sends name tr) (run : s.exec tid (.importStorage tr) (some fresh) s') :
    o.Copy s' name fresh := by
  obtain ⟨r, dm, has, found, exported⟩ := sends
  obtain ⟨_, found', valid⟩ := (o.sound o.stale).valid has
  cases found.symm.trans found'
  obtain ⟨_, str, made, rfl⟩ := run
  obtain ⟨valid', content, t, single⟩ := Storage.importTable_spec valid exported made
  refine ⟨_, t, setDMap_found.2 (.inl ⟨rfl, rfl⟩), valid', ?_, single⟩
  rw [content, moved, Node.view_of_has has found]

namespace Target

variable (target : o.Target backup s)
include target

/-- A key that is there is as it should be. -/
theorem eq_merged_of_some (there : s.view o.place name hkey = some entry) :
    s.view o.place name hkey = o.merged backup name hkey := by
  rcases target.between name hkey with same | same
  · rw [there] at same
    rw [there, merged, ← same]
    rfl
  · exact same

/-- A key that is still to be moved is not there. -/
theorem ne_merged (differs : s.view o.place name hkey ≠ o.merged backup name hkey) :
    s.view o.place name hkey = none ∧ ∃ entry, o.moved name hkey = some entry := by
  have absent : s.view o.place name hkey = none := by
    cases there : s.view o.place name hkey with
    | none => rfl
    | some entry => exact absurd (target.eq_merged_of_some there) differs
  refine ⟨absent, ?_⟩
  have own : (o.nodes backup).view o.place name hkey = none :=
    ((target.between name hkey).resolve_right differs).symm.trans absent
  rw [absent, merged, own, Option.none_or] at differs
  exact Option.ne_none_iff_exists'.1 (Ne.symm differs)

theorem merged_eq (absent : s.view o.place name hkey = none) (there : o.moved name hkey = some entry) :
    o.merged backup name hkey = some entry := by
  rcases target.between name hkey with same | same
  · rw [merged, ← same, absent, there]
    rfl
  · rw [absent, merged, there] at same
    cases own : (o.nodes backup).view o.place name hkey <;> simp [own] at same

theorem calm (run : s.exec tid c reply s') (calm : c.Calm) : o.Target backup s' ∧ s.Grows s' ∧ s'.view = s.view ∧
    ∀ p, (s'.partition p).m = (s.partition p).m := by
  obtain ⟨sound, view, same⟩ := Node.exec_calm run calm target.sound
  have grows : s.Grows s' := fun p name r has => by unfold Node.Has; rw [same]; exact has
  exact ⟨⟨sound, target.grows.trans grows, by rw [view]; exact target.between⟩, grows, view, same⟩

/-- A change of one dmap, to keys that are as they should be. -/
theorem write {entries : UInt64 → Option VData} (sound : s'.Sound) (grows : s.Grows s')
    (view : s'.view = s.view.set o.place name entries)
    (fine : ∀ hkey, entries hkey = s.view o.place name hkey ∨ entries hkey = o.merged backup name hkey) :
    o.Target backup s' ∧ s.Grows s' ∧
      (s.view o.place name = o.merged backup name → s'.view o.place name = o.merged backup name) := by
  refine ⟨⟨sound, target.grows.trans grows, fun name' hkey => ?_⟩, grows, fun done => ?_⟩
  · by_cases same : name' = name
    · subst same
      rw [view, View.set_self]
      rcases fine hkey with kept | right
      · rw [kept]
        exact target.between name' hkey
      · exact .inr right
    · rw [view, View.set_of_ne _ _ fun both => same both.2]
      exact target.between name' hkey
  · rw [view, View.set_self]
    funext hkey
    rcases fine hkey with kept | right
    · rw [kept, done]
    · exact right

end Target

/-- The entries of the copy, of which some have to be put. -/
theorem Copy.left {tables : List (List (UInt64 × VData))} (target : o.Target backup s) (copy : o.Copy s name r)
    (run : s.exec tid (.visits r) tables s') :
    s' = s ∧ ∃ entries, tables = [entries] ∧ o.Left backup s name entries := by
  obtain ⟨dm, t, found, valid, content, single⟩ := copy
  obtain ⟨_, found', _, visited, rfl⟩ := run
  cases found.symm.trans found'
  obtain ⟨entries, rfl, _, listed⟩ := Storage.Visits.single single visited
  rw [content] at listed
  refine ⟨rfl, entries, rfl, fun e mem => (listed e.1 e.2).1 mem, fun hkey differs => ?_⟩
  obtain ⟨_, entry, there⟩ := target.ne_merged differs
  exact ⟨entry, (listed hkey entry).2 there⟩

variable (o) in
/-- The backup owner stays as it has to be, and nothing that has been merged is lost. -/
structure Merges (backup : Host) (s s' : Node) (name : Bytes) (next : Merge) : Prop where
  target : o.Target backup s'
  knows : o.MergeAt backup s' name next
  grows : s.Grows s'
  kept : s.view o.place name = o.merged backup name → s'.view o.place name = o.merged backup name

/-- A command that leaves all entries alone. -/
theorem Target.merges_calm {next : Merge} (target : o.Target backup s) (run : s.exec tid c reply s') (calm : c.Calm)
    (after : (∀ fresh, o.Copy s name fresh → o.Copy s' name fresh) → s'.view = s.view →
      (∀ p, (s'.partition p).m = (s.partition p).m) → o.MergeAt backup s' name next) :
        o.Merges backup s s' name next := by
  obtain ⟨target', grows, view, same⟩ := target.calm run calm
  refine ⟨target', after (fun fresh copy => copy.kept run ?_ ?_ ?_) view same, grows, fun done => by rw [view, done]⟩
  · rintro _ _ rfl
    exact calm
  · rintro _ rfl
    exact calm
  · rintro rfl
    exact calm

/-- The copy gets the name. It has never had an object here, so the copy is all there is to have. -/
theorem Target.merges_store {fresh : Ref} {done : Unit} (target : o.Target backup s) (copy : o.Copy s name fresh)
    (absent : (s.partition o.place).m.lookup name = none) (unnamed : ∀ p name, ¬ s.Has p name fresh)
    (run : s.exec tid (.store o.place name fresh) done s') : o.Merges backup s s' name (.stored fresh) := by
  obtain ⟨dm, t, found, valid, content, _⟩ := copy
  obtain ⟨sound', view, has⟩ := Node.exec_store_content run target.sound found valid unnamed
  have whole (hkey : UInt64) : o.moved name hkey = o.merged backup name hkey := by
    have none : ((o.nodes backup).partition o.place).m.lookup name = none := by
      cases before : ((o.nodes backup).partition o.place).m.lookup name with
      | none => rfl
      | some r => cases absent.symm.trans (target.grows _ _ _ before)
    rw [merged, Node.view_of_absent none, Option.none_or]
  have grows : s.Grows s' := by
    intro p name' r has₁
    refine Node.exec_has run has₁ nofun ?_
    rintro r' ⟨⟩
    cases absent.symm.trans has₁
  obtain ⟨target', grows, kept⟩ := target.write sound' grows view fun hkey => .inr (by rw [content, whole])
  refine ⟨target', ?_, grows, kept⟩
  change s'.view o.place name = _
  rw [view, View.set_self, content]
  exact funext whole

/-- A key that is there already is not put. -/
theorem Target.left_of_there {left : List (UInt64 × VData)} (target : o.Target backup s)
    (there : s.view o.place name hkey = some entry) {copied : VData}
    (pending : o.Left backup s name ((hkey, copied) :: left)) : o.Left backup s name left := by
  refine ⟨fun e mem => pending.1 e (List.mem_cons_of_mem _ mem), fun other differs => ?_⟩
  obtain ⟨entry', mem⟩ := pending.2 other differs
  rcases List.mem_cons.1 mem with same | mem
  · cases same
    exact absurd (target.eq_merged_of_some there) differs
  · exact ⟨entry', mem⟩

/-- A key that is not there is put. -/
theorem Target.merges_put {left : List (UInt64 × VData)} {err : Option StorageError} (target : o.Target backup s)
    (sends : o.Sends name tr) (has : s.Has o.place name r) (absent : s.view o.place name hkey = none)
    (pending : o.Left backup s name ((hkey, entry) :: left)) (run : s.exec tid (.put r hkey entry) err s') :
    o.Merges backup s s' name (if err = none then .merging r left else .failing r) := by
  have moves : o.moved name hkey = some entry := pending.1 _ List.mem_cons_self
  obtain ⟨sound', view⟩ := Node.exec_put_view run target.sound has (sends.fits moves).value
  have grows : s.Grows s' := Node.exec_grows run nofun nofun
  cases err with
  | some err =>
    rw [if_neg (by simp)] at view ⊢
    exact ⟨⟨sound', target.grows.trans grows, by rw [view]; exact target.between⟩, grows _ _ _ has,
      grows, by rw [view]; exact id⟩
  | none =>
    rw [if_pos rfl] at view ⊢
    obtain ⟨target', grows, kept⟩ := target.write sound' grows view fun other => by
      by_cases this : other = hkey
      · subst this
        rw [Function.update_self, target.merged_eq absent moves]
        exact .inr rfl
      · exact .inl (Function.update_of_ne this _ _)
    have there : s'.view o.place name hkey = some entry := by rw [view, View.set_self, Function.update_self]
    refine ⟨target', ⟨grows _ _ _ has, target'.left_of_there there ⟨pending.1, fun other differs => ?_⟩⟩, grows, kept⟩
    by_cases this : other = hkey
    · subst this
      exact ⟨entry, List.mem_cons_self⟩
    · rw [view, View.set_self, Function.update_of_ne this] at differs
      exact pending.2 other differs

/-- One command of a merge. -/
theorem merging_step (target : o.Target backup s) (sends : o.Sends name tr) (knows : o.MergeAt backup s name m)
    (unnamed : ∀ fresh, m.fresh = some fresh → ∀ p name, ¬ s.Has p name fresh)
    (allowed : (merging o.place name tr).allows m c) (run : s.exec tid c reply s') :
    o.Merges backup s s' name ((merging o.place name tr).after m c reply) := by
  cases m with
  | start =>
    obtain rfl := allowed
    refine target.merges_calm run trivial fun _ _ _ => ?_
    cases reply with
    | none => trivial
    | some fresh => exact sends.copy run
  | imported fresh =>
    obtain rfl := allowed
    refine target.merges_calm run trivial fun copies _ _ => ?_
    obtain ⟨rfl, rfl⟩ := run
    cases has : (s'.partition o.place).m.lookup name with
    | none => exact ⟨knows, has⟩
    | some r => exact ⟨knows, has⟩
  | absent fresh =>
    rcases allowed with rfl | rfl
    · exact target.merges_calm run trivial fun copies _ same => ⟨copies fresh knows.1, by rw [same]; exact knows.2⟩
    · exact target.merges_store knows.1 knows.2 (unnamed fresh rfl) run
  | found fresh r =>
    obtain rfl := allowed
    exact target.merges_calm run trivial fun copies _ same =>
      ⟨copies fresh knows.1, by unfold Node.Has; rw [same]; exact knows.2⟩
  | locked fresh r =>
    obtain rfl := allowed
    refine target.merges_calm run trivial fun _ _ _ => ?_
    obtain ⟨rfl, entries, rfl, left⟩ := knows.1.left target run
    exact ⟨knows.2, left⟩
  | merging r left =>
    obtain ⟨has, pending⟩ := knows
    cases left with
    | nil =>
      obtain rfl := allowed
      refine target.merges_calm run trivial fun _ view _ => ?_
      change s'.view o.place name = _
      rw [view]
      funext hkey
      by_contra differs
      obtain ⟨_, mem⟩ := pending.2 hkey differs
      cases mem
    | cons e left =>
      obtain rfl := allowed
      obtain ⟨rfl, there⟩ := Node.exec_check_view target.sound has run
      refine ⟨target, ?_, .refl _, id⟩
      cases reply with
      | false => exact ⟨has, by simpa using there.symm, pending⟩
      | true =>
        obtain ⟨entry, there⟩ := Option.isSome_iff_exists.1 there.symm
        exact ⟨has, target.left_of_there there pending⟩
  | missing r hkey entry left =>
    obtain rfl := allowed
    obtain ⟨has, absent, pending⟩ := knows
    have puts := target.merges_put sends has absent pending run
    cases reply with
    | none => exact puts
    | some err => exact puts
  | failing r =>
    obtain rfl := allowed
    exact target.merges_calm run trivial fun _ _ _ => trivial
  | astray r => exact knows.elim
  | stored | merged | failed => exact allowed.elim

end StaleBackup

end Olric
