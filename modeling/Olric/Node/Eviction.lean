import Olric.Lib.Safe
import Olric.Node.View
import Olric.Storage.Range

namespace Olric

open Program

theorem isKeyExpired_mono {now later ttl : Int64} (le : now ≤ later) (expired : isKeyExpired now ttl = true) :
    isKeyExpired later ttl = true := by
  have divided : now / 1000000 ≤ later / 1000000 := by
    rw [Int64.le_iff_toInt_le] at le ⊢
    rw [Int64.toInt_div_of_ne_right _ _ (by decide), Int64.toInt_div_of_ne_right _ _ (by decide)]
    exact Int.tdiv_le_tdiv (by decide) le
  unfold isKeyExpired at expired ⊢
  split at expired
  · cases expired
  next volatile =>
    rw [if_neg volatile]
    exact decide_eq_true (Int64.le_trans (of_decide_eq_true expired) divided)

/-- What a pass over the keys has counted: the keys it has seen and those it has deleted. -/
structure EvictionCount where
  kcount : Nat
  dcount : Nat

def maxKcount : Nat := 20

namespace Config

variable (cfg : Config)

/-- The callback of `Range`. It stops the loop over a table once enough keys have been seen. -/
def evictEntry (r : Ref) (name : Bytes) (n : EvictionCount) (e : UInt64 × VData) : Prog (EvictionCount × Bool) := do
  let n := { n with kcount := n.kcount + 1 }
  if n.kcount ≥ maxKcount then pure (n, false)
  else
    let now ← act .now
    if isKeyExpired now e.2.ttl then
      match ← cfg.delKeyVal r e.1 name e.2.key with
      | .ok _ => pure ({ n with dcount := n.dcount + 1 }, true)
      | _ => pure (n, true)
    else pure (n, true)

/-- The tables of `Range`, one after the other. -/
def evictTables (r : Ref) (name : Bytes) (n : EvictionCount) : List (List (UInt64 × VData)) → Prog EvictionCount
  | [] => pure n
  | entries :: tables => do
    let n ← iterate (cfg.evictEntry r name) n entries
    evictTables r name n tables

/-- One pass; a quarter of the keys has to be deleted for another one. -/
def evictionPass (r : Ref) (name : Bytes) : Prog Bool := do
  let tables ← act (.visits r)
  let n ← cfg.evictTables r name ⟨0, 0⟩ tables
  pure (n.dcount ≥ maxKcount / 4)

/-- The passes until few keys are left, or the member shuts down: before the last of `passes`. -/
def evictionPasses (r : Ref) (name : Bytes) : Nat → Prog Unit
  | 0 => pure ()
  | passes + 1 => do
    if ← cfg.evictionPass r name then evictionPasses r name passes else pure ()

def scanDMapForEviction (name : Bytes) (r : Ref) (passes : Nat) : Prog Unit :=
  withLock r (cfg.evictionPasses r name passes)

end Config

section Range

variable {σ : Type}

/-- `Range` with a callback that may do something. -/
def rangeTables (body : σ → UInt64 × VData → Prog (σ × Bool)) (x : σ) : List (List (UInt64 × VData)) → Prog σ
  | [] => pure x
  | entries :: tables => (iterate body x entries).bind fun x => rangeTables body x tables

/-- If it only computes something, the loops are those of the storage. -/
theorem rangeTables_pure (f : Visitor σ) (x : σ) (tables : List (List (UInt64 × VData))) :
    rangeTables (fun x e => .ret (f x e.1 e.2).swap) x tables = .ret (Storage.rangeTables f x tables).2 := by
  have table (x : σ) (entries : List (UInt64 × VData)) :
      (iterate (fun x e => .ret (f x e.1 e.2).swap) x entries : Prog σ) =
          .ret (Storage.rangeTable f x entries).2 := by
    induction entries generalizing x with
    | nil => rfl
    | cons e entries ih =>
      cases more : (f x e.1 e.2).1 with
      | false => simp [iterate, Program.bind, more, Storage.rangeTable_false more]
      | true => simp [iterate, Program.bind, more, Storage.rangeTable_true more, ih]
  induction tables generalizing x with
  | nil => rfl
  | cons entries tables ih =>
    rw [rangeTables, table]
    exact ih _

theorem Config.evictTables_eq (cfg : Config) (r : Ref) (name : Bytes) (n : EvictionCount)
    (tables : List (List (UInt64 × VData))) :
    cfg.evictTables r name n tables = rangeTables (cfg.evictEntry r name) n tables := by
  induction tables generalizing n with
  | nil => rfl
  | cons entries tables ih =>
    refine congrArg (Program.bind _) (funext fun n => ?_)
    exact ih n

/-- The callback of `Range` when an imported dmap is merged. -/
def Config.mergeEntry (r : Ref) (merr : Option StorageError) (e : UInt64 × VData) :
    Prog (Option StorageError × Bool) := do
  if ← act (.check r e.1) then pure (merr, true)
  else
    match ← act (.put r e.1 e.2) with
    | some err => pure (some err, false)
    | none => pure (none, true)

theorem Config.mergeInto_eq (r : Ref) (merr : Option StorageError) (tables : List (List (UInt64 × VData))) :
    Config.mergeInto r merr tables = rangeTables (Config.mergeEntry r) merr tables := by
  have table (merr : Option StorageError) (entries : List (UInt64 × VData)) :
      Config.mergeTableInto r merr entries = iterate (Config.mergeEntry r) merr entries := by
    induction entries generalizing merr with
    | nil => rfl
    | cons e entries ih =>
      refine congrArg (Program.call _) (funext fun found => ?_)
      cases found with
      | true => exact ih merr
      | false =>
        refine congrArg (Program.call _) (funext fun err => ?_)
        cases err with
        | some _ => rfl
        | none => exact ih none
  induction tables generalizing merr with
  | nil => rfl
  | cons entries tables ih =>
    rw [rangeTables, ← table]
    exact congrArg (Program.bind _) (funext ih)

end Range

/-- Of the entries that a pass looks at, no expired one comes after one of its hkey that is not
expired. -/
def EvictsInOrder (now : Int64) (entries : List (UInt64 × VData)) : Prop :=
  (entries.take (maxKcount - 1)).Pairwise fun newer older =>
    newer.1 = older.1 → isKeyExpired now older.2.ttl = true → isKeyExpired now newer.2.ttl = true

/-- The same in whatever order `Range` goes through the tables. -/
def Storage.EvictsInOrder (s : Storage) (now : Int64) : Prop :=
  ∀ tables, s.Visits tables → Olric.EvictsInOrder now tables.flatten

/-- A member and its clock. -/
structure Watch where
  node : Node
  now : Int64

/-- What the clock says when a goroutine reads it. -/
def Cmd.ReadsClock (now : Int64) : (c : Cmd) → c.Reply → Prop
  | .now, reply => reply = now
  | _, _ => True

namespace Watch

/-- A command of the goroutine that scans a dmap. Time goes on through some clock values, and before
the command others may have acted: until a pass is over, `Range` holds the read lock of the storage,
so they leave it as it is; before a pass they may do anything that leaves the storage fine. -/
structure Exec (tid : Tid) (r : Ref) (times : Set Int64) (fine : Storage → Prop) (s : Watch) (c : Cmd)
    (reply : c.Reply) (s' : Watch) : Prop where
  later : s.now ≤ s'.now
  timely : s'.now ∈ times
  clock : c.ReadsClock s'.now reply
  acts : ∃ mid : Node, (c ≠ .visits r → (mid.dmaps r).map DMap.str = (s.node.dmaps r).map DMap.str) ∧
    (c = .visits r → ∀ dm, mid.dmaps r = some dm → fine dm.str) ∧ mid.exec tid c reply s'.node

/-- The entry that `Get` returns for the hkey is expired. -/
def Expired (s : Watch) (r : Ref) (hkey : UInt64) : Prop :=
  ∃ dm entry, s.node.dmaps r = some dm ∧ dm.str.get hkey = .ok (.ok entry) ∧ isKeyExpired s.now entry.ttl = true

/-- The command deletes the hkey in the dmap, or its key on another member. -/
inductive Deletes (s : Watch) (r : Ref) (name : Bytes) (hkey : UInt64) : Cmd → Prop
  | here : Deletes s r name hkey (.delete r hkey)
  | logged : Deletes s r name hkey (.log r hkey .delete)
  | previous {dst dm v} (found : s.node.dmaps r = some dm) (version : v ∈ dm.str.versions hkey) :
      Deletes s r name hkey (.request dst (.deletePrev name v.key))
  | backups {dst dm v} (found : s.node.dmaps r = some dm) (version : v ∈ dm.str.versions hkey) :
      Deletes s r name hkey (.requestAll dst (.deleteBackup name v.key))

end Watch

/-- The commands that delete something, somewhere. -/
def Cmd.IsDelete : Cmd → Prop
  | .delete .. | .log _ _ .delete | .request _ (.deletePrev ..) | .requestAll _ (.deleteBackup ..) => True
  | _ => False

namespace Eviction

variable {cfg : Config} {tid : Tid} {r : Ref} {name : Bytes} {times : Set Int64} {fine : Storage → Prop}
  {hkey : UInt64}
  {v : VData} {s s' : Watch} {c : Cmd} {reply : c.Reply} {seen rest : List (UInt64 × VData)} {n : EvictionCount}

/-- Only what is expired is deleted. -/
def Spares (r : Ref) (name : Bytes) (s : Watch) (c : Cmd) : Prop :=
  c.IsDelete → ∃ hkey, s.Deletes r name hkey c ∧ s.Expired r hkey

/-- The entries of an hkey among those that are shown. -/
def shownOf (hkey : UInt64) (entries : List (UInt64 × VData)) : List VData :=
  entries.filterMap fun e => if e.1 = hkey then some e.2 else none

theorem shownOf_cons_self : shownOf hkey ((hkey, v) :: rest) = v :: shownOf hkey rest := by
  unfold shownOf
  rw [List.filterMap_cons, if_pos rfl]

theorem shownOf_cons_of_ne {e : UInt64 × VData} (other : e.1 ≠ hkey) :
    shownOf hkey (e :: rest) = shownOf hkey rest := by
  unfold shownOf
  rw [List.filterMap_cons, if_neg other]

section Sparing

/-- The entries that are still to come in the pass are in the storage, below ones at most that have
been seen. -/
structure Left (r : Ref) (times : Set Int64) (seen rest : List (UInt64 × VData)) (s : Watch) (dm : DMap) : Prop where
  found : s.node.dmaps r = some dm
  inOrder : ∀ now ∈ times, EvictsInOrder now (seen ++ rest)
  newer : ∀ hkey, ∃ newer, dm.str.versions hkey = newer ++ shownOf hkey rest ∧ ∀ v ∈ newer, (hkey, v) ∈ seen

def Leaves (r : Ref) (times : Set Int64) (seen rest : List (UInt64 × VData)) (s : Watch) : Prop :=
  ∃ dm, Left r times seen rest s dm

theorem Leaves.skip {e : UInt64 × VData} (leaves : Leaves r times seen (e :: rest) s) :
    Leaves r times (seen ++ [e]) rest s := by
  obtain ⟨dm, left⟩ := leaves
  refine ⟨dm, left.found, by simpa using left.inOrder, fun hkey => ?_⟩
  obtain ⟨newer, split, known⟩ := left.newer hkey
  by_cases here : e.1 = hkey
  · subst here
    rw [shownOf_cons_self] at split
    refine ⟨newer ++ [e.2], by rw [split]; simp, fun v mem => ?_⟩
    rcases List.mem_append.1 mem with before | this
    · exact List.mem_append_left _ (known v before)
    · rw [List.mem_singleton.1 this]
      exact List.mem_append_right _ List.mem_cons_self
  · rw [shownOf_cons_of_ne here] at split
    exact ⟨newer, split, fun v mem => List.mem_append_left _ (known v mem)⟩

theorem Left.exec {dm : DMap} (left : Left r times seen rest s dm) (run : Watch.Exec tid r times fine s c reply s')
    (calm : c.Calm) (other : c ≠ .visits r) : ∃ dm', Left r times seen rest s' dm' ∧ dm'.str = dm.str := by
  obtain ⟨mid, same, _, acts⟩ := run.acts
  have still := same other
  rw [left.found] at still
  obtain ⟨dm₁, found₁, str₁⟩ := Option.map_eq_some_iff.1 still
  obtain ⟨dm₂, found₂, str₂⟩ :=
    Node.exec_str acts found₁ (by rintro _ _ rfl; exact calm) (by rintro _ rfl; exact calm)
    (by rintro rfl; exact calm)
  have str := str₂.trans str₁
  exact ⟨dm₂, ⟨found₂, left.inOrder, str ▸ left.newer⟩, str⟩

/-- The pass looks at the next entry, it is expired, and so is the one that `Get` returns. -/
theorem Left.expired {dm : DMap} (left : Left r times seen ((hkey, v) :: rest) s dm)
    (early : seen.length + 1 < maxKcount) (timely : s.now ∈ times) (expired : isKeyExpired s.now v.ttl = true) :
    v ∈ dm.str.versions hkey ∧ s.Expired r hkey := by
  obtain ⟨newer, split, known⟩ := left.newer hkey
  rw [shownOf_cons_self] at split
  have version : v ∈ dm.str.versions hkey := by
    rw [split]
    exact List.mem_append_right _ List.mem_cons_self
  refine ⟨version, ?_⟩
  cases newer with
  | nil => exact ⟨dm, v, left.found, Storage.get_of_versions (by rw [split]; rfl), expired⟩
  | cons newest newer =>
    refine ⟨dm, newest, left.found, Storage.get_of_versions (by rw [split]; rfl), ?_⟩
    have inOrder := left.inOrder s.now timely
    have room : maxKcount - 1 = seen.length + (maxKcount - 1 - seen.length - 1 + 1) := by omega
    rw [EvictsInOrder, room, List.take_length_add_append, List.take_succ_cons] at inOrder
    exact (List.pairwise_append.1 inOrder).2.2 _ (known newest List.mem_cons_self) _ List.mem_cons_self rfl expired

/-- The delete takes away the newest entry of the hkey; the older ones are still to come. -/
theorem Leaves.delete {reply : Option StorageError} (leaves : Leaves r times seen ((hkey, v) :: rest) s)
    (run : Watch.Exec tid r times fine s (.delete r hkey) reply s') :
    Leaves r times (seen ++ [(hkey, v)]) rest s' := by
  obtain ⟨dm, left⟩ := leaves
  obtain ⟨mid, same, _, dm₁, mmapOk, str, found₁, deleted, after⟩ := run.acts
  have still := same nofun
  rw [left.found, found₁] at still
  have before : dm₁.str = dm.str := Option.some.inj still
  rw [before] at deleted
  have versions := Storage.delete_versions deleted
  refine ⟨{ dm₁ with str }, by rw [after]; exact setDMap_found.2 (.inl ⟨rfl, rfl⟩), by simpa using left.inOrder,
    fun other => ?_⟩
  rw [versions]
  obtain ⟨newer, split, known⟩ := left.newer other
  by_cases here : other = hkey
  · subst here
    rw [shownOf_cons_self] at split
    rw [Function.update_self, split]
    cases newer with
    | nil => exact ⟨[], rfl, nofun⟩
    | cons newest newer =>
      refine ⟨newer ++ [v], by simp, fun w mem => ?_⟩
      rcases List.mem_append.1 mem with older | this
      · exact List.mem_append_left _ (known w (List.mem_cons_of_mem _ older))
      · rw [List.mem_singleton.1 this]
        exact List.mem_append_right _ List.mem_cons_self
  · rw [Function.update_of_ne here]
    rw [shownOf_cons_of_ne (Ne.symm here)] at split
    exact ⟨newer, split, fun w mem => List.mem_append_left _ (known w mem)⟩

/-- What `delKeyVal` does before it deletes the entry. -/
def Spreads (r : Ref) (name : Bytes) (hkey : UInt64) (key : Bytes) : Cmd → Prop
  | .owners _ => True
  | .request _ req => req = .deletePrev name key
  | .requestAll _ req => req = .deleteBackup name key
  | .log r' hkey' op => r' = r ∧ hkey' = hkey ∧ op = .delete
  | _ => False

theorem requestEach_spreads {key : Bytes} (hosts : List Host) :
    (Config.requestEach (.deletePrev name key) hosts).Only (Spreads r name hkey key) :=
  Config.requestEach_only fun _ _ => rfl

theorem deleteBackups_spreads {key : Bytes} : (cfg.deleteBackups hkey name key).Only (Spreads r name hkey key) :=
  Config.deleteBackups_only trivial fun _ => rfl

theorem oplog_spreads {key : Bytes} : (cfg.oplog r hkey .delete).Only (Spreads r name hkey key) :=
  Config.oplog_only ⟨rfl, rfl, rfl⟩

/-- The next entry is expired, and the pass looks at it. -/
structure Doomed (r : Ref) (times : Set Int64) (seen : List (UInt64 × VData)) (hkey : UInt64) (v : VData)
    (rest : List (UInt64 × VData)) (s : Watch) : Prop where
  leaves : Leaves r times seen ((hkey, v) :: rest) s
  early : seen.length + 1 < maxKcount
  timely : s.now ∈ times
  expired : isKeyExpired s.now v.ttl = true

theorem Doomed.spares (doomed : Doomed r times seen hkey v rest s) (spreads : Spreads r name hkey v.key c) :
    Spares r name s c := by
  obtain ⟨dm, left⟩ := doomed.leaves
  obtain ⟨version, current⟩ := left.expired doomed.early doomed.timely doomed.expired
  intro deletes
  refine ⟨hkey, ?_, current⟩
  cases c <;> try exact spreads.elim
  case owners => exact deletes.elim
  case request =>
    obtain rfl := spreads
    exact .previous left.found version
  case requestAll =>
    obtain rfl := spreads
    exact .backups left.found version
  case log =>
    obtain ⟨rfl, rfl, rfl⟩ := spreads
    exact .logged

theorem Doomed.exec (doomed : Doomed r times seen hkey v rest s) (spreads : Spreads r name hkey v.key c)
    (run : Watch.Exec tid r times fine s c reply s') : Doomed r times seen hkey v rest s' := by
  obtain ⟨dm, left⟩ := doomed.leaves
  have calm : c.Calm ∧ c ≠ .visits r := by
    cases c <;> first | exact spreads.elim | exact ⟨trivial, nofun⟩
  obtain ⟨dm', left', _⟩ := left.exec run calm.1 calm.2
  exact ⟨⟨dm', left'⟩, doomed.early, run.timely, isKeyExpired_mono run.later doomed.expired⟩

theorem delKeyVal_spares (doomed : Doomed r times seen hkey v rest s) :
    (cfg.delKeyVal r hkey name v.key).Safe (Watch.Exec tid r times fine) (Spares r name) s
      fun _ => Leaves r times (seen ++ [(hkey, v)]) rest := by
  have spreads {α : Type} {p : Prog α} {s : Watch} (only : p.Only (Spreads r name hkey v.key))
      (doomed : Doomed r times seen hkey v rest s) :
      p.Safe (Watch.Exec tid r times fine) (Spares r name) s fun _ => Doomed r times seen hkey v rest :=
    Safe.only _ (fun _ _ kind doomed => doomed.spares kind) (fun _ _ _ _ kind doomed run =>
      doomed.exec kind run) only doomed
  refine ⟨nofun, fun owners s₁ run => ?_⟩
  have spread : Spreads r name hkey v.key (.owners (cfg.place false hkey)) := trivial
  have doomed := doomed.exec spread run
  refine (spreads (requestEach_spreads _) doomed).bind fun asked s₂ doomed => ?_
  cases asked with
  | false => exact doomed.leaves.skip
  | true =>
    refine (spreads deleteBackups_spreads doomed).bind fun deleted s₃ doomed => ?_
    cases deleted with
    | false => exact doomed.leaves.skip
    | true =>
      refine (spreads oplog_spreads doomed).bind fun _ s₄ doomed => ?_
      obtain ⟨dm, left⟩ := doomed.leaves
      have current := (left.expired doomed.early doomed.timely doomed.expired).2
      refine ⟨fun _ => ⟨hkey, .here, current⟩, fun err s₅ run => ?_⟩
      cases err <;> exact doomed.leaves.delete run

/-- While the pass still looks at entries, it has counted those that it has seen. -/
def Scanning (r : Ref) (times : Set Int64) (n : EvictionCount) (rest : List (UInt64 × VData)) (s : Watch) : Prop :=
  n.kcount + 1 < maxKcount → ∃ seen, seen.length = n.kcount ∧ Leaves r times seen rest s

theorem Scanning.next {m : EvictionCount} {e : UInt64 × VData} (length : seen.length = n.kcount)
    (counted : m.kcount = n.kcount + 1) (leaves : Leaves r times (seen ++ [e]) rest s) :
    Scanning r times m rest s := by
  refine fun _ => ⟨_, ?_, leaves⟩
  rw [List.length_append, List.length_singleton, length, counted]

theorem evictEntry_spares {e : UInt64 × VData} (scanning : Scanning r times n (e :: rest) s) :
    (cfg.evictEntry r name n e).Safe (Watch.Exec tid r times fine) (Spares r name) s fun m s' =>
      if m.2 then Scanning r times m.1 rest s' else ∀ rest, Scanning r times m.1 rest s' := by
  unfold Config.evictEntry
  dsimp only
  split
  next many => exact fun _ early => absurd many (by dsimp only at early; omega)
  next few =>
    refine ⟨nofun, fun now s₁ run => ?_⟩
    obtain ⟨seen, length, dm, left⟩ := scanning (by omega)
    obtain ⟨dm₁, left₁, _⟩ := left.exec run trivial nofun
    have time : now = s₁.now := run.clock
    subst time
    dsimp only [ret_bind]
    split
    next expired =>
      have doomed : Doomed r times seen e.1 e.2 rest s₁ := ⟨⟨dm₁, left₁⟩, by omega, run.timely, expired⟩
      refine (delKeyVal_spares doomed).bind fun answer s₂ leaves => ?_
      cases answer <;> exact Scanning.next length rfl leaves
    next => exact Scanning.next length rfl (Leaves.skip ⟨dm₁, left₁⟩)

theorem evictTables_spares {tables : List (List (UInt64 × VData))} (scanning : Scanning r times n tables.flatten s) :
    (cfg.evictTables r name n tables).Safe (Watch.Exec tid r times fine) (Spares r name) s fun _ _ => True := by
  induction tables generalizing n s with
  | nil => trivial
  | cons entries tables ih =>
    refine Safe.bind ?_ fun _ _ scanning => ih scanning
    exact Safe.iterate (Scanning r times) (fun _ _ _ _ scanning => evictEntry_spares scanning) _ scanning

theorem evictionPasses_spares (inOrder : ∀ str, fine str → ∀ now ∈ times, str.EvictsInOrder now) (passes : Nat) :
    (cfg.evictionPasses r name passes).Safe (Watch.Exec tid r times fine) (Spares r name) s fun _ _ => True := by
  induction passes generalizing s with
  | zero => trivial
  | succ passes ih =>
    refine Safe.bind (Q := fun _ _ => True) ?_ fun again s₁ _ => ?_
    · refine ⟨nofun, fun tables s₁ run => ?_⟩
      obtain ⟨mid, _, good, dm, found, nonempty, visited, same⟩ := run.acts
      have leaves : Leaves r times [] tables.flatten s₁ := by
        refine ⟨dm, by rw [same]; exact found, fun now timely =>
          inOrder _ (good rfl dm found) now timely tables visited, ?_⟩
        exact fun hkey => ⟨[], (visited.versions hkey).symm, nofun⟩
      exact (evictTables_spares fun _ => ⟨[], rfl, leaves⟩).bind fun _ _ _ => trivial
    · cases again with
      | true => exact ih
      | false => trivial

end Sparing

section Deleting

/-- What the dmap stores when the clock stands still. -/
structure Shows (r : Ref) (times : Set Int64) (now : Int64) (str : Storage) (s : Watch) : Prop where
  found : ∃ dm, s.node.dmaps r = some dm ∧ dm.str = str
  still : s.now = now
  timely : now ∈ times

variable {now : Int64} {str : Storage} {α : Type} {Q : α → Watch → Prop}

/-- A command that leaves the storage as it is. -/
theorem Shows.exec {dm : DMap} {node : Node} (shows : Shows r times now str s) (other : c ≠ .visits r)
    (clock : c.ReadsClock now reply) (same : dm.str = str) (acts : (s.node.setDMap r dm).exec tid c reply node) :
    Watch.Exec tid r times fine s c reply ⟨node, now⟩ := by
  obtain ⟨⟨dm₀, found, str₀⟩, rfl, timely⟩ := shows
  refine ⟨Int64.le_refl _, timely, clock, s.node.setDMap r dm, fun _ => ?_, fun this => absurd this other, acts⟩
  have here : (s.node.setDMap r dm).dmaps r = some dm := setDMap_found.2 (.inl ⟨rfl, rfl⟩)
  rw [here, found, Option.map_some, Option.map_some, same, str₀]

/-- A command after which nothing has changed. -/
theorem quiet {next : c.Reply → Prog α}
    (safe : (Program.call c next).Safe (Watch.Exec tid r times fine) (Spares r name) s Q)
    (shows : Shows r times now str s) (reply : c.Reply) (other : c ≠ .visits r) (clock : c.ReadsClock now reply)
    (acts : ∀ node : Node, node.exec tid c reply node) :
    ∃ s', Shows r times now str s' ∧ (next reply).Safe (Watch.Exec tid r times fine) (Spares r name) s' Q := by
  obtain ⟨dm, found, same⟩ := shows.found
  have here : (s.node.setDMap r dm).dmaps r = some dm := setDMap_found.2 (.inl ⟨rfl, rfl⟩)
  exact ⟨⟨s.node.setDMap r dm, now⟩, ⟨⟨dm, here, same⟩, rfl, shows.timely⟩,
    safe.2 reply _ (shows.exec other clock same (acts _))⟩

theorem deleteBackups_quiet {key : Bytes} {next : Bool → Prog α} (shows : Shows r times now str s)
    (safe : ((cfg.deleteBackups hkey name key).bind next).Safe (Watch.Exec tid r times fine) (Spares r name) s Q) :
    ∃ s', Shows r times now str s' ∧ (next true).Safe (Watch.Exec tid r times fine) (Spares r name) s' Q := by
  unfold Config.deleteBackups at safe
  split at safe
  · exact ⟨s, shows, safe⟩
  · obtain ⟨s₁, shows, safe⟩ := quiet safe shows [] nofun trivial fun _ => ⟨nofun, rfl⟩
    exact quiet safe shows [] nofun trivial fun _ => ⟨rfl, rfl⟩

theorem oplog_quiet {next : Unit → Prog α} (shows : Shows r times now str s)
    (safe : ((cfg.oplog r hkey .delete).bind next).Safe (Watch.Exec tid r times fine) (Spares r name) s Q) :
    ∃ s', Shows r times now str s' ∧ (next ()).Safe (Watch.Exec tid r times fine) (Spares r name) s' Q := by
  unfold Config.oplog at safe
  split at safe
  · obtain ⟨dm, found, same⟩ := shows.found
    have logs : (s.node.setDMap r { dm with oplog := some ∅ }).exec tid (.log r hkey .delete) ()
        ((s.node.setDMap r { dm with oplog := some ∅ }).setDMap r
          { dm with oplog := some ((∅ : Finmap fun _ : UInt64 => LogOp).insert hkey .delete) }) :=
      ⟨_, _, setDMap_found.2 (.inl ⟨rfl, rfl⟩), rfl, rfl⟩
    refine ⟨_, ⟨⟨_, setDMap_found.2 (.inl ⟨rfl, rfl⟩), ?_⟩, rfl, shows.timely⟩,
      safe.2 () _ (shows.exec nofun trivial ?_ logs)⟩
    · exact same
    · exact same
  · exact ⟨s, shows, safe⟩

/-- Where there are no copies and no backups, `delKeyVal` gets to the storage. What it deletes there
is expired. -/
theorem delKeyVal_deletes {key : Bytes} {Q : Response → Watch → Prop} (shows : Shows r times now str s)
    (nonempty : str.tables ≠ [])
    (safe : (cfg.delKeyVal r hkey name key).Safe (Watch.Exec tid r times fine) (Spares r name) s Q) :
    (∃ entry, str.get hkey = .ok (.ok entry) ∧ isKeyExpired now entry.ttl = true) ∧
      ∃ str' s', str'.versions = Function.update str.versions hkey (str.versions hkey).tail ∧ str'.tables ≠ [] ∧
        Shows r times now str' s' ∧ Q (.ok []) s' := by
  obtain ⟨s₁, shows, safe⟩ := quiet safe shows [cfg.this] nofun trivial fun _ =>
    ⟨fun _ => List.cons_ne_nil _ _, rfl⟩
  obtain ⟨s₂, shows, safe⟩ := deleteBackups_quiet shows safe
  obtain ⟨s₃, shows, safe⟩ := oplog_quiet shows safe
  obtain ⟨dm, found, same⟩ := shows.found
  constructor
  · obtain ⟨_, ⟨⟩, dm', entry, found', get, expired⟩ := safe.1 trivial
    cases found.symm.trans found'
    rw [shows.still] at expired
    exact ⟨entry, same ▸ get, expired⟩
  · obtain ⟨str', deleted⟩ := Storage.delete_succeeds nonempty hkey
    have deletes : (s₃.node.setDMap r dm).exec tid (.delete r hkey) none
        ((s₃.node.setDMap r dm).setDMap r { dm with str := str' }) :=
      ⟨dm, true, str', setDMap_found.2 (.inl ⟨rfl, rfl⟩), same ▸ deleted, rfl⟩
    exact ⟨str', _, Storage.delete_versions deleted, (Storage.delete_open deleted).2,
      ⟨⟨_, setDMap_found.2 (.inl ⟨rfl, rfl⟩), rfl⟩, rfl, shows.timely⟩,
        safe.2 none _ (shows.exec nofun trivial same deletes)⟩

/-- The callback on an entry that it looks at. -/
theorem evictEntry_deletes {e : UInt64 × VData} {Q : EvictionCount × Bool → Watch → Prop}
    (shows : Shows r times now str s) (nonempty : str.tables ≠ []) (early : n.kcount + 1 < maxKcount)
    (safe : (cfg.evictEntry r name n e).Safe (Watch.Exec tid r times fine) (Spares r name) s Q) :
    ∃ m str' s', m.kcount = n.kcount + 1 ∧ str'.tables ≠ [] ∧ Shows r times now str' s' ∧ Q (m, true) s' ∧
      (isKeyExpired now e.2.ttl = false ∧ str' = str ∨ isKeyExpired now e.2.ttl = true ∧
        (∃ entry, str.get e.1 = .ok (.ok entry) ∧ isKeyExpired now entry.ttl = true) ∧
        str'.versions = Function.update str.versions e.1 (str.versions e.1).tail) := by
  unfold Config.evictEntry at safe
  dsimp only at safe
  rw [if_neg (by omega)] at safe
  obtain ⟨s₁, shows, safe⟩ := quiet safe shows now nofun rfl fun _ => rfl
  dsimp only [ret_bind] at safe
  cases expired : isKeyExpired now e.2.ttl with
  | false =>
    rw [expired] at safe
    exact ⟨_, str, s₁, rfl, nonempty, shows, safe, .inl ⟨rfl, rfl⟩⟩
  | true =>
    rw [expired, if_pos rfl] at safe
    obtain ⟨current, str', s', versions, nonempty', shows', next⟩ :=
      delKeyVal_deletes shows nonempty (safe_bind.1 safe)
    exact ⟨_, str', s', rfl, nonempty', shows', next, .inr ⟨rfl, current, versions⟩⟩

/-- An expired entry of the hkey is to be looked at, after one that is not expired: that one is still
to come, or it is the newest in the storage. -/
inductive Caught (now : Int64) (hkey : UInt64) (n : EvictionCount) (rest : List (UInt64 × VData))
    (str : Storage) : Prop
  | coming {newer older : VData} (all : str.versions hkey = shownOf hkey rest)
      (both : [(hkey, newer), (hkey, older)].Sublist (rest.take (maxKcount - 1 - n.kcount)))
      (live : isKeyExpired now newer.ttl = false) (expired : isKeyExpired now older.ttl = true)
  | newest {newer older : VData} (head : (str.versions hkey).head? = some newer)
      (one : (hkey, older) ∈ rest.take (maxKcount - 1 - n.kcount))
      (live : isKeyExpired now newer.ttl = false) (expired : isKeyExpired now older.ttl = true)

theorem Caught.early (caught : Caught now hkey n rest str) : n.kcount + 1 < maxKcount := by
  by_contra late
  have none_ : maxKcount - 1 - n.kcount = 0 := by omega
  cases caught with
  | coming all both =>
    rw [none_, List.take_zero] at both
    cases both
  | newest head one =>
    rw [none_, List.take_zero] at one
    cases one

/-- The hkey stays caught past an entry, and a look at an expired one of it would delete one that is
not expired. -/
theorem Caught.next {m : EvictionCount} {e : UInt64 × VData} {str' : Storage}
    (caught : Caught now hkey n (e :: rest) str) (counted : m.kcount = n.kcount + 1)
    (after : isKeyExpired now e.2.ttl = false ∧ str' = str ∨ isKeyExpired now e.2.ttl = true ∧
      (∃ entry, str.get e.1 = .ok (.ok entry) ∧ isKeyExpired now entry.ttl = true) ∧
      str'.versions = Function.update str.versions e.1 (str.versions e.1).tail) : Caught now hkey m rest str' := by
  have early := caught.early
  have room : (e :: rest).take (maxKcount - 1 - n.kcount) = e :: rest.take (maxKcount - 1 - m.kcount) := by
    rw [show maxKcount - 1 - n.kcount = maxKcount - 1 - m.kcount + 1 by omega, List.take_succ_cons]
  have others (away : e.1 ≠ hkey) : str'.versions hkey = str.versions hkey := by
    rcases after with ⟨_, rfl⟩ | ⟨_, _, versions⟩
    · rfl
    · rw [versions, Function.update_of_ne away.symm]
  cases caught with
  | coming all both live expired =>
    rw [room] at both
    by_cases here : e.1 = hkey
    · subst here
      rw [shownOf_cons_self] at all
      rcases after with ⟨liveHere, rfl⟩ | ⟨expiredHere, _, versions⟩
      · -- The entry is not expired, and it is the newest one in the storage.
        have one := both.subset (List.mem_cons_of_mem _ List.mem_cons_self)
        refine .newest (by rw [all]; rfl) ?_ liveHere expired
        rcases List.mem_cons.1 one with same | mem
        · rw [← same] at liveHere
          exact absurd (liveHere.symm.trans expired) Bool.false_ne_true
        · exact mem
      · refine .coming (by rw [versions, Function.update_self, all]; rfl) ?_ live expired
        rcases List.cons_sublist_cons'.1 both with later | ⟨same, _⟩
        · exact later
        · rw [← same] at expiredHere
          exact absurd (live.symm.trans expiredHere) Bool.false_ne_true
    · rw [shownOf_cons_of_ne here] at all
      refine .coming ((others here).trans all) ?_ live expired
      rcases List.cons_sublist_cons'.1 both with later | ⟨same, _⟩
      · exact later
      · exact absurd (congrArg Prod.fst same).symm here
  | newest head one live expired =>
    rw [room] at one
    by_cases here : e.1 = hkey
    · subst here
      rcases after with ⟨liveHere, rfl⟩ | ⟨_, ⟨entry, get, stale⟩, _⟩
      · refine .newest head ?_ live expired
        rcases List.mem_cons.1 one with same | mem
        · rw [← same] at liveHere
          exact absurd (liveHere.symm.trans expired) Bool.false_ne_true
        · exact mem
      · rw [Storage.get_of_versions head] at get
        cases get
        exact absurd (live.symm.trans stale) Bool.false_ne_true
    · refine .newest (by rw [others here]; exact head) ?_ live expired
      rcases List.mem_cons.1 one with same | mem
      · exact absurd (congrArg Prod.fst same).symm here
      · exact mem

theorem iterate_caught {entries later : List (UInt64 × VData)} {Q : EvictionCount → Watch → Prop}
    (shows : Shows r times now str s) (nonempty : str.tables ≠ []) (caught : Caught now hkey n (entries ++ later) str)
    (safe : (iterate (cfg.evictEntry r name) n entries).Safe (Watch.Exec tid r times fine) (Spares r name) s Q) :
    ∃ m str' s', Shows r times now str' s' ∧ str'.tables ≠ [] ∧ Caught now hkey m later str' ∧ Q m s' := by
  induction entries generalizing n str s with
  | nil => exact ⟨n, str, s, shows, nonempty, caught, safe⟩
  | cons e entries ih =>
    obtain ⟨m, str₁, s₁, counted, nonempty₁, shows₁, next, after⟩ :=
      evictEntry_deletes shows nonempty caught.early (safe_bind.1 safe)
    exact ih shows₁ nonempty₁ (caught.next counted after) next

theorem evictTables_caught {tables : List (List (UInt64 × VData))} {Q : EvictionCount → Watch → Prop}
    (shows : Shows r times now str s) (nonempty : str.tables ≠ []) (caught : Caught now hkey n tables.flatten str)
    (safe : (cfg.evictTables r name n tables).Safe (Watch.Exec tid r times fine) (Spares r name) s Q) : False := by
  induction tables generalizing n str s with
  | nil =>
    cases caught with
    | coming all both =>
      rw [List.flatten_nil, List.take_nil] at both
      cases both
    | newest head one =>
      rw [List.flatten_nil, List.take_nil] at one
      cases one
  | cons entries tables ih =>
    obtain ⟨m, str₁, s₁, shows₁, nonempty₁, caught₁, next⟩ := iterate_caught shows nonempty caught (safe_bind.1 safe)
    exact ih shows₁ nonempty₁ caught₁ next

/-- A scan that spares what is not expired finds the entries in order, at every clock value. -/
theorem inOrder_of_safe {passes : Nat} (some_ : 0 < passes) (known : (s.node.dmaps r).isSome) (before : s.now ≤ now)
    (timely : now ∈ times) (good : fine str)
    (safe : (cfg.scanDMapForEviction name r passes).Safe (Watch.Exec tid r times fine) (Spares r name) s fun _ _ =>
      True) :
    str.EvictsInOrder now := by
  intro tables visited
  refine List.pairwise_iff_forall_sublist.2 ?_
  rintro ⟨hkey, newer⟩ ⟨_, older⟩ both rfl expired
  by_contra live
  have nonempty : str.tables ≠ [] := by
    intro empty
    rw [Storage.Visits, empty] at visited
    cases visited
    cases both
  obtain ⟨dm, found⟩ := Option.isSome_iff_exists.1 known
  -- The mutex is free, and others have made the storage what it is when the pass starts.
  have here (node : Node) (dm : DMap) : (node.setDMap r dm).dmaps r = some dm := setDMap_found.2 (.inl ⟨rfl, rfl⟩)
  have locks : Watch.Exec tid r times fine s (.lock r) ()
      ⟨(s.node.setDMap r { dm with mutex := none }).setDMap r { dm with mutex := some tid }, now⟩ := by
    refine ⟨before, timely, trivial, s.node.setDMap r { dm with mutex := none }, fun _ => ?_, nofun, _,
      here _ _, rfl, rfl⟩
    rw [here, found]
    rfl
  have starts (node : Node) : Watch.Exec tid r times fine ⟨node, now⟩ (.visits r) tables
      ⟨node.setDMap r { dm with str }, now⟩ := by
    refine ⟨Int64.le_refl _, timely, trivial, _, fun other => absurd rfl other, fun _ dm' found' => ?_,
      _, here _ _, nonempty, visited, rfl⟩
    cases (here node _).symm.trans found'
    exact good
  cases passes with
  | zero => exact absurd some_ (Nat.lt_irrefl 0)
  | succ passes =>
    have pass := safe_bind.1 (safe_bind.1 (safe.2 () _ locks))
    have scan : ((cfg.evictTables r name ⟨0, 0⟩ tables).bind _).Safe _ _ _ _ := pass.2 tables _ (starts _)
    have caught : Caught now hkey ⟨0, 0⟩ tables.flatten str :=
      .coming (visited.versions hkey).symm both (Bool.eq_false_iff.2 live) expired
    exact evictTables_caught ⟨⟨_, here _ _, rfl⟩, rfl, timely⟩ nonempty caught (safe_bind.1 scan)

end Deleting

end Eviction

/-- `scanDMapForEviction` deletes only keys whose current entry is expired if and only if, whenever a
pass starts and whatever clock value it reads, the entries that it looks at are in order. -/
theorem eviction_spares_live_iff {cfg : Config} {tid : Tid} {name : Bytes} {r : Ref} {passes : Nat}
    {times : Set Int64} {fine : Storage → Prop} {s : Watch} (some_ : 0 < passes) (known : (s.node.dmaps r).isSome)
    (before : ∀ now ∈ times, s.now ≤ now) :
    (∀ c (next : c.Reply → Prog Unit) s',
      (cfg.scanDMapForEviction name r passes).Reaches (Watch.Exec tid r times fine) s
      (.call c next) s' → c.IsDelete → ∃ hkey, s'.Deletes r name hkey c ∧ s'.Expired r hkey) ↔
    ∀ str, fine str → ∀ now ∈ times, str.EvictsInOrder now := by
  constructor
  · intro spares str good now timely
    exact Eviction.inOrder_of_safe some_ known (before now timely) timely good (safe_of_reaches spares)
  · intro inOrder c next s' reaches deletes
    have safe : (cfg.scanDMapForEviction name r passes).Safe (Watch.Exec tid r times fine) (Eviction.Spares r name) s
        fun _ _ => True := by
      refine ⟨nofun, fun _ s₁ _ => ?_⟩
      refine (Eviction.evictionPasses_spares inOrder passes).bind fun _ s₂ _ => ?_
      exact ⟨nofun, fun _ _ _ => trivial⟩
    exact safe.reaches reaches deletes

/-- A command with no one else around. -/
theorem Watch.Exec.alone {tid : Tid} {r : Ref} {times : Set Int64} {fine : Storage → Prop} {s : Watch} {c : Cmd}
    {reply : c.Reply} {node : Node} (timely : s.now ∈ times) (acts : s.node.exec tid c reply node)
    (clock : c.ReadsClock s.now reply) (before : c = .visits r → ∀ dm, s.node.dmaps r = some dm → fine dm.str) :
    Watch.Exec tid r times fine s c reply { s with node } :=
  ⟨Int64.le_refl _, timely, clock, s.node, fun _ => rfl, before, acts⟩

/-- A member with one dmap. -/
def Storage.onNode (str : Storage) : Node :=
  (emptyNode.setPartition ⟨false, 0⟩ ⟨1, Finmap.singleton [100] 0, none⟩).setDMap 0 ⟨str, none, some newLocker, none⟩

namespace Eviction

variable {fine : Storage → Prop} {str : Storage} {now : Int64}

theorem onNode_found : str.onNode.dmaps 0 = some ⟨str, none, some newLocker, none⟩ :=
  setDMap_found.2 (.inl ⟨rfl, rfl⟩)

theorem takes_mutex : Watch.Exec 1 0 {now} fine ⟨str.onNode, now⟩ (.lock 0) ()
    ⟨str.onNode.setDMap 0 ⟨str, some 1, some newLocker, none⟩, now⟩ :=
  .alone rfl ⟨_, onNode_found, rfl, rfl⟩ trivial (by rintro ⟨⟩)

theorem starts_range {visits : List (List (UInt64 × VData))} (nonempty : str.tables ≠ []) (good : fine str)
    (visited : str.Visits visits) :
    Watch.Exec 1 0 {now} fine ⟨str.onNode.setDMap 0 ⟨str, some 1, some newLocker, none⟩, now⟩ (.visits 0) visits
      ⟨str.onNode.setDMap 0 ⟨str, some 1, some newLocker, none⟩, now⟩ := by
  have found : (str.onNode.setDMap 0 ⟨str, some 1, some newLocker, none⟩).dmaps 0 =
      some ⟨str, some 1, some newLocker, none⟩ := setDMap_found.2 (.inl ⟨rfl, rfl⟩)
  refine .alone rfl ⟨_, found, nonempty, visited, rfl⟩ trivial fun _ dm same => ?_
  cases found.symm.trans same
  exact good

theorem reads_clock {node : Node} : Watch.Exec 1 0 {now} fine ⟨node, now⟩ .now now ⟨node, now⟩ :=
  .alone rfl rfl rfl (by rintro ⟨⟩)

theorem asks_owners {node : Node} {p : Place} :
    Watch.Exec 1 0 {now} fine ⟨node, now⟩ (.owners p) [soloConfig.this] ⟨node, now⟩ :=
  .alone rfl ⟨fun _ => List.cons_ne_nil _ _, rfl⟩ trivial (by rintro ⟨⟩)

/-- Entries are in order if the versions of each key are, from the newest to the oldest. -/
theorem inOrder_of_versions {entries : List (UInt64 × VData)}
    (versions : ∀ hkey, (shownOf hkey entries).Pairwise fun newer older =>
    isKeyExpired now older.ttl = true → isKeyExpired now newer.ttl = true) : EvictsInOrder now entries := by
  refine List.Pairwise.sublist (List.take_sublist _ _) ?_
  induction entries with
  | nil => exact .nil
  | cons e entries ih =>
    refine .cons (fun older mem same => ?_) (ih fun hkey => ?_)
    · have first := versions e.1
      rw [shownOf_cons_self] at first
      exact (List.pairwise_cons.1 first).1 older.2 (List.mem_filterMap.2 ⟨older, mem, if_pos same.symm⟩)
    · exact (versions hkey).sublist ((List.sublist_cons_self e entries).filterMap _)

/-- A storage of two tables, with a newer version of an entry in the second one. -/
theorem rewritten {a d : VData} (keyA : a.key.length < maxKeyLen) (keyD : d.key.length < maxKeyLen)
    (lengthA : a.encode.length = 15) (lengthD : d.encode.length = 15) :
    ∃ t u b c, b.ttl = 0 ∧ c.ttl = 0 ∧ Storage.system.AnyRun [.put 1 a [], .put 2 b [], .put 3 c [true], .put 1 d []]
      ⟨[t, u], true, false⟩ ∧ Storage.Visits ⟨[t, u], true, false⟩ [[(3, c), (1, d)], [(1, a), (2, b)]] := by
  obtain ⟨t, u, run, _, older, _, newer⟩ := Storage.versions_after_switch keyA keyD lengthA lengthD
  have apart : (3 : UInt64) ≠ 1 ∧ (1 : UInt64) ≠ 2 := by decide
  exact ⟨t, u, _, _, rfl, rfl, run,
    .cons (Storage.visit_two apart.1 newer) (.cons (Storage.visit_two apart.2 older) .nil)⟩

end Eviction

/-- The newer version of a key is expired and the older one is not. The newer one is deleted. -/
theorem eviction_spares_live_rewritten :
    let old : VData := ⟨[97], 2, [1]⟩
    let current : VData := ⟨[97], 1, [2]⟩
    ∃ b c str, Storage.system.AnyRun [.put 1 old [], .put 2 b [], .put 3 c [true], .put 1 current []] str ∧
      ∃ s next, (soloConfig.scanDMapForEviction [100] 0 1).Reaches (Watch.Exec 1 0 {1000000} (· = str))
        ⟨str.onNode, 1000000⟩ (.call (.delete 0 1) next) s ∧ ∃ hkey, s.Deletes 0 [100] hkey (.delete 0 1) ∧
            s.Expired 0 hkey := by
  intro old current
  obtain ⟨t, u, b, ⟨keyC, _, valueC⟩, _, rfl, run, visited⟩ := @Eviction.rewritten old current (by decide) (by decide)
    (by decide) (by decide)
  have inOrder : Storage.EvictsInOrder ⟨[t, u], true, false⟩ 1000000 := by
    intro tables seen
    refine Eviction.inOrder_of_versions fun hkey => ?_
    have versions := (seen.versions hkey).trans (visited.versions hkey).symm
    change Eviction.shownOf hkey _ = Eviction.shownOf hkey [(3, _), (1, current), (1, old), (2, b)] at versions
    rw [versions]
    by_cases first : (1 : UInt64) = hkey
    · subst first
      exact .cons (fun _ _ _ => by decide) (List.pairwise_singleton _ _)
    by_cases second : (2 : UInt64) = hkey
    · subst second
      exact List.pairwise_singleton _ _
    by_cases third : (3 : UInt64) = hkey
    · subst third
      exact List.pairwise_singleton _ _
    rw [Eviction.shownOf_cons_of_ne third, Eviction.shownOf_cons_of_ne first, Eviction.shownOf_cons_of_ne first,
      Eviction.shownOf_cons_of_ne second]
    exact .nil
  obtain ⟨s, next, reaches⟩ : ∃ s next, (soloConfig.scanDMapForEviction [100] 0 1).Reaches (Watch.Exec 1 0 {1000000}
      (· = ⟨[t, u], true, false⟩)) ⟨Storage.onNode ⟨[t, u], true, false⟩, 1000000⟩ (.call (.delete 0 1) next) s :=
    ⟨_, _, .step () Eviction.takes_mutex (.step _ (Eviction.starts_range (List.cons_ne_nil _ _) rfl visited)
      (.step (1000000 : Int64) Eviction.reads_clock (.step (1000000 : Int64) Eviction.reads_clock
        (.step [soloConfig.this] Eviction.asks_owners .refl))))⟩
  have spares :=
    eviction_spares_live_iff Nat.zero_lt_one (by rw [Eviction.onNode_found]; rfl)
    (by rintro _ rfl; exact Int64.le_refl _)
    |>.2 (by rintro _ rfl _ rfl; exact inOrder) _ next s reaches trivial
  exact ⟨b, _, _, run, s, next, reaches, spares⟩

/-- An entry without a TTL has been written over one that expires, in a newer table. `Range` shows
the eviction the older one too, and `Delete` takes the newer one away. -/
theorem eviction_deletes_live :
    let old : VData := ⟨[97], 1, [1]⟩
    let current : VData := ⟨[97], 0, [2]⟩
    ∃ b c str, Storage.system.AnyRun [.put 1 old [], .put 2 b [], .put 3 c [true], .put 1 current []] str ∧
      ∃ s next, (soloConfig.scanDMapForEviction [100] 0 1).Reaches (Watch.Exec 1 0 {1000000} (· = str))
        ⟨str.onNode, 1000000⟩ (.call (.delete 0 1) next) s ∧ ¬ s.Expired 0 1 := by
  intro old current
  obtain ⟨t, u, b, ⟨keyC, _, valueC⟩, _, rfl, run, visited⟩ := @Eviction.rewritten old current (by decide) (by decide)
    (by decide) (by decide)
  refine ⟨b, _, _, run, _, _, .step () Eviction.takes_mutex
    (.step _ (Eviction.starts_range (List.cons_ne_nil _ _) rfl visited)
    (.step (1000000 : Int64) Eviction.reads_clock (.step (1000000 : Int64) Eviction.reads_clock
      (.step (1000000 : Int64) Eviction.reads_clock (.step [soloConfig.this] Eviction.asks_owners .refl))))), ?_⟩
  rintro ⟨dm, entry, found, get, expired⟩
  rcases setDMap_found.1 found with ⟨_, rfl⟩ | ⟨other, _⟩
  · have newest : (Storage.versions ⟨[t, u], true, false⟩ 1).head? = some current := by
      rw [← visited.versions 1]
      rfl
    rw [Storage.get_of_versions newest] at get
    cases get
    have live : isKeyExpired 1000000 0 = false := by decide
    exact Bool.false_ne_true (live.symm.trans expired)
  · exact other rfl

end Olric
