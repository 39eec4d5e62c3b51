import Olric.Cluster.OwnerSpec

namespace Olric

open Program

/-- What the keys of all dmaps stand for. -/
abbrev Contents := Bytes → Bytes → Option Bytes

def Contents.set (m : Contents) (name key : Bytes) (value : Option Bytes) : Contents :=
  Function.update m name (Function.update (m name) key value)

theorem Contents.set_self (m : Contents) (name key : Bytes) (value : Option Bytes) :
    m.set name key value name key = value := by
  simp [set]

theorem Contents.set_of_ne (m : Contents) {name key name' key' : Bytes} (value : Option Bytes)
    (other : ¬ (name' = name ∧ key' = key)) : m.set name key value name' key' = m name' key' := by
  unfold set
  by_cases named : name' = name
  · subst named
    rw [Function.update_self, Function.update_of_ne fun same => other ⟨rfl, same⟩]
  · rw [Function.update_of_ne named]

namespace MapOp

def name : MapOp → Bytes
  | .put name _ _ | .get name _ | .delete name _ => name

def key : MapOp → Bytes
  | .put _ key _ | .get _ key | .delete _ key => key

/-- The operation can be sent. -/
def Fits (maxValueSize : Int) (op : MapOp) : Prop := (Request.external op.client).Fits maxValueSize

/-- What one map answers. -/
def answer (m : Contents) : MapOp → Response
  | .put .. | .delete .. => .ok []
  | .get name key => (m name key).elim .keyNotFound .ok

/-- What becomes of the map. -/
def apply (m : Contents) : MapOp → Contents
  | .put name key value => m.set name key (some value)
  | .get .. => m
  | .delete name key => m.set name key none

end MapOp

/-- The map after the requests. -/
def Contents.after (m : Contents) : List Event → Contents
  | [] => m
  | .request _ op _ :: events => after (op.apply m) events
  | .job .. :: events => after m events

/-- All answers are those of one map. -/
def Contents.Answers (m : Contents) : List Event → Prop
  | [] => True
  | .request _ op answer :: events => answer = op.answer m ∧ Answers (op.apply m) events
  | .job .. :: events => Answers m events

theorem Contents.after_append (m : Contents) (events later : List Event) :
    m.after (events ++ later) = (m.after events).after later := by
  induction events generalizing m with
  | nil => rfl
  | cons event events ih => cases event <;> exact ih _

theorem Contents.answers_append {m : Contents} {events later : List Event} :
    m.Answers (events ++ later) ↔ m.Answers events ∧ (m.after events).Answers later := by
  induction events generalizing m with
  | nil => exact (and_iff_right trivial).symm
  | cons event events ih =>
    cases event with
    | request host op answer =>
      change answer = _ ∧ Answers _ (events ++ later) ↔ (answer = _ ∧ _) ∧ _
      rw [ih, and_assoc]
      rfl
    | job => exact ih

namespace Stable

variable {w : Stable} {depth : Nat} {host : Host} {s s' : Servers MapNode} {name key value : Bytes} {hkey : UInt64}

/-- More requests may nest. -/
theorem serve_succ {σ : Type} {exec : σ → (c : Cmd) → c.Reply → σ → Prop} :
    Simulates id (fun _ => True) (w.serve exec depth) (w.serve exec (depth + 1)) := by
  have each (n : σ) (c : Cmd) (reply : c.Reply) (n' : σ) (_ : True) (now : exec n c reply n') :
      exec (id n) c reply (id n') ∧ True := ⟨now, trivial⟩
  induction depth with
  | zero => exact Simulates.step each fun _ _ _ _ _ _ => False.elim
  | succ depth ih => exact Simulates.step each ih

theorem serve_mono {σ : Type} {exec : σ → (c : Cmd) → c.Reply → σ → Prop} {s s' : Servers σ} {α : Type}
    {p : Prog α} {a : α}
    (run : p.Runs (w.serve exec depth host) s a s') : p.Runs (w.serve exec (depth + 1) host) s a s' :=
  (serve_succ.runs (fun _ => trivial) run).1

/-- What serving an operation makes of the members. -/
def Served (w : Stable) (s : Servers MapNode) : MapOp → Response → Servers MapNode → Prop
  | .put name key value, answer, s' => answer = .ok [] ∧
    s.Becomes Held.none (Change.touches name (getHKey w.sum64 name key))
      (w.backupJobs (getHKey w.sum64 name key) name key value) s' ∧
    s'.view (w.primary (getHKey w.sum64 name key)) (w.place false (getHKey w.sum64 name key)) name
      (getHKey w.sum64 name key) =
      some ⟨key, 0, value⟩
  | .get name key, answer, s' => answer = shown (w.lookup s.view name (getHKey w.sum64 name key)) ∧
    s.Becomes Held.none Change.nothing [] s'
  | .delete name key, answer, s' =>
    answer = .ok [] ∧ s.Becomes Held.none (Change.removes name (getHKey w.sum64 name key)) [] s' ∧
    (∀ h ∈ w.owners (getHKey w.sum64 name key),
      s'.view h (w.place false (getHKey w.sum64 name key)) name (getHKey w.sum64 name key) = none) ∧
    ((w.config (w.primary (getHKey w.sum64 name key))).backupCount ≠ 0 → ∀ h ∈ w.backups (getHKey w.sum64 name key),
      s'.view h (w.place true (getHKey w.sum64 name key)) name (getHKey w.sum64 name key) = none)

section Forwarding

variable {op : ClientOp} {here : Prog Response} {Q : Response → Servers MapNode → Prop}

theorem locateHKey_serves {α : Type} {next : Option Host → Prog α} {Q : α → Servers MapNode → Prop}
    (rest : (next (some (w.primary hkey))).Total (w.serve MapNode.exec depth host) s Q) :
    (((w.config host).locateHKey hkey).bind next).Total (w.serve MapNode.exec depth host) s Q := by
  unfold Config.locateHKey
  rw [w.place_eq]
  refine owners_serves ?_
  dsimp only [ret_bind, bind_eq, pure_eq]
  have last : (w.owners hkey).getLast? = some (w.primary hkey) := List.getLast?_eq_some_getLast _
  rwa [last]

/-- On the primary owner the operation runs at once. -/
theorem onOwner_here (served : here.Total (w.serve MapNode.exec depth (w.primary hkey)) s Q) :
    ((w.config (w.primary hkey)).onOwner hkey op here).Total (w.serve MapNode.exec depth (w.primary hkey)) s Q := by
  refine locateHKey_serves ?_
  dsimp only
  rwa [if_pos (w.own _).symm]

/-- The others pass it on. -/
theorem onOwner_away (away : host ≠ w.primary hkey) (fits : (Request.external op).Fits w.maxValueSize)
    (served : ((w.config (w.primary hkey)).handle w.sum64 (.external op)).Total
      (w.serve MapNode.exec depth (w.primary hkey)) s Q) :
    ((w.config host).onOwner hkey op here).Total (w.serve MapNode.exec (depth + 1) host) s Q := by
  refine locateHKey_serves ?_
  dsimp only
  rw [if_neg (by rw [w.own]; exact away.symm)]
  have listed : w.primary hkey ∈ w.routing (w.place false hkey) := List.getLast_mem _
  exact total_request (answers_of_arrives listed fits.arrives served) fun _ _ result => result

end Forwarding

/-- The operation once the member has found the owner, here or elsewhere. -/
def onOwner (w : Stable) (host : Host) : MapOp → Prog Response
  | .put name key value => (w.config host).put w.sum64 name key value 0
  | .get name key => (w.config host).get w.sum64 name key
  | .delete name key => (w.config host).delete w.sum64 name key

/-- An answer of the owner is passed on as it is. -/
theorem clientOperation_serves {op : MapOp}
    (served : (w.onOwner host op).Total (w.serve MapNode.exec depth host) s (w.Served s op)) :
    ((w.config host).clientOperation w.sum64 op.client).Total (w.serve MapNode.exec depth host) s
      (w.Served s op) := by
  cases op with
  | put | delete =>
    refine Total.bind served ?_
    rintro _ s' ⟨rfl, result⟩
    exact ⟨rfl, result⟩
  | get name key =>
    refine Total.bind served ?_
    rintro _ s' ⟨rfl, result⟩
    cases seen : w.lookup s.view name (getHKey w.sum64 name key) with
    | none => exact ⟨by rw [seen], result⟩
    | some v => exact ⟨by rw [seen], result⟩

/-- The requests that serve an operation can be sent as well. -/
theorem carries_of_op {op : MapOp} (fits : op.Fits w.maxValueSize) : w.Carries op.name op.key := by
  obtain ⟨_, ⟨⟩, request, small, _⟩ := fits
  cases op with
  | put | get | delete => exact ⟨request.dmapShort, request.keyShort, (Int.natCast_nonneg _).trans small⟩

theorem putBackup_fits (fits : (MapOp.put name key value).Fits w.maxValueSize) :
    (Request.putBackup name key value none).Fits w.maxValueSize := by
  obtain ⟨_, ⟨⟩, request, small, framed⟩ := fits
  exact ⟨_, rfl, ⟨rfl, request.dmapShort, request.keyShort⟩, small, framed⟩

theorem serves_here (depth : Nat) (op : MapOp) (fits : op.Fits w.maxValueSize) (idle : s.Idle Held.none) :
    (w.onOwner (w.primary (getHKey w.sum64 op.name op.key)) op).Total
      (w.serve MapNode.exec (depth + 1) (w.primary (getHKey w.sum64 op.name op.key))) s (w.Served s op) := by
  cases op with
  | put => exact onOwner_here (putKeyVal_serves (putBackup_fits fits) rfl idle)
  | get => exact onOwner_here (getKeyVal_serves (carries_of_op fits) rfl idle)
  | delete => exact onOwner_here (deleteKey_serves (carries_of_op fits) rfl idle)

/-- Wherever an operation is issued, it is served. -/
theorem serves (depth : Nat) (host : Host) (op : MapOp) (fits : op.Fits w.maxValueSize) (idle : s.Idle Held.none) :
    ((w.config host).clientOperation w.sum64 op.client).Total (w.serve MapNode.exec (depth + 2) host) s
      (w.Served s op) := by
  refine clientOperation_serves ?_
  by_cases same : host = w.primary (getHKey w.sum64 op.name op.key)
  · subst same
    exact serves_here _ op fits idle
  · have served := clientOperation_serves (serves_here depth op fits idle)
    cases op with
    | put | get | delete => exact onOwner_away same fits served

theorem job_serves (depth : Nat) (host : Host) (name key value : Bytes)
    (fits : (Request.putBackup name key value none).Fits w.maxValueSize) (idle : s.Idle Held.none) :
    ((w.config host).job (.putKeyValBackup (getHKey w.sum64 name key) name key value 0)).Total
      (w.serve MapNode.exec (depth + 1) host) s fun _ s' =>
      Written s Held.none (w.currentBackups host (getHKey w.sum64 name key))
        (w.place true (getHKey w.sum64 name key)) name
        (getHKey w.sum64 name key) (some ⟨key, 0, value⟩) (w.currentBackups host (getHKey w.sum64 name key)) s' := by
  refine (putKeyValBackup_serves fits rfl idle).bind ?_
  rintro _ s' ⟨_, written⟩
  exact written

/-- What the members have of all keys. -/
def contents (w : Stable) (s : Servers MapNode) : Contents := fun name key =>
  (w.lookup s.view name (getHKey w.sum64 name key)).map VData.value

theorem lookup_congr {v v' : Host → View} (same : ∀ h p, v' h p name hkey = v h p name hkey) :
    w.lookup v' name hkey = w.lookup v name hkey := by
  unfold lookup
  simp only [same]

/-- The members stand for the map, as far as the keys are concerned that are in use. A key whose
backups are still to be written is one that the primary owner has. -/
structure StandsFor (w : Stable) (keys : Bytes → Set Bytes) (s : Servers MapNode) (m : Contents) : Prop where
  idle : s.Idle Held.none
  shows : ∀ name, ∀ key ∈ keys name, w.contents s name key = m name key
  jobs : ∀ x ∈ s.jobs, ∃ name key value, x = (w.primary (getHKey w.sum64 name key),
    .putKeyValBackup (getHKey w.sum64 name key) name key value 0) ∧
    (Request.putBackup name key value none).Fits w.maxValueSize ∧
    s.view (w.primary (getHKey w.sum64 name key)) (w.place false (getHKey w.sum64 name key)) name
        (getHKey w.sum64 name key) ≠ none

/-- A delete reaches all copies: it is told to delete backups if there are any, and no backup of the
key is still to be written. -/
def Complete (w : Stable) (jobs : List (Host × Job)) (name key : Bytes) : Prop :=
  ((w.config (w.primary (getHKey w.sum64 name key))).backupCount ≠ 0 ∨ w.backups (getHKey w.sum64 name key) = []) ∧
    ∀ host key' value timeout, (host, .putKeyValBackup (getHKey w.sum64 name key) name key' value timeout) ∉ jobs

/-- Requests are about keys in use and can be sent, and deletes reach all copies. -/
def Careful (w : Stable) (keys : Bytes → Set Bytes) (jobs : List (Host × Job)) : Event → Prop
  | .request _ op _ =>
    op.key ∈ keys op.name ∧ op.Fits w.maxValueSize ∧ ∀ name key, op = .delete name key → w.Complete jobs name key
  | .job .. => True

section Steps

variable {keys : Bytes → Set Bytes} {m : Contents} {held : Held} {started : List (Host × Job)}

theorem contents_of_touches (becomes : s.Becomes held (Change.touches name hkey) started s') {name' key' : Bytes}
    (other : ¬ (name' = name ∧ getHKey w.sum64 name' key' = hkey)) :
    w.contents s' name' key' = w.contents s name' key' := by
  unfold contents
  rw [lookup_congr fun h p => becomes.same fun _ changed => other changed]

/-- Where the primary owner has the key, backups do not matter. -/
theorem lookup_of_primary {v : Host → View} {entry : VData}
    (has : v (w.primary hkey) (w.place false hkey) name hkey = some entry) : w.lookup v name hkey = some entry := by
  unfold lookup
  rw [has]
  rfl

theorem lookup_of_none {v : Host → View} (owners : ∀ h ∈ w.owners hkey, v h (w.place false hkey) name hkey = none)
    (backups : ∀ h ∈ w.backups hkey, v h (w.place true hkey) name hkey = none) : w.lookup v name hkey = none := by
  unfold lookup
  rw [← w.owners_eq] at owners
  rw [owners _ (List.mem_append_right _ List.mem_cons_self), List.findSome?_eq_none_iff.2 backups,
    List.findSome?_eq_none_iff.2 fun h mem => owners h (List.mem_append_left _ (List.mem_reverse.1 mem))]
  rfl

/-- A write of one key, on all members and on the map. -/
theorem StandsFor.write (distinct : ∀ name, Set.InjOn (getHKey w.sum64 name) (keys name))
    (stands : w.StandsFor keys s m) (used : key ∈ keys name)
    (becomes : s.Becomes Held.none (Change.touches name (getHKey w.sum64 name key)) started
      s')
    {value : Option Bytes} (now : w.contents s' name key = value) :
    ∀ name', ∀ key' ∈ keys name', w.contents s' name' key' = m.set name key value name' key' := by
  intro name' key' used'
  by_cases here : name' = name ∧ key' = key
  · obtain ⟨rfl, rfl⟩ := here
    rw [now, Contents.set_self]
  · rw [Contents.set_of_ne _ _ here, ← stands.shows name' key' used']
    refine contents_of_touches becomes ?_
    rintro ⟨rfl, same⟩
    exact here ⟨rfl, distinct _ used' used same⟩

/-- One step of the members is one step of the map. -/
theorem StandsFor.served {op : MapOp} {answer : Response}
    (distinct : ∀ name, Set.InjOn (getHKey w.sum64 name) (keys name)) (stands : w.StandsFor keys s m)
    (careful : w.Careful keys s.jobs (.request host op answer)) (served : w.Served s op answer s') :
    answer = op.answer m ∧ w.StandsFor keys s' (op.apply m) := by
  obtain ⟨used, fits, complete⟩ := careful
  cases op with
  | put name key value =>
    obtain ⟨rfl, becomes, now⟩ := served
    have stored : w.contents s' name key = some value := by
      unfold contents
      rw [lookup_of_primary now]
      rfl
    refine ⟨rfl, becomes.idle, stands.write distinct used becomes stored, fun x listed => ?_⟩
    rw [becomes.jobs] at listed
    rcases List.mem_append.1 listed with before | new
    · obtain ⟨name', key', value', rfl, sendable, has⟩ := stands.jobs x before
      refine ⟨name', key', value', rfl, sendable, ?_⟩
      by_cases here : name' = name ∧ getHKey w.sum64 name' key' = getHKey w.sum64 name key
      · obtain ⟨rfl, same⟩ := here
        rw [same, now]
        exact nofun
      · rwa [becomes.same fun _ changed => here changed]
    · unfold backupJobs at new
      split at new
      · obtain rfl := List.mem_singleton.1 new
        exact ⟨name, key, value, rfl, putBackup_fits fits, by rw [now]; exact nofun⟩
      · cases new
  | get name key =>
    obtain ⟨rfl, becomes⟩ := served
    have same : w.contents s' = w.contents s := by
      unfold contents
      rw [becomes.view_eq]
    refine ⟨?_, becomes.idle, by rw [same]; exact stands.shows, fun x listed => ?_⟩
    · change _ = (m name key).elim _ _
      rw [← stands.shows name key used]
      unfold contents shown
      cases w.lookup s.view name (getHKey w.sum64 name key) <;> rfl
    · rw [becomes.jobs, List.append_nil] at listed
      rw [becomes.view_eq]
      exact stands.jobs x listed
  | delete name key =>
    obtain ⟨rfl, becomes, owners, backups⟩ := served
    obtain ⟨reached, ready⟩ := complete name key rfl
    have touched := becomes.mono fun _ _ _ _ _ changed => changed.1
    have gone : w.contents s' name key = none := by
      unfold contents
      rw [lookup_of_none owners]
      · rfl
      · intro h mem
        rcases reached with count | empty
        · exact backups count h mem
        · rw [empty] at mem
          cases mem
    refine ⟨rfl, becomes.idle, stands.write distinct used touched gone, fun x listed => ?_⟩
    rw [becomes.jobs, List.append_nil] at listed
    obtain ⟨name', key', value', rfl, sendable, has⟩ := stands.jobs x listed
    refine ⟨name', key', value', rfl, sendable, ?_⟩
    rwa [becomes.same fun _ changed => ?_]
    obtain ⟨⟨rfl, same⟩, _⟩ := changed
    rw [same] at listed
    exact ready _ _ _ _ listed

/-- A late backup does not show, as the primary owner has the key. -/
theorem StandsFor.backedUp {job : Job} {before after : List (Host × Job)} (stands : w.StandsFor keys s m)
    (waiting : s.jobs = before ++ (host, job) :: after)
    (run : ((w.config host).job job).Runs (w.serve MapNode.exec depth host)
      { s with jobs := before ++ after } () s') :
    w.StandsFor keys s' m := by
  obtain ⟨name, key, value, same, fits, has⟩ := stands.jobs (host, job) (by rw [waiting]; simp)
  cases same
  have idle : Servers.Idle { s with jobs := before ++ after } Held.none := stands.idle
  have written := (job_serves depth _ name key value fits idle).runs (serve_mono run)
  have primary (name' : Bytes) (key' : Bytes) :
      s'.view (w.primary (getHKey w.sum64 name' key')) (w.place false (getHKey w.sum64 name' key')) name'
        (getHKey w.sum64 name' key') = s.view (w.primary (getHKey w.sum64 name' key'))
        (w.place false (getHKey w.sum64 name' key')) name' (getHKey w.sum64 name' key') :=
    written.becomes.same fun _ changed => by cases congrArg Place.backup changed.1.2.1
  refine ⟨written.becomes.idle, fun name' key' used => ?_, fun x listed => ?_⟩
  · rw [← stands.shows name' key' used]
    by_cases here : name' = name ∧ getHKey w.sum64 name' key' = getHKey w.sum64 name key
    · obtain ⟨entry, seen⟩ := Option.ne_none_iff_exists'.1 has
      obtain ⟨rfl, same⟩ := here
      rw [← same] at seen
      unfold contents
      rw [lookup_of_primary seen, lookup_of_primary ((primary name' key').trans seen)]
    · unfold contents
      rw [lookup_congr fun h p => written.becomes.same fun _ changed => here changed.1.2.2]
      rfl
  · rw [written.becomes.jobs, List.append_nil] at listed
    obtain ⟨name', key', value', rfl, sendable, seen⟩ := stands.jobs x (by
      rw [waiting]
      rcases List.mem_append.1 listed with mem | mem
      · exact List.mem_append_left _ mem
      · exact List.mem_append_right _ (List.mem_cons_of_mem _ mem))
    exact ⟨name', key', value', rfl, sendable, by rwa [primary]⟩

/-- A whole run of the members is a run of the map. -/
theorem stands_for_after {start : Servers MapNode} {events : List Event}
    (distinct : ∀ name, Set.InjOn (getHKey w.sum64 name) (keys name)) (idle : start.Idle Held.none)
    (quiet : start.jobs = []) (run : (w.system MapNode.exec start).Run (fun s => w.Careful keys s.jobs) events s) :
    (w.contents start).Answers events ∧ w.StandsFor keys s ((w.contents start).after events) := by
  refine run.history_invariant (fun events s => (w.contents start).Answers events ∧
    w.StandsFor keys s ((w.contents start).after events)) ?_ ?_
  · rintro s rfl
    refine ⟨trivial, idle, fun _ _ _ => rfl, fun x listed => ?_⟩
    rw [quiet] at listed
    cases listed
  · intro events s event s' ⟨answers, stands⟩ careful acts
    rw [Contents.answers_append, Contents.after_append]
    cases acts with
    | request depth run =>
      have served := (serves depth _ _ careful.2.1 stands.idle).runs (serve_mono (serve_mono run))
      obtain ⟨same, next⟩ := stands.served distinct careful served
      exact ⟨⟨answers, same, trivial⟩, next⟩
    | job depth waiting run => exact ⟨⟨answers, trivial⟩, stands.backedUp waiting run⟩

end Steps

/-- The same of members with storages in tables, as long as those act as maps. -/
theorem members_answer_as_map {keys : Bytes → Set Bytes} {tid : Tid} {start s : Servers Node} {events : List Event}
    (distinct : ∀ name, Set.InjOn (getHKey w.sum64 name) (keys name)) (valid : ∀ h, (start.nodes h).AllOpen)
    (idle : (start.map Node.mapNode).Idle Held.none) (quiet : start.jobs = [])
    (run : (w.system (fun n c reply n' => n.exec tid c reply n' ∧ c.Maplike n reply) start).Run
      (fun s => w.Careful keys s.jobs) events s) : (w.contents (start.map Node.mapNode)).Answers events := by
  have simulates (n : Node) (c : Cmd) (reply : c.Reply) (n' : Node) (opened : n.AllOpen)
      (now : n.exec tid c reply n' ∧ c.Maplike n reply) : n.mapNode.exec c reply n'.mapNode ∧ n'.AllOpen :=
    Node.exec_mapNode opened now.1 now.2
  exact (stands_for_after distinct idle quiet (run_simulates simulates valid run).1).1

end Stable

def backupHost : Host := ⟨[66], 0⟩

/-- A primary owner with one backup. -/
def pair (async : Bool) : Stable where
  config host := ⟨host, 1, 1, async, false, Int.one_nonneg⟩
  sum64 _ := 7
  routing p := if p.backup then [backupHost] else [primaryHost]
  memCount := 2
  members := Int.ofNat_succ_pos 1
  maxValueSize := 1048576
  birthdate _ := 0
  running p h listed := by
    have either : h = backupHost ∨ h = primaryHost := by
      revert listed
      cases p.backup <;> simp +contextual
    rcases either with rfl | rfl <;> rfl
  partitionCount := 1
  own _ := rfl
  partitions _ := rfl
  owned _ := nofun
  distinct p := by cases p.backup <;> exact List.nodup_singleton _

/-- Nothing has been stored yet. -/
def emptyServers : Servers MapNode := ⟨fun _ => emptyNode.mapNode, []⟩

theorem emptyServers_idle : emptyServers.Idle Held.none := fun _ => {
  valid := nofun
  apart := nofun
  parts := fun _ => rfl
  locked := nofun
  fresh := ⟨0, fun _ _ => rfl⟩
  eternal := nofun }

/-- The only key in use. -/
def onlyKey : Bytes → Set Bytes := fun _ => {[107]}

theorem onlyKey_distinct (w : Stable) (name : Bytes) : Set.InjOn (getHKey w.sum64 name) (onlyKey name) :=
  Set.injOn_singleton _ _

/-- The operations on it can be sent. -/
theorem onlyKey_fits (async : Bool) : (MapOp.put [100] [107] [1]).Fits (pair async).maxValueSize ∧
    (MapOp.get [100] [107]).Fits (pair async).maxValueSize ∧
      (MapOp.delete [100] [107]).Fits (pair async).maxValueSize := by
  have short : ([100] : Bytes).length < 65536 ∧ ([107] : Bytes).length < 65536 := by decide
  have sizes : (1 : Int) ≤ (pair async).maxValueSize := (by decide : (1 : Int) ≤ 1048576)
  have body : (requestMessage OpCode.exPut none [100] [107] [1]).body.length < 2 ^ 32 := by decide
  have room := le_trans (by decide : (0 : Int) ≤ 1) sizes
  exact ⟨⟨_, rfl, ⟨rfl, short.1, short.2⟩, sizes, body, .inr rfl⟩, Request.fits_of_short rfl short.1 short.2 room,
    Request.fits_of_short rfl short.1 short.2 room⟩

end Olric
