import Olric.Cluster.BackupTTL

namespace Olric

open Program

/-- The answer of a member that has the entry, or none, to a look-up. -/
def readAnswer (now : Int64) : Option VData → Response
  | some entry => if isKeyExpired now entry.ttl then .keyNotFound else .ok entry.value
  | none => .keyNotFound

/-- The first answer that is not a miss. -/
def firstAnswer (reply : Host → Response) : List Host → Response
  | [] => .keyNotFound
  | host :: hosts => if reply host = .keyNotFound then firstAnswer reply hosts else reply host

section

variable {w : Setting} {tid : Tid} {s s' : Node} {cfg : Config} {p : Place} {name key value : Bytes} {hkey : UInt64}
  {r : Ref} {answer : Response}

theorem answerEntry_runs_iff {entry : VData} :
    (Config.answerEntry entry).Runs (w.acts tid) s answer s' ↔ s' = s ∧ answer = readAnswer w.now (some entry) := by
  constructor
  · rintro ⟨now, mid, ⟨rfl, _, rfl, _⟩, rfl, rfl⟩
    exact ⟨rfl, rfl⟩
  · rintro ⟨rfl, rfl⟩
    exact ⟨w.now, s', ⟨rfl, trivial, rfl, trivial⟩, rfl, rfl⟩

/-- What a look-up in the storage of a dmap finds. -/
theorem get_acts_iff {found : Except StorageError VData} (sound : s.Sound) (has : s.Has p name r) :
    w.acts tid s (.get r hkey) found s' ↔ s' = s ∧ found = Storage.answer (s.view p name hkey) := by
  obtain ⟨dm, object, valid⟩ := sound.valid has
  have get := Storage.get_eq valid.nonempty hkey
  rw [Node.view_of_has has object]
  constructor
  · rintro ⟨⟨_, object', got, rfl⟩, _⟩
    cases object.symm.trans object'
    rw [get] at got
    exact ⟨rfl, (Except.ok.inj got).symm⟩
  · rintro ⟨rfl, rfl⟩
    exact ⟨⟨dm, object, get, rfl⟩, trivial, trivial, trivial⟩

theorem answerGet_runs_iff (sound : s.Sound) (has : s.Has p name r) :
    (Config.answerGet r hkey).Runs (w.acts tid) s answer s' ↔
      s' = s ∧ answer = readAnswer w.now (s.view p name hkey) := by
  constructor
  · rintro ⟨found, mid, got, rest⟩
    obtain ⟨rfl, rfl⟩ := (get_acts_iff sound has).1 got
    cases seen : mid.view p name hkey with
    | none =>
      rw [seen] at rest
      exact ⟨rest.2, rest.1⟩
    | some entry =>
      rw [seen] at rest
      exact answerEntry_runs_iff.1 rest
  · rintro ⟨rfl, rfl⟩
    refine ⟨_, s', (get_acts_iff sound has).2 ⟨rfl, rfl⟩, ?_⟩
    cases s'.view p name hkey with
    | none => exact ⟨rfl, rfl⟩
    | some entry => exact answerEntry_runs_iff.2 ⟨rfl, rfl⟩

theorem getPrevOperation_runs_iff (sound : s.Sound) :
    (cfg.getPrevOperation hkey name).Runs (w.acts tid) s answer s' ↔
      s' = s ∧ answer = readAnswer w.now (s.view (cfg.place false hkey) name hkey) := by
  cases has : (s.partition (cfg.place false hkey)).m.lookup name with
  | none =>
    rw [Node.view_of_absent has]
    constructor
    · rintro ⟨found, mid, ⟨⟨rfl, rfl⟩, _⟩, rest⟩
      rw [has] at rest
      exact ⟨rest.2, rest.1⟩
    · rintro ⟨rfl, rfl⟩
      exact ⟨none, s', ⟨⟨has.symm, rfl⟩, trivial, trivial, trivial⟩, rfl, rfl⟩
  | some r =>
    constructor
    · rintro ⟨found, mid, ⟨⟨rfl, rfl⟩, _⟩, rest⟩
      rw [has] at rest
      exact (answerGet_runs_iff sound has).1 rest
    · intro result
      exact ⟨some r, s, ⟨⟨has.symm, rfl⟩, trivial, trivial, trivial⟩, (answerGet_runs_iff sound has).2 result⟩

theorem getBackupOperation_runs (sound : s.Sound)
    (run : (cfg.getBackupOperation hkey name).Runs (w.acts tid) s answer s') :
    s'.Sound ∧ s'.view = s.view ∧ answer = readAnswer w.now (s.view (cfg.place true hkey) name hkey) := by
  obtain ⟨dm, s₁, found, run⟩ := runs_bind.1 run
  obtain ⟨keeps, same, has⟩ := getDMap_keeps sound found
  cases dm with
  | none => exact absurd rfl (getDMap_faultless found)
  | some r =>
    obtain ⟨rfl, rfl⟩ := (answerGet_runs_iff keeps.sound (has r rfl)).1 run
    exact ⟨keeps.sound, same, by rw [same]⟩

theorem getBackupOperation_returns (w : Setting) (tid : Tid) (cfg : Config) (hkey : UInt64) (name : Bytes)
    (ready : s.Ready) :
    ∃ s', (cfg.getBackupOperation hkey name).Runs (w.acts tid) s
      (readAnswer w.now (s.view (cfg.place true hkey) name hkey)) s' ∧ s'.Ready := by
  obtain ⟨r, s₁, found, ready₁⟩ := getDMap_returns w tid cfg (cfg.place true hkey) name ready
  obtain ⟨keeps, same, has⟩ := getDMap_keeps ready.sound found
  exact ⟨s₁, runs_bind.2 ⟨some r, s₁, found, (answerGet_runs_iff keeps.sound (has r rfl)).2 ⟨rfl, by rw [same]⟩⟩,
    ready₁⟩

end

namespace Setting

variable {w : Setting} {tid : Tid} {depth : Nat} {host : Host} {nodes nodes' : Nodes} {name key value : Bytes}
  {hkey : UInt64} {answer : Response} {req : Request} {reply : Host → Response}

/-- Hosts that are asked in turn, when what each of them answers does not depend on the others. -/
theorem askInTurn_runs (reply : Host → Response) (Inv : Nodes → Prop) (hosts : List Host)
    (each : ∀ dst ∈ hosts, ∀ nodes answer nodes', Inv nodes →
      w.answer (w.serve tid depth) req dst nodes answer nodes' → Inv nodes' ∧ answer = reply dst) (start : Inv nodes)
    (run : (Config.askInTurn req hosts).Runs (w.serve tid (depth + 1) host) nodes answer nodes') :
    Inv nodes' ∧ answer = firstAnswer reply hosts := by
  induction hosts generalizing nodes with
  | nil =>
    obtain ⟨rfl, rfl⟩ := run
    exact ⟨start, rfl⟩
  | cons dst hosts ih =>
    obtain ⟨given, mid, asked, rest⟩ := run
    obtain ⟨now, rfl⟩ := each dst List.mem_cons_self nodes given mid start asked
    unfold firstAnswer
    cases got : reply dst with
    | keyNotFound =>
      rw [got] at rest
      rw [if_pos rfl]
      exact ih (fun dst mem => each dst (List.mem_cons_of_mem _ mem)) now rest
    | ok | noSuchLock | failed =>
      rw [got] at rest
      obtain ⟨rfl, rfl⟩ := rest
      exact ⟨now, (if_neg nofun).symm⟩

theorem askInTurn_returns (tid : Tid) (depth : Nat) (host : Host) (reply : Host → Response) (Inv : Nodes → Prop)
    (hosts : List Host) (each : ∀ dst ∈ hosts, ∀ nodes, Inv nodes → ∃ nodes',
      w.answer (w.serve tid depth) req dst nodes (reply dst) nodes' ∧ Inv nodes') (start : Inv nodes) :
    ∃ nodes', (Config.askInTurn req hosts).Runs (w.serve tid (depth + 1) host) nodes
      (firstAnswer reply hosts) nodes' ∧
      Inv nodes' := by
  induction hosts generalizing nodes with
  | nil => exact ⟨nodes, ⟨rfl, rfl⟩, start⟩
  | cons dst hosts ih =>
    obtain ⟨mid, asked, now⟩ := each dst List.mem_cons_self nodes start
    unfold firstAnswer
    cases got : reply dst with
    | keyNotFound =>
      obtain ⟨nodes', rest, last⟩ := ih (fun dst mem => each dst (List.mem_cons_of_mem _ mem)) now
      rw [got] at asked
      exact ⟨nodes', ⟨.keyNotFound, mid, asked, by rw [if_pos rfl]; exact rest⟩, last⟩
    | ok | noSuchLock | failed =>
      rw [got] at asked
      exact ⟨mid, ⟨_, mid, asked, if_neg nofun, rfl⟩, now⟩

/-- The members show the entries that they showed before. -/
def Shows (nodes nodes' : Nodes) : Prop := (∀ h, (nodes' h).Sound) ∧ ∀ h, (nodes' h).view = (nodes h).view

theorem Shows.update {s' : Node} {before : Nodes} (shows_ : Shows before nodes) (sound : s'.Sound)
    (view : s'.view = (nodes host).view) : Shows before (Function.update nodes host s') := by
  constructor
  · intro h
    by_cases here : h = host
    · subst here
      rwa [Function.update_self]
    · rw [Function.update_of_ne here]
      exact shows_.1 h
  · intro h
    by_cases here : h = host
    · subst here
      rw [Function.update_self, view, shows_.2]
    · rw [Function.update_of_ne here]
      exact shows_.2 h

/-- What a previous owner and what a backup owner answers. -/
def prevAnswer (w : Setting) (nodes : Nodes) (name : Bytes) (hkey : UInt64) (dst : Host) : Response :=
  readAnswer w.now ((nodes dst).view ((w.config dst).place false hkey) name hkey)

def backupAnswer (w : Setting) (nodes : Nodes) (name : Bytes) (hkey : UInt64) (dst : Host) : Response :=
  readAnswer w.now (w.backupEntry nodes dst name hkey)

theorem answer_getPrev {before : Nodes} {dst : Host} (fits : (Request.getPrev name key).Fits w.maxValueSize)
    (shows_ : Shows before nodes) :
    w.answer (w.serve tid depth) (.getPrev name key) dst nodes answer nodes' ↔
      nodes' = nodes ∧ answer = w.prevAnswer before name (getHKey w.sum64 name key) dst := by
  rw [answer_of_fits fits]
  change ((w.config dst).getPrevOperation _ name).Runs _ _ _ _ ↔ _
  rw [runs_local getPrevOperation_local, prevAnswer, ← shows_.2 dst]
  constructor
  · rintro ⟨s', run, rfl⟩
    obtain ⟨rfl, rfl⟩ := (getPrevOperation_runs_iff (shows_.1 dst)).1 run
    exact ⟨Function.update_eq_self _ _, rfl⟩
  · rintro ⟨rfl, rfl⟩
    exact ⟨_, (getPrevOperation_runs_iff (shows_.1 dst)).2 ⟨rfl, rfl⟩, (Function.update_eq_self _ _).symm⟩

theorem answer_getBackup {before : Nodes} {dst : Host} (fits : (Request.getBackup name key).Fits w.maxValueSize)
    (shows_ : Shows before nodes)
    (run : w.answer (w.serve tid depth) (.getBackup name key) dst nodes answer nodes') :
    Shows before nodes' ∧ answer = w.backupAnswer before name (getHKey w.sum64 name key) dst := by
  rw [answer_of_fits fits] at run
  change ((w.config dst).getBackupOperation _ name).Runs _ _ _ _ at run
  rw [runs_local getBackupOperation_local] at run
  obtain ⟨s', run, rfl⟩ := run
  obtain ⟨sound, view, rfl⟩ := getBackupOperation_runs (shows_.1 dst) run
  refine ⟨shows_.update sound view, ?_⟩
  rw [backupAnswer, backupEntry, ← shows_.2 dst]

theorem answer_getBackup_returns {before : Nodes} {dst : Host}
    (fits : (Request.getBackup name key).Fits w.maxValueSize) (ready : ∀ h, (nodes h).Ready)
    (shows_ : Shows before nodes) :
    ∃ nodes', w.answer (w.serve tid depth) (.getBackup name key) dst nodes
      (w.backupAnswer before name (getHKey w.sum64 name key) dst) nodes' ∧ (∀ h, (nodes' h).Ready) ∧
      Shows before nodes' := by
  obtain ⟨s', run, there⟩ := getBackupOperation_returns w tid (w.config dst) (getHKey w.sum64 name key) name
    (ready dst)
  have asked : w.answer (w.serve tid depth) (.getBackup name key) dst nodes
      (w.backupAnswer before name (getHKey w.sum64 name key) dst) (Function.update nodes dst s') := by
    refine (answer_of_fits fits).2 ((runs_local getBackupOperation_local).2 ⟨s', ?_, rfl⟩)
    rw [backupAnswer, backupEntry, ← shows_.2 dst]
    exact run
  refine ⟨_, asked, fun h => ?_, (answer_getBackup fits shows_ asked).1⟩
  by_cases here : h = dst
  · subst here
    rwa [Function.update_self]
  · rw [Function.update_of_ne here]
    exact ready h

theorem firstAnswer_missing {hosts : List Host} (missing : ∀ dst ∈ hosts, reply dst = .keyNotFound) :
    firstAnswer reply hosts = .keyNotFound := by
  induction hosts with
  | nil => rfl
  | cons dst hosts ih =>
    rw [firstAnswer, if_pos (missing dst List.mem_cons_self)]
    exact ih fun dst mem => missing dst (List.mem_cons_of_mem _ mem)

/-- No owner of the partition has the key. -/
def Missing (w : Setting) (host : Host) (nodes : Nodes) (name : Bytes) (hkey : UInt64) : Prop :=
  (nodes host).view ((w.config host).place false hkey) name hkey = none ∧
    ∀ owner ∈ (w.routing ((w.config host).place false hkey)).dropLast,
      (nodes owner).view ((w.config owner).place false hkey) name hkey = none

theorem Missing.prevAnswer (missing : w.Missing host nodes name hkey) : ∀ owner ∈
    (w.routing ((w.config host).place false hkey)).dropLast.reverse,
      w.prevAnswer nodes name hkey owner = .keyNotFound := by
  intro owner mem
  rw [Setting.prevAnswer, missing.2 owner (List.mem_reverse.1 mem)]
  rfl

theorem owners_serves {p : Place} {owners : List Host} :
    w.serve tid depth host nodes (.owners p) owners nodes' ↔
      (p.backup = false → owners ≠ []) ∧ owners = w.routing p ∧ nodes' = nodes := by
  rw [serve_local (c := .owners p) ⟨rfl, nofun⟩]
  constructor
  · rintro ⟨s', ⟨⟨nonempty, rfl⟩, rfl, _⟩, rfl⟩
    exact ⟨nonempty, rfl, Function.update_eq_self _ _⟩
  · rintro ⟨nonempty, rfl, rfl⟩
    exact ⟨_, ⟨⟨nonempty, rfl⟩, rfl, trivial, trivial⟩, (Function.update_eq_self _ _).symm⟩

/-- A key that only backups have is read from the first of them that shows it. -/
theorem getKeyVal_runs (sound : ∀ h, (nodes h).Sound) (missing : w.Missing host nodes name (getHKey w.sum64 name key))
    (fitsPrev : (Request.getPrev name key).Fits w.maxValueSize)
    (fitsBackup : (Request.getBackup name key).Fits w.maxValueSize)
    (run : ((w.config host).getKeyVal (getHKey w.sum64 name key) name key).Runs (w.serve tid (depth + 1) host) nodes
      answer nodes') :
    answer = firstAnswer (w.backupAnswer nodes name (getHKey w.sum64 name key))
      (w.routing ((w.config host).place true (getHKey w.sum64 name key))) := by
  obtain ⟨dm, nodes₁, found, run⟩ := runs_bind.1 run
  obtain ⟨s₁, foundHere, rfl⟩ := (runs_local getDMap_local).1 found
  obtain ⟨keeps, view, has⟩ := getDMap_keeps (sound host) foundHere
  have shows₁ : Shows nodes (Function.update nodes host s₁) := Shows.update ⟨sound, fun _ => rfl⟩ keeps.sound view
  cases dm with
  | none => exact absurd rfl (getDMap_faultless foundHere)
  | some r =>
    obtain ⟨got, nodes₂, get, run⟩ := run
    obtain ⟨s₂, acts, rfl⟩ := (serve_local (c := .get ..) ⟨rfl, nofun⟩).1 get
    rw [Function.update_self] at acts
    obtain ⟨rfl, rfl⟩ := (get_acts_iff keeps.sound (has r rfl)).1 acts
    rw [Function.update_idem, view, missing.1] at run
    -- The previous owners have not got the key either, so that the backups are asked.
    obtain ⟨owners, nodes₃, routed, run⟩ := run
    obtain ⟨_, rfl, rfl⟩ := owners_serves.1 routed
    dsimp only [ret_bind, bind_eq] at run
    obtain ⟨prev, nodes₄, asked, run⟩ := runs_bind.1 run
    obtain ⟨shows₄, rfl⟩ := askInTurn_runs (w.prevAnswer nodes name (getHKey w.sum64 name key)) (Shows nodes) _
      (fun dst _ _ _ _ shows_ answered => by
        obtain ⟨rfl, rfl⟩ := (answer_getPrev fitsPrev shows_).1 answered
        exact ⟨shows_, rfl⟩) shows₁ asked
    rw [firstAnswer_missing missing.prevAnswer] at run
    obtain ⟨backups, nodes₅, routed, run⟩ := run
    obtain ⟨_, rfl, rfl⟩ := owners_serves.1 routed
    exact (askInTurn_runs _ (Shows nodes) _ (fun dst _ _ _ _ shows_ answered =>
      answer_getBackup fitsBackup shows_ answered)
      shows₄ run).2

theorem getKeyVal_returns (tid : Tid) (depth : Nat) (ready : ∀ h, (nodes h).Ready)
    (nonempty : w.routing ((w.config host).place false hkey) ≠ []) (same : hkey = getHKey w.sum64 name key)
    (missing : w.Missing host nodes name hkey) (fitsPrev : (Request.getPrev name key).Fits w.maxValueSize)
    (fitsBackup : (Request.getBackup name key).Fits w.maxValueSize) :
    ∃ nodes', ((w.config host).getKeyVal hkey name key).Runs (w.serve tid (depth + 1) host) nodes
      (firstAnswer (w.backupAnswer nodes name hkey) (w.routing ((w.config host).place true hkey))) nodes' := by
  subst same
  obtain ⟨r, s₁, found, ready₁⟩ := getDMap_returns w tid (w.config host)
    ((w.config host).place false (getHKey w.sum64 name key)) name (ready host)
  obtain ⟨keeps, view, has⟩ := getDMap_keeps (ready host).sound found
  have shows₁ : Shows nodes (Function.update nodes host s₁) :=
    Shows.update ⟨fun h => (ready h).sound, fun _ => rfl⟩ keeps.sound view
  have ready₁' (h : Host) : (Function.update nodes host s₁ h).Ready := by
    by_cases here : h = host
    · subst here
      rwa [Function.update_self]
    · rw [Function.update_of_ne here]
      exact ready h
  obtain ⟨nodes₂, asked, ready₂, shows₂⟩ := askInTurn_returns tid depth host
    (w.prevAnswer nodes name (getHKey w.sum64 name key))
    (fun nodes' => (∀ h, (nodes' h).Ready) ∧ Shows nodes nodes')
    (w.routing ((w.config host).place false (getHKey w.sum64 name key))).dropLast.reverse
    (fun dst _ nodes' inv => ⟨nodes', (answer_getPrev fitsPrev inv.2).2 ⟨rfl, rfl⟩, inv⟩) ⟨ready₁', shows₁⟩
  obtain ⟨nodes₃, answered, _⟩ := askInTurn_returns tid depth host
    (w.backupAnswer nodes name (getHKey w.sum64 name key))
    (fun nodes' => (∀ h, (nodes' h).Ready) ∧ Shows nodes nodes')
    (w.routing ((w.config host).place true (getHKey w.sum64 name key)))
    (fun dst _ nodes' inv => answer_getBackup_returns fitsBackup inv.1 inv.2) ⟨ready₂, shows₂⟩
  rw [firstAnswer_missing missing.prevAnswer] at asked
  refine ⟨nodes₃, runs_bind.2 ⟨some r, _, (runs_local getDMap_local).2 ⟨s₁, found, rfl⟩, ?_⟩⟩
  refine ⟨.error .keyNotFound, _, (serve_local (c := .get ..) ⟨rfl, nofun⟩).2
    ⟨s₁, ?_, (Function.update_idem ..).symm⟩, ?_⟩
  · rw [Function.update_self, get_acts_iff keeps.sound (has r rfl), view, missing.1]
    exact ⟨rfl, rfl⟩
  · refine ⟨_, _, owners_serves.2 ⟨fun _ => nonempty, rfl, rfl⟩, ?_⟩
    dsimp only [ret_bind, bind_eq]
    refine runs_bind.2 ⟨.keyNotFound, nodes₂, asked, ?_⟩
    exact ⟨_, _, owners_serves.2 ⟨nofun, rfl, rfl⟩, answered⟩

/-- The value that a backup owner shows for the key. -/
def visible (w : Setting) (nodes : Nodes) (name : Bytes) (hkey : UInt64) (dst : Host) : Option Bytes :=
  (w.backupEntry nodes dst name hkey).bind fun entry =>
    if isKeyExpired w.now entry.ttl then none else some entry.value

theorem firstAnswer_backups (hosts : List Host) : firstAnswer (w.backupAnswer nodes name hkey) hosts =
    (hosts.findSome? (w.visible nodes name hkey)).elim .keyNotFound .ok := by
  induction hosts with
  | nil => rfl
  | cons dst hosts ih =>
    rw [firstAnswer, ih, List.findSome?_cons, backupAnswer, visible]
    cases w.backupEntry nodes dst name hkey with
    | none => rfl
    | some entry =>
      dsimp only [readAnswer, Option.bind_some]
      by_cases expired : isKeyExpired w.now entry.ttl
      · simp [expired]
      · simp [expired]

/-- The backup owners that puts of the member do not go to any more. -/
def staleBackups (w : Setting) (host : Host) (hkey : UInt64) : List Host :=
  let backupCount := (w.config host).calcMaxBackupCount w.memCount
  let owners := w.routing ((w.config host).place true hkey)
  if (owners.length : Int) > backupCount then owners.take (owners.length - backupCount).toNat else []

theorem stale_append_current :
    w.staleBackups host hkey ++ w.currentBackups host hkey = w.routing ((w.config host).place true hkey) := by
  unfold staleBackups currentBackups
  dsimp only
  split
  · exact List.take_append_drop _ _
  · rfl

end Setting

/-- No owner has the key, and its last put was replicated to the current backup owners. A read
returns the value of that put exactly if no other value is shown by the first stale backup owner
that shows one. -/
theorem read_from_backups_iff {w : Setting} {tid : Tid} {depth : Nat} {host : Host} {nodes : Nodes}
    {name key value : Bytes} (ready : ∀ h, (nodes h).Ready)
    (nonempty : w.routing ((w.config host).place false (getHKey w.sum64 name key)) ≠ [])
    (missing : w.Missing host nodes name (getHKey w.sum64 name key))
    (current : w.currentBackups host (getHKey w.sum64 name key) ≠ [])
    (replicated : ∀ dst ∈ w.currentBackups host (getHKey w.sum64 name key),
      w.visible nodes name (getHKey w.sum64 name key) dst = some value)
    (fitsPrev : (Request.getPrev name key).Fits w.maxValueSize)
    (fitsBackup : (Request.getBackup name key).Fits w.maxValueSize) :
    (∃ answer nodes', ((w.config host).getKeyVal (getHKey w.sum64 name key) name key).Runs
      (w.serve tid (depth + 1) host)
      nodes answer nodes') ∧
    ∀ answer nodes', ((w.config host).getKeyVal (getHKey w.sum64 name key) name key).Runs
      (w.serve tid (depth + 1) host)
      nodes answer nodes' →
      (answer = .ok value ↔ ∀ shown, (w.staleBackups host (getHKey w.sum64 name key)).findSome?
        (w.visible nodes name (getHKey w.sum64 name key)) = some shown → shown = value) := by
  constructor
  · obtain ⟨nodes', run⟩ := Setting.getKeyVal_returns tid depth ready nonempty rfl missing fitsPrev
      fitsBackup
    exact ⟨_, nodes', run⟩
  · intro answer nodes' run
    obtain ⟨dst, dsts, listed⟩ := List.exists_cons_of_ne_nil current
    rw [Setting.getKeyVal_runs (fun h => (ready h).sound) missing fitsPrev fitsBackup run,
      Setting.firstAnswer_backups, ← Setting.stale_append_current, List.findSome?_append, listed, List.findSome?_cons,
      replicated dst (by rw [listed]; exact List.mem_cons_self)]
    cases (w.staleBackups host (getHKey w.sum64 name key)).findSome?
      (w.visible nodes name (getHKey w.sum64 name key)) with
    | none => simp
    | some shown => simp

def newBackupHost : Host := ⟨[66], 0⟩

/-- A member with one backup, at the end of the list. -/
def withBackups (backups : List Host) : Setting :=
  { backedUp 0 with routing := fun p => if p.backup then backups else [primaryHost] }

theorem small_fits (value : UInt8) : (Config.putBackupRequest [100] [107] [value] 0).Fits (2 ^ 20) :=
  ⟨requestMessage OpCode.putBackup none [100] [107] [value], rfl,
    ⟨rfl, by simp [requestMessage], by simp [requestMessage]⟩,
    by simp [requestMessage], by simp [Message.body, requestMessage], .inr rfl⟩

/-- A put of one byte on idle members, which leaves the byte on the last backup owner and all other
backups as they were. -/
theorem withBackups_put (backups : List Host) (last : Host) {nodes : Nodes} (value : UInt8)
    (current : (withBackups backups).currentBackups primaryHost 7 = [last]) (away : primaryHost ≠ last)
    (ready : ∀ h, (nodes h).Ready) :
    ∃ nodes', (((withBackups backups).config primaryHost).putKeyVal 7 [100] [107] [value] 0).Runs
        ((withBackups backups).serve 0 1 primaryHost) nodes (.ok []) nodes' ∧ (∀ h, (nodes' h).Ready) ∧
      (nodes' last).view ⟨true, 0⟩ [100] 7 = some ⟨[107], 0, [value]⟩ ∧
      ∀ h, h ≠ last → (nodes' h).view ⟨true, 0⟩ = (nodes h).view ⟨true, 0⟩ := by
  obtain ⟨nodes', run, ready'⟩ := Setting.putKeyVal_returns (withBackups backups) 0 0 primaryHost nodes 7
    ready (fun _ => rfl) rfl rfl
    (by rw [current]; simpa using away) (by decide) (by rw [VData.encode_length]; simp) (small_fits value)
  obtain ⟨_, _, stored, others⟩ := Setting.putKeyVal_runs (w := withBackups backups) rfl (fun h => (ready h).sound)
    (by simp) rfl (small_fits value) (deletePrev_fits (small_fits value)) run
  have hashed : getHKey (withBackups backups).sum64 [100] [107] = 7 := rfl
  have place : ((withBackups backups).config last).place true 7 = ⟨true, 0⟩ := by
    have zero : (7 : UInt64) % 1 = 0 := by decide
    simp [Config.place, withBackups, backedUp, zero]
  rw [hashed, current] at stored others
  have there := stored last List.mem_cons_self
  rw [Setting.backupEntry, place] at there
  exact ⟨nodes', run, ready', there, fun h other => funext fun name => others h (by simpa using other) _ name rfl⟩

/-- The primary owner comes back with an empty memory. -/
def restarted (nodes : Nodes) : Nodes := Function.update nodes primaryHost emptyNode

theorem restarted_ready {nodes : Nodes} (ready : ∀ h, (nodes h).Ready) (h : Host) : (restarted nodes h).Ready := by
  unfold restarted
  by_cases here : h = primaryHost
  · subst here
    rw [Function.update_self]
    exact emptyNode_ready
  · rw [Function.update_of_ne here]
    exact ready h

theorem restarted_missing {nodes : Nodes} {backups : List Host} :
    (withBackups backups).Missing primaryHost (restarted nodes) [100] 7 := by
  constructor
  · rw [restarted, Function.update_self]
    rfl
  · exact fun owner mem => absurd mem List.not_mem_nil

theorem getPrev_small_fits : (Request.getPrev [100] [107]).Fits (2 ^ 20) :=
  Request.fits_of_short rfl (by decide) (by decide) (by decide)

theorem getBackup_small_fits : (Request.getBackup [100] [107]).Fits (2 ^ 20) :=
  Request.fits_of_short rfl (by decide) (by decide) (by decide)

theorem read_from_backups_single : ∃ nodes nodes',
    (((withBackups [previousHost]).config primaryHost).putKeyVal 7 [100] [107] [1] 0).Runs
      ((withBackups [previousHost]).serve 0 1 primaryHost) (fun _ => emptyNode) (.ok []) nodes ∧
    (((withBackups [previousHost]).config primaryHost).getKeyVal 7 [100] [107]).Runs
      ((withBackups [previousHost]).serve 0 1 primaryHost) (restarted nodes) (.ok [1]) nodes' := by
  obtain ⟨nodes, put, ready, stored, _⟩ := withBackups_put [previousHost] previousHost 1 rfl
    (by decide) fun _ => emptyNode_ready
  have shown : (withBackups [previousHost]).visible (restarted nodes) [100] 7 previousHost = some [1] := by
    rw [Setting.visible, Setting.backupEntry, restarted, Function.update_of_ne (by decide)]
    change ((nodes previousHost).view ⟨true, 0⟩ [100] 7).bind _ = _
    rw [stored]
    rfl
  obtain ⟨⟨answer, nodes', run⟩, result⟩ := @read_from_backups_iff (withBackups [previousHost]) 0 0
    primaryHost (restarted nodes) [100] [107] [1] (restarted_ready ready) (by decide) restarted_missing (by decide)
    (fun dst mem => by obtain rfl := List.mem_singleton.1 mem; exact shown) getPrev_small_fits getBackup_small_fits
  obtain rfl := (result answer nodes' run).2 fun shown found => absurd found nofun
  exact ⟨nodes, nodes', put, run⟩

/-- A key is put, a second backup owner takes over from the first, the key is put again, and the
primary owner loses its memory: the read returns the value of the first put. -/
theorem stale_backup_read : ∃ nodes₁ nodes₂ nodes₃,
    (((withBackups [previousHost]).config primaryHost).putKeyVal 7 [100] [107] [1] 0).Runs
      ((withBackups [previousHost]).serve 0 1 primaryHost) (fun _ => emptyNode) (.ok []) nodes₁ ∧
    (((withBackups [previousHost, newBackupHost]).config primaryHost).putKeyVal 7 [100] [107] [2] 0).Runs
      ((withBackups [previousHost, newBackupHost]).serve 0 1 primaryHost) nodes₁ (.ok []) nodes₂ ∧
    (withBackups [previousHost, newBackupHost]).currentBackups primaryHost 7 = [newBackupHost] ∧
    (nodes₂ newBackupHost).Stores ⟨true, 0⟩ [100] 7 ⟨[107], 0, [2]⟩ ∧
    (((withBackups [previousHost, newBackupHost]).config primaryHost).getKeyVal 7 [100] [107]).Runs
      ((withBackups [previousHost, newBackupHost]).serve 0 1 primaryHost) (restarted nodes₂) (.ok [1]) nodes₃ := by
  obtain ⟨nodes₁, put₁, ready₁, stored₁, _⟩ := withBackups_put [previousHost] previousHost 1 rfl
    (by decide) fun _ => emptyNode_ready
  obtain ⟨nodes₂, put₂, ready₂, stored₂, others₂⟩ := withBackups_put [previousHost, newBackupHost]
    newBackupHost 2 rfl (by decide) ready₁
  obtain ⟨nodes₃, get⟩ := @Setting.getKeyVal_returns (withBackups [previousHost, newBackupHost]) primaryHost
    (restarted nodes₂) [100] [107] 7 0 0 (restarted_ready ready₂) (by decide) rfl restarted_missing getPrev_small_fits
    getBackup_small_fits
  have first : (withBackups [previousHost, newBackupHost]).backupAnswer (restarted nodes₂) [100] 7 previousHost =
      .ok [1] := by
    rw [Setting.backupAnswer, Setting.backupEntry, restarted, Function.update_of_ne (by decide)]
    change readAnswer 0 ((nodes₂ previousHost).view ⟨true, 0⟩ [100] 7) = _
    rw [others₂ previousHost (by decide), stored₁]
    rfl
  refine ⟨nodes₁, nodes₂, nodes₃, put₁, put₂, rfl, (ready₂ newBackupHost).sound.stores_iff.2 stored₂, ?_⟩
  have answer : firstAnswer ((withBackups [previousHost, newBackupHost]).backupAnswer (restarted nodes₂) [100] 7)
      [previousHost, newBackupHost] = .ok [1] := by
    rw [firstAnswer, first, if_neg nofun]
  rw [← answer]
  exact get

end Olric
