import Olric.Cluster.RequestSpec

namespace Olric

open Program

/-- What a member answers that has the entry, or none. Entries do not expire here. -/
def shown (entry : Option VData) : Response := entry.elim .keyNotFound fun v => .ok v.value

namespace Stable

variable {w : Stable} {depth : Nat} {host : Host} {s s₁ s₂ : Servers MapNode} {held : Held} {p : Place}
  {name key value : Bytes} {hkey : UInt64} {r : Ref} {entry : Option VData} {hosts : List Host} {req : Request}

/-- The name and the key fit the header of a message. -/
structure Carries (w : Stable) (name key : Bytes) : Prop where
  nameShort : name.length < 65536
  keyShort : key.length < 65536
  sizes : 0 ≤ w.maxValueSize

theorem Carries.arrives {op : UInt8} (carries : w.Carries name key)
    (message : req.message = some (requestMessage op none name key [])) (plain : req.decoded = req) :
    req.arrives w.maxValueSize = some req := by
  rw [(Request.fits_of_short message carries.nameShort carries.keyShort carries.sizes).arrives, plain]

theorem carries_of_fits (fits : (Request.putBackup name key value none).Fits w.maxValueSize) :
    w.Carries name key := by
  obtain ⟨_, ⟨⟩, request, small, _⟩ := fits
  exact ⟨request.dmapShort, request.keyShort, (Int.natCast_nonneg _).trans small⟩

section Writing

/-- Every one of the hosts writes the entry when it is asked to. -/
def WritesAt (w : Stable) (depth : Nat) (held : Held) (hosts : List Host) (req : Request) (p : Place) (name : Bytes)
    (hkey : UInt64) (entry : Option VData) : Prop :=
  ∀ dst ∈ hosts, ∀ s, s.Idle held → w.Answers MapNode.exec depth dst req s (Wrote s held dst p name hkey entry)

/-- A request to delete a key from one kind of place. -/
theorem deleteLocal_writes {req : Request} (depth : Nat) (held : Held) (backup : Bool)
    (listed : hosts ⊆ w.routing (w.place backup hkey)) (arrives : req.arrives w.maxValueSize = some req)
    (handles : ∀ dst, (w.config dst).handle w.sum64 req =
      (w.config dst).deleteLocal ((w.config dst).place backup hkey) hkey name)
    (free : ∀ dst ∈ hosts, (w.place backup hkey, name) ∉ held dst) :
    w.WritesAt depth held hosts req (w.place backup hkey) name hkey none := by
  intro dst mem s idle
  refine answers_of_arrives (listed mem) arrives ?_
  rw [handles, w.place_eq]
  exact deleteLocal_serves idle (free dst mem)

theorem deletePrev_writes (depth : Nat) (held : Held) (listed : hosts ⊆ w.owners hkey) (carries : w.Carries name key)
    (same : hkey = getHKey w.sum64 name key) (free : ∀ dst ∈ hosts, (w.place false hkey, name) ∉ held dst) :
    w.WritesAt depth held hosts (.deletePrev name key) (w.place false hkey) name hkey none := by
  subst same
  exact deleteLocal_writes depth held false listed (carries.arrives rfl rfl) (fun _ => rfl) free

theorem deleteBackup_writes (depth : Nat) (held : Held) (listed : hosts ⊆ w.backups hkey)
    (carries : w.Carries name key) (same : hkey = getHKey w.sum64 name key)
    (free : ∀ dst ∈ hosts, (w.place true hkey, name) ∉ held dst) :
    w.WritesAt depth held hosts (.deleteBackup name key) (w.place true hkey) name hkey none := by
  subst same
  exact deleteLocal_writes depth held true listed (carries.arrives rfl rfl) (fun _ => rfl) free

theorem putBackup_writes (depth : Nat) (held : Held) (listed : hosts ⊆ w.backups hkey)
    (fits : (Request.putBackup name key value none).Fits w.maxValueSize) (same : hkey = getHKey w.sum64 name key) :
    w.WritesAt depth held hosts (Config.putBackupRequest name key value 0) (w.place true hkey) name hkey
      (some ⟨key, 0, value⟩) := by
  intro dst mem s idle
  subst same
  exact answers_of_arrives (listed mem) fits.arrives (putBackupOperation_serves dst idle)

/-- Some of the hosts have written the entry. -/
structure Written (s : Servers MapNode) (held : Held) (hosts : List Host) (p : Place) (name : Bytes) (hkey : UInt64)
    (entry : Option VData) (done : List Host) (s' : Servers MapNode) : Prop where
  becomes : s.Becomes held (Change.writes hosts p name hkey entry) [] s'
  done : ∀ h ∈ done, s'.view h p name hkey = entry

theorem Written.start (idle : s.Idle held) : Written s held hosts p name hkey entry [] s := ⟨idle.refl, nofun⟩

theorem Written.next {done : List Host} {dst : Host} {reply : Response}
    (written : Written s held hosts p name hkey entry done s₁) (mem : dst ∈ hosts)
    (wrote : Wrote s₁ held dst p name hkey entry reply s₂) :
    Written s held hosts p name hkey entry (done ++ [dst]) s₂ := by
  obtain ⟨_, becomes, now⟩ := wrote
  refine ⟨written.becomes.trans (becomes.mono ?_), fun h listed => ?_⟩
  · rintro h p' name' hkey' e ⟨⟨at_, rest⟩, same⟩
    exact ⟨⟨List.mem_singleton.1 at_ ▸ mem, rest⟩, same⟩
  · rcases List.mem_append.1 listed with before | this
    · rcases becomes.shows h p name hkey with same | ⟨_, same⟩
      · rw [same, written.done h before]
      · exact same
    · rw [List.mem_singleton.1 this, now]

theorem requestEach_serves {rest done : List Host} (each : w.WritesAt depth held hosts req p name hkey entry)
    (sub : ∀ h ∈ rest, h ∈ hosts) (written : Written s held hosts p name hkey entry done s₁) :
    (Config.requestEach req rest).Total (w.serve MapNode.exec (depth + 1) host) s₁ fun ok s' =>
      ok = true ∧ Written s held hosts p name hkey entry (done ++ rest) s' := by
  induction rest generalizing done s₁ with
  | nil =>
    rw [List.append_nil]
    exact ⟨rfl, written⟩
  | cons dst rest ih =>
    have listed := sub dst List.mem_cons_self
    refine total_request (each dst listed s₁ written.becomes.idle) ?_
    rintro reply s₂ wrote
    have now := written.next listed wrote
    obtain rfl := wrote.1
    have last := ih (fun h mem => sub h (List.mem_cons_of_mem _ mem)) now
    rwa [List.append_assoc] at last

theorem requestAll_serves {α : Type} {next : List Response → Prog α} {Q : α → Servers MapNode → Prop}
    (each : w.WritesAt depth held hosts req p name hkey entry) (idle : s.Idle held)
    (rest : ∀ replies s', replies = hosts.map (fun _ => .ok []) → Written s held hosts p name hkey entry hosts s' →
      (next replies).Total (w.serve MapNode.exec (depth + 1) host) s' Q) :
    (Program.call (.requestAll hosts req) next).Total (w.serve MapNode.exec (depth + 1) host) s Q := by
  refine total_requestAll (Written s held hosts p name hkey entry) ?_ (.start idle) rest
  intro dst mem done s₁ written
  refine (each dst mem s₁ written.becomes.idle).mono fun reply s₂ wrote => ?_
  exact ⟨wrote.1, written.next mem wrote⟩

theorem owners_serves {α : Type} {next : List Host → Prog α} {Q : α → Servers MapNode → Prop}
    (rest : (next (w.owners hkey)).Total (w.serve MapNode.exec depth host) s Q) :
    (Program.call (.owners (w.place false hkey)) next).Total (w.serve MapNode.exec depth host) s Q := by
  refine total_here ⟨rfl, nofun⟩ ⟨w.owners hkey, _, rfl, fun _ => w.owned _, rfl⟩ ?_
  rintro _ n rfl ⟨_, rfl⟩
  rwa [s.set_nodes]

theorem backups_serves {α : Type} {next : List Host → Prog α} {Q : α → Servers MapNode → Prop}
    (rest : (next (w.backups hkey)).Total (w.serve MapNode.exec depth host) s Q) :
    (Program.call (.owners (w.place true hkey)) next).Total (w.serve MapNode.exec depth host) s Q := by
  refine total_here ⟨rfl, nofun⟩ ⟨w.backups hkey, _, rfl, nofun, rfl⟩ ?_
  rintro _ n rfl ⟨_, rfl⟩
  rwa [s.set_nodes]

/-- The backup owners that a put of the member goes to. -/
def currentBackups (w : Stable) (host : Host) (hkey : UInt64) : List Host :=
  let backupCount := (w.config host).calcMaxBackupCount w.memCount
  if ((w.backups hkey).length : Int) > backupCount
    then (w.backups hkey).drop ((w.backups hkey).length - backupCount).toNat
  else w.backups hkey

theorem currentBackups_subset : w.currentBackups host hkey ⊆ w.backups hkey := by
  unfold currentBackups
  dsimp only
  split
  · exact List.drop_subset _ _
  · exact List.Subset.refl _

theorem putKeyValBackup_serves (fits : (Request.putBackup name key value none).Fits w.maxValueSize)
    (same : hkey = getHKey w.sum64 name key) (idle : s.Idle held) :
    ((w.config host).putKeyValBackup hkey name key value 0).Total (w.serve MapNode.exec (depth + 1) host) s
      fun ok s' =>
      ok = true ∧ Written s held (w.currentBackups host hkey) (w.place true hkey) name hkey (some ⟨key, 0, value⟩)
        (w.currentBackups host hkey) s' := by
  have owners : ((w.config host).putBackupOwners hkey).Total (w.serve MapNode.exec (depth + 1) host) s
      fun owners s' =>
      owners = w.currentBackups host hkey ∧ s' = s := by
    unfold Config.putBackupOwners
    refine total_here ⟨rfl, nofun⟩ ⟨w.memCount, _, rfl, w.members, rfl⟩ ?_
    rintro _ n rfl ⟨_, rfl⟩
    rw [s.set_nodes]
    dsimp only [ret_bind, bind_eq]
    rw [w.place_eq]
    exact backups_serves ⟨rfl, rfl⟩
  refine owners.bind ?_
  rintro _ _ ⟨rfl, rfl⟩
  split
  · next empty =>
    rw [List.isEmpty_iff.1 empty]
    exact ⟨rfl, .start idle⟩
  · next nonempty =>
    refine requestAll_serves (putBackup_writes depth held currentBackups_subset fits same) idle ?_
    rintro _ s' rfl written
    refine ⟨?_, written⟩
    obtain ⟨dst, dsts, listed⟩ := List.exists_cons_of_ne_nil (mt List.isEmpty_iff.2 nonempty)
    rw [listed]
    rfl

theorem purgeOldVersions_serves (carries : w.Carries name key) (same : hkey = getHKey w.sum64 name key)
    (free : ∀ dst ∈ w.previous hkey, (w.place false hkey, name) ∉ held dst) (idle : s.Idle held) :
    ((w.config (w.primary hkey)).purgeOldVersions hkey name key).Total
      (w.serve MapNode.exec (depth + 1) (w.primary hkey)) s
      fun _ s' => s.Becomes held (Change.writes (w.previous hkey) (w.place false hkey) name hkey none) [] s' := by
  unfold Config.purgeOldVersions
  rw [w.place_eq]
  refine owners_serves ?_
  dsimp only [ret_bind, bind_eq]
  have each := deletePrev_writes depth held (List.dropLast_subset _) carries same free
  refine (Total.forEach (Written s held (w.previous hkey) (w.place false hkey) name hkey none) ?_
    (.start idle)).mono fun _ s' written => written.becomes
  intro dst mem done s₁ written
  have listed : dst ∈ w.previous hkey := List.mem_reverse.1 mem
  rw [if_neg (by rw [w.own]; rintro rfl; exact w.primary_not_previous hkey listed)]
  refine total_request (each dst listed s₁ written.becomes.idle) fun reply s₂ wrote => ?_
  exact written.next listed wrote

end Writing

section Reading

theorem answerEntry_serves {entry : VData} (eternal : entry.ttl = 0) :
    (Config.answerEntry entry).Total (w.serve MapNode.exec depth host) s fun answer s' => answer = .ok entry.value ∧
      s' = s := by
  refine total_here ⟨rfl, nofun⟩ ⟨0, _, trivial, rfl⟩ ?_
  rintro now n _ rfl
  rw [s.set_nodes]
  refine ⟨?_, rfl⟩
  simp [isKeyExpired, eternal]

/-- A look-up in the storage of a dmap, and what follows on a hit. -/
theorem get_serves {α : Type} {next : Except StorageError VData → Prog α} {Q : α → Servers MapNode → Prop}
    (idle : s.Idle held) (has : (s.nodes host).names p name = some r)
    (rest : (next (Storage.answer (s.view host p name hkey))).Total (w.serve MapNode.exec depth host) s Q) :
    (Program.call (.get r hkey) next).Total (w.serve MapNode.exec depth host) s Q := by
  obtain ⟨dm, found⟩ := (idle host).valid has
  refine total_here ⟨rfl, nofun⟩ ⟨_, _, trivial, dm, found, rfl, rfl⟩ ?_
  rintro _ n _ ⟨dm', found', rfl, rfl⟩
  rw [s.set_nodes, ← MapNode.view_of_has has found']
  exact rest

theorem eternal (idle : s.Idle held) {v : VData} (seen : s.view host p name hkey = some v) : v.ttl = 0 := by
  obtain ⟨r, _, seen⟩ := Option.bind_eq_some_iff.1 seen
  obtain ⟨dm, found, stored⟩ := Option.bind_eq_some_iff.1 seen
  exact (idle host).eternal found stored

theorem answerGet_serves (idle : s.Idle held) (has : (s.nodes host).names p name = some r) :
    (Config.answerGet r hkey).Total (w.serve MapNode.exec depth host) s fun answer s' =>
      answer = shown (s.view host p name hkey) ∧ s' = s := by
  refine get_serves idle has ?_
  cases seen : s.view host p name hkey with
  | none => exact ⟨rfl, rfl⟩
  | some v => exact answerEntry_serves (eternal idle seen)

theorem getPrevOperation_serves (dst : Host) (idle : s.Idle held) :
    ((w.config dst).getPrevOperation hkey name).Total (w.serve MapNode.exec depth dst) s fun answer s' =>
      answer = shown (s.view dst (w.place false hkey) name hkey) ∧ s.Becomes held Change.nothing [] s' := by
  unfold Config.getPrevOperation
  rw [w.place_eq]
  refine total_here ⟨rfl, nofun⟩ ⟨_, _, trivial, rfl, rfl⟩ ?_
  rintro _ n _ ⟨rfl, rfl⟩
  rw [s.set_nodes]
  dsimp only [ret_bind, bind_eq]
  cases has : (s.nodes dst).names (w.place false hkey) name with
  | none =>
    refine ⟨?_, idle.refl⟩
    unfold Servers.view
    rw [MapNode.view_of_absent has]
    rfl
  | some r =>
    refine (answerGet_serves idle has).mono ?_
    rintro answer s' ⟨rfl, rfl⟩
    exact ⟨rfl, idle.refl⟩

theorem getBackupOperation_serves (dst : Host) (idle : s.Idle held) :
    ((w.config dst).getBackupOperation hkey name).Total (w.serve MapNode.exec depth dst) s fun answer s' =>
      answer = shown (s.view dst (w.place true hkey) name hkey) ∧ s.Becomes held Change.nothing [] s' := by
  unfold Config.getBackupOperation
  rw [w.place_eq]
  refine (getDMap_serves dst idle).bind ?_
  rintro _ s₁ ⟨r, rfl, has, found⟩
  refine (answerGet_serves found.idle has).mono ?_
  rintro answer s' ⟨rfl, rfl⟩
  exact ⟨by rw [found.view_eq], found⟩

/-- Hosts that are asked in turn: the first that has the entry gives the answer. -/
theorem askInTurn_serves (p : Place) (name : Bytes) (hkey : UInt64) (hosts : List Host)
    (each : ∀ dst ∈ hosts, ∀ s, s.Idle held →
      w.Answers MapNode.exec depth dst req s fun answer s' => answer = shown (s.view dst p name hkey) ∧
        s.Becomes held Change.nothing [] s') (idle : s.Idle held) :
    (Config.askInTurn req hosts).Total (w.serve MapNode.exec (depth + 1) host) s fun answer s' =>
      answer = shown (hosts.findSome? fun h => s.view h p name hkey) ∧ s.Becomes held Change.nothing [] s' := by
  induction hosts generalizing s with
  | nil => exact ⟨rfl, idle.refl⟩
  | cons dst hosts ih =>
    refine total_request (each dst List.mem_cons_self s idle) ?_
    rintro _ s₁ ⟨rfl, now⟩
    rw [List.findSome?_cons]
    cases seen : s.view dst p name hkey with
    | none =>
      refine (ih (fun dst mem => each dst (List.mem_cons_of_mem _ mem)) now.idle).mono ?_
      rintro answer s' ⟨rfl, later⟩
      exact ⟨by rw [now.view_eq], now.trans later⟩
    | some v => exact ⟨rfl, now⟩

/-- What the members have of a key: the copy of the primary owner, else that of the latest previous
owner that has one, else that of the first backup in the list. -/
def lookup (w : Stable) (v : Host → View) (name : Bytes) (hkey : UInt64) : Option VData :=
  (v (w.primary hkey) (w.place false hkey) name hkey).or
    (((w.previous hkey).reverse.findSome? fun h => v h (w.place false hkey) name hkey).or
      ((w.backups hkey).findSome? fun h => v h (w.place true hkey) name hkey))

theorem getKeyVal_serves (carries : w.Carries name key) (same : hkey = getHKey w.sum64 name key)
    (idle : s.Idle held) :
    ((w.config (w.primary hkey)).getKeyVal hkey name key).Total (w.serve MapNode.exec (depth + 1) (w.primary hkey)) s
      fun answer s' => answer = shown (w.lookup s.view name hkey) ∧ s.Becomes held Change.nothing [] s' := by
  unfold Config.getKeyVal lookup
  rw [w.place_eq]
  refine (getDMap_serves _ idle).bind ?_
  rintro _ s₁ ⟨r, rfl, has, found⟩
  refine get_serves found.idle has ?_
  rw [found.view_eq]
  cases seen : s.view (w.primary hkey) (w.place false hkey) name hkey with
  | some v =>
    refine (answerEntry_serves (eternal idle seen)).mono ?_
    rintro _ _ ⟨rfl, rfl⟩
    exact ⟨rfl, found⟩
  | none =>
    dsimp only [Storage.answer, Option.none_or, ret_bind]
    unfold Config.getFromOthers
    rw [w.place_eq, w.place_eq]
    refine owners_serves ?_
    dsimp only [ret_bind, bind_eq]
    refine (askInTurn_serves (w.place false hkey) name hkey (w.previous hkey).reverse
      (fun dst mem s idle => answers_of_arrives (List.dropLast_subset _ (List.mem_reverse.1 mem))
        (carries.arrives rfl rfl)
        (by subst same; exact getPrevOperation_serves dst idle)) found.idle).bind ?_
    rintro _ s₂ ⟨rfl, asked⟩
    rw [found.view_eq]
    cases hit : (w.previous hkey).reverse.findSome? fun h => s.view h (w.place false hkey) name hkey with
    | some v => exact ⟨rfl, found.trans asked⟩
    | none =>
      refine backups_serves ?_
      refine (askInTurn_serves (w.place true hkey) name hkey (w.backups hkey)
        (fun dst mem s idle => answers_of_arrives mem (carries.arrives rfl rfl)
          (by subst same; exact getBackupOperation_serves dst idle)) asked.idle).mono ?_
      rintro _ s₃ ⟨rfl, last⟩
      exact ⟨by rw [asked.view_eq, found.view_eq]; rfl, (found.trans asked).trans last⟩

end Reading

section Operations

/-- The goroutine that a put starts in the asynchronous mode. -/
def backupJobs (w : Stable) (hkey : UInt64) (name key value : Bytes) : List (Host × Job) :=
  if (w.config (w.primary hkey)).backupCount ≠ 0 ∧ (w.config (w.primary hkey)).asyncBackup then
    [(w.primary hkey, .putKeyValBackup hkey name key value 0)]
  else []

theorem backUp_serves (fits : (Request.putBackup name key value none).Fits w.maxValueSize)
    (same : hkey = getHKey w.sum64 name key) (idle : s.Idle held) :
    ((w.config (w.primary hkey)).backUp hkey name key value 0).Total
      (w.serve MapNode.exec (depth + 1) (w.primary hkey)) s
      fun ok s' => ok = true ∧ s.Becomes held (Change.touches name hkey) (w.backupJobs hkey name key value) s' := by
  unfold Config.backUp backupJobs
  split
  · next count =>
    rw [if_neg (by simp [count])]
    exact ⟨rfl, idle.refl⟩
  · next count =>
    split
    · next mode =>
      rw [if_pos ⟨count, mode⟩]
      exact total_go ⟨rfl, idle, id, fun _ _ _ _ => .inl rfl, rfl⟩
    · next mode =>
      rw [if_neg (by simp [mode])]
      refine (putKeyValBackup_serves fits same idle).mono ?_
      rintro ok s' ⟨rfl, written⟩
      exact ⟨rfl, written.becomes.mono fun _ _ _ _ _ changed => changed.1.2.2⟩

/-- The primary owner is in nobody's way while it holds the mutex of a dmap. -/
theorem previous_free (w : Stable) (hkey : UInt64) (name : Bytes) : ∀ dst ∈ w.previous hkey,
    (w.place false hkey, name) ∉ Held.none.add (w.primary hkey) (w.place false hkey) name dst := by
  intro dst mem locked
  obtain ⟨rfl, _⟩ := Held.mem_add_none.1 locked
  exact w.primary_not_previous hkey mem

theorem backups_free (w : Stable) (hkey : UInt64) (name : Bytes) (dst : Host) :
    (w.place true hkey, name) ∉ Held.none.add (w.primary hkey) (w.place false hkey) name dst := by
  intro locked
  cases congrArg (fun x => x.1.backup) (Held.mem_add_none.1 locked).2

/-- The put on the primary owner. -/
theorem putKeyVal_serves (fits : (Request.putBackup name key value none).Fits w.maxValueSize)
    (same : hkey = getHKey w.sum64 name key) (idle : s.Idle Held.none) :
    ((w.config (w.primary hkey)).putKeyVal hkey name key value 0).Total
      (w.serve MapNode.exec (depth + 1) (w.primary hkey)) s
      fun answer s' => answer = .ok [] ∧
        s.Becomes Held.none (Change.touches name hkey) (w.backupJobs hkey name key value) s' ∧
        s'.view (w.primary hkey) (w.place false hkey) name hkey = some ⟨key, 0, value⟩ := by
  unfold Config.putKeyVal
  rw [w.place_eq]
  refine (getDMap_serves _ idle).bind ?_
  rintro _ s₁ ⟨r, rfl, has, found⟩
  refine (withLock_serves (Change.touches name hkey) (w.backupJobs hkey name key value) (fun answer view =>
    answer = .ok [] ∧
    view (w.primary hkey) (w.place false hkey) name hkey = some ⟨key, 0, value⟩) found.idle has id ?_).mono ?_
  · intro s₂ locked
    refine (backUp_serves fits same locked.idle).bind ?_
    rintro _ s₃ ⟨rfl, backed⟩
    have has₃ := backed.names (locked.names has)
    obtain ⟨dm, object⟩ := (backed.idle (w.primary hkey)).valid has₃
    change Total _ (Program.call (Cmd.put r hkey ⟨key, 0, value⟩) _) _ _
    refine total_here ⟨rfl, nofun⟩ ⟨none, _, trivial, rfl, dm, object, rfl⟩ ?_
    rintro _ n _ ⟨rfl, dm', object', written⟩
    obtain ⟨stored, now⟩ := write_serves backed.idle has₃ object' (by rintro _ ⟨⟩; rfl) written
    dsimp only [ret_bind, bind_eq]
    refine oplog_serves.bind ?_
    rintro _ _ rfl
    refine (purgeOldVersions_serves (carries_of_fits fits) same (w.previous_free hkey name) stored.idle).bind
      fun _ s₄ purged => ?_
    refine ⟨(backed.andThen (stored.mono fun _ _ _ _ _ changed => changed.1.2.2)).andThen
      (purged.mono fun _ _ _ _ _ changed => changed.1.2.2), rfl, ?_⟩
    rw [purged.same fun _ changed => w.primary_not_previous hkey changed.1.1, now]
  · rintro answer s' ⟨becomes, rfl, now⟩
    exact ⟨rfl, found.weaken.trans becomes, now⟩

/-- What is gone stays gone. -/
theorem none_stays {started : List (Host × Job)} (becomes : s.Becomes held (Change.removes name hkey) started s₁)
    (gone : s.view host p name hkey = none) : s₁.view host p name hkey = none := by
  rcases becomes.shows host p name hkey with same | ⟨_, now⟩
  · rw [same, gone]
  · exact now

theorem removes_of_writes (becomes : s.Becomes held (Change.writes hosts p name hkey none) [] s₁) :
    s.Becomes held (Change.removes name hkey) [] s₁ :=
  becomes.mono fun _ _ _ _ _ changed => ⟨changed.1.2.2, changed.2⟩

theorem deleteBackups_serves (carries : w.Carries name key) (same : hkey = getHKey w.sum64 name key)
    (free : ∀ dst, (w.place true hkey, name) ∉ held dst) (idle : s.Idle held) :
    ((w.config host).deleteBackups hkey name key).Total (w.serve MapNode.exec (depth + 1) host) s fun ok s' =>
      ok = true ∧
      s.Becomes held (Change.removes name hkey) [] s' ∧
      ((w.config host).backupCount ≠ 0 → ∀ h ∈ w.backups hkey, s'.view h (w.place true hkey) name hkey = none) := by
  unfold Config.deleteBackups
  split
  · next count => exact ⟨rfl, idle.refl, fun other => absurd count other⟩
  · unfold Config.deleteKeyValBackup
    rw [w.place_eq]
    refine backups_serves ?_
    dsimp only [ret_bind, bind_eq]
    refine requestAll_serves (deleteBackup_writes depth _ (List.Subset.refl _) carries same fun dst _ =>
      free dst) idle ?_
    rintro _ s' rfl written
    exact ⟨by simp, removes_of_writes written.becomes, fun _ => written.done⟩

/-- The delete on the primary owner. Without a backup count the backups are left alone. -/
theorem deleteKey_serves (carries : w.Carries name key) (same : hkey = getHKey w.sum64 name key)
    (idle : s.Idle Held.none) :
    ((w.config (w.primary hkey)).deleteKey hkey name key).Total (w.serve MapNode.exec (depth + 1) (w.primary hkey)) s
      fun answer s' => answer = .ok [] ∧ s.Becomes Held.none (Change.removes name hkey) [] s' ∧
        (∀ h ∈ w.owners hkey, s'.view h (w.place false hkey) name hkey = none) ∧
        ((w.config (w.primary hkey)).backupCount ≠ 0 → ∀ h ∈ w.backups hkey,
          s'.view h (w.place true hkey) name hkey = none) := by
  unfold Config.deleteKey
  rw [w.place_eq]
  refine (getDMap_serves _ idle).bind ?_
  rintro _ s₁ ⟨r, rfl, has, found⟩
  refine (withLock_serves (Change.removes name hkey) [] (fun answer view => answer = .ok [] ∧
    (∀ h ∈ w.owners hkey, view h (w.place false hkey) name hkey = none) ∧
    ((w.config (w.primary hkey)).backupCount ≠ 0 → ∀ h ∈ w.backups hkey, view h (w.place true hkey) name hkey = none))
    found.idle has id ?_).mono ?_
  · intro s₂ locked
    unfold Config.delKeyVal
    rw [w.place_eq]
    refine owners_serves ?_
    dsimp only [ret_bind, bind_eq]
    refine (requestEach_serves (deletePrev_writes depth _ (List.dropLast_subset _) carries same
      (w.previous_free hkey name)) (fun _ => List.mem_reverse.1)
      (.start locked.idle)).bind ?_
    rintro _ s₃ ⟨rfl, purged⟩
    refine (deleteBackups_serves carries same (w.backups_free hkey name) purged.becomes.idle).bind ?_
    rintro _ s₄ ⟨rfl, deleted, gone⟩
    refine oplog_serves.bind ?_
    rintro _ _ rfl
    have has₄ := deleted.names (purged.becomes.names (locked.names has))
    obtain ⟨dm, object⟩ := (deleted.idle (w.primary hkey)).valid has₄
    refine total_here ⟨rfl, nofun⟩ ⟨none, _, trivial, rfl, dm, object, rfl⟩ ?_
    rintro _ n _ ⟨rfl, dm', object', written⟩
    obtain ⟨last, now⟩ := write_serves deleted.idle has₄ object' (by rintro _ ⟨⟩) written
    have removed := removes_of_writes last
    refine ⟨((removes_of_writes purged.becomes).trans deleted).trans removed, rfl, fun h mem => ?_, fun count h mem =>
      none_stays removed (gone count h mem)⟩
    rw [← w.owners_eq] at mem
    rcases List.mem_append.1 mem with before | this
    · exact none_stays (deleted.trans removed) (purged.done h (List.mem_reverse.2 before))
    · rw [List.mem_singleton.1 this]
      exact now
  · rintro answer s' ⟨becomes, rfl, gone⟩
    exact ⟨rfl, found.weaken.trans becomes, gone⟩

end Operations

end Stable

end Olric
