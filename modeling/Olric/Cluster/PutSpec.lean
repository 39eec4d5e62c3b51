import Olric.Cluster.Sequential

namespace Olric

open Program

namespace Setting

/-- The backup owners that a put of the member goes to. -/
def currentBackups (w : Setting) (host : Host) (hkey : UInt64) : List Host :=
  let backupCount := (w.config host).calcMaxBackupCount w.memCount
  let owners := w.routing ((w.config host).place true hkey)
  if (owners.length : Int) > backupCount then owners.drop (owners.length - backupCount).toNat else owners

/-- What the member stores as the backup of an hkey. -/
def backupEntry (w : Setting) (nodes : Nodes) (dst : Host) (name : Bytes) (hkey : UInt64) : Option VData :=
  (nodes dst).view ((w.config dst).place true hkey) name hkey

/-- The owned dmaps stay as they are, and an entry that is, or is made, the backup of the hkey stays. -/
structure BacksUp (w : Setting) (name : Bytes) (hkey : UInt64) (entry : VData) (dsts : List Host)
    (nodes nodes' : Nodes) :
    Prop where
  keeps : ∀ h, (nodes h).Keeps (nodes' h)
  owned : ∀ h p name, p.backup = false → (nodes' h).view p name = (nodes h).view p name
  stored : ∀ h, h ∈ dsts ∨ w.backupEntry nodes h name hkey = some entry →
      w.backupEntry nodes' h name hkey = some entry
  others : ∀ h, h ∉ dsts → nodes' h = nodes h

/-- The entries of some partitions stay as they are, on all members. -/
structure KeepsIn (P : Place → Prop) (nodes nodes' : Nodes) : Prop where
  keeps : ∀ h, (nodes h).Keeps (nodes' h)
  views : ∀ h p name, P p → (nodes' h).view p name = (nodes h).view p name

/-- Everything but owned dmaps stays as it is. -/
abbrev KeepsBackups : Nodes → Nodes → Prop := KeepsIn (·.backup = true)

theorem KeepsIn.trans {P : Place → Prop} {nodes₁ nodes₂ nodes₃ : Nodes} (first : KeepsIn P nodes₁ nodes₂)
    (second : KeepsIn P nodes₂ nodes₃) : KeepsIn P nodes₁ nodes₃ :=
  ⟨fun h => (first.keeps h).trans (second.keeps h), fun h p name here =>
    (second.views h p name here).trans (first.views h p name here)⟩

variable {w : Setting} {tid : Tid} {depth : Nat} {host dst : Host} {nodes nodes' : Nodes} {name key value : Bytes}
  {hkey : UInt64} {timeout : Int64} {entry : VData} {P : Place → Prop}

theorem BacksUp.refl (sound : ∀ h, (nodes h).Sound) : w.BacksUp name hkey entry [] nodes nodes :=
  ⟨fun h => ⟨sound h, .refl _⟩, fun _ _ _ _ => rfl, fun _ kept => kept.resolve_left List.not_mem_nil, fun _ _ => rfl⟩

theorem BacksUp.trans {dsts₁ dsts₂ : List Host} {nodes₁ nodes₂ nodes₃ : Nodes}
    (first : w.BacksUp name hkey entry dsts₁ nodes₁ nodes₂) (second : w.BacksUp name hkey entry dsts₂ nodes₂ nodes₃) :
    w.BacksUp name hkey entry (dsts₁ ++ dsts₂) nodes₁ nodes₃ := by
  refine ⟨fun h => (first.keeps h).trans (second.keeps h), fun h p name owned =>
    (second.owned h p name owned).trans (first.owned h p name owned), fun h kept => second.stored h ?_,
      fun h away => ?_⟩
  · rcases kept with mem | before
    · rcases List.mem_append.1 mem with mem | mem
      · exact .inr (first.stored h (.inl mem))
      · exact .inl mem
    · exact .inr (first.stored h (.inr before))
  · rw [second.others h fun mem => away (List.mem_append_right _ mem),
      first.others h fun mem => away (List.mem_append_left _ mem)]

theorem keeps_update {s' : Node} (sound : ∀ h, (nodes h).Sound) (keeps : (nodes host).Keeps s') (h : Host) :
    (nodes h).Keeps (Function.update nodes host s' h) := by
  rcases Function.update_cases nodes host s' h with ⟨rfl, here⟩ | ⟨_, there⟩
  · rwa [here]
  · rw [there]
    exact ⟨sound h, .refl _⟩

theorem KeepsIn.update {s' : Node} (sound : ∀ h, (nodes h).Sound) (keeps : (nodes host).Keeps s')
    (views : ∀ p name, P p → s'.view p name = (nodes host).view p name) :
    KeepsIn P nodes (Function.update nodes host s') := by
  refine ⟨keeps_update sound keeps, fun h p name inside => ?_⟩
  rcases Function.update_cases nodes host s' h with ⟨rfl, here⟩ | ⟨_, there⟩
  · rw [here]
    exact views p name inside
  · rw [there]

/-- The backup put of a small entry, on one backup owner. The timeout has been lost on the way. -/
theorem answer_putBackup {reply : Response} (sound : ∀ h, (nodes h).Sound) (short : value.length < 2 ^ 32)
    (smallKey : key.length < maxKeyLen) (same : hkey = getHKey w.sum64 name key)
    (fits : (Config.putBackupRequest name key value timeout).Fits w.maxValueSize)
    (run : w.answer (w.serve tid depth) (Config.putBackupRequest name key value timeout) dst nodes reply nodes') :
    reply = .ok [] ∧ w.BacksUp name hkey ⟨key, 0, value⟩ [dst] nodes nodes' := by
  rw [answer_of_fits fits] at run
  change ((w.config dst).putBackupOperation (getHKey w.sum64 name key) name key value none).Runs _ _ _ _ at run
  rw [← same, runs_local putBackupOperation_local] at run
  obtain ⟨s', run, rfl⟩ := run
  obtain rfl := putBackupOperation_answers smallKey run
  obtain ⟨keeps, ⟨other, _⟩ | ⟨_, view⟩⟩ := putBackupOperation_runs (sound dst) short run
  · exact absurd rfl other
  have stored : s'.view ((w.config dst).place true hkey) name hkey = some ⟨key, 0, value⟩ := by
    rw [view, View.put, View.set_self, Function.update_self]
    rfl
  refine ⟨rfl, ?_, ?_, ?_, fun h away => Function.update_of_ne (fun same => away (List.mem_singleton.2 same)) ..⟩
  · intro h
    by_cases here : h = dst
    · subst here
      rwa [Function.update_self]
    · rw [Function.update_of_ne here]
      exact ⟨sound h, .refl _⟩
  · intro h p name' owned
    by_cases here : h = dst
    · subst here
      rw [Function.update_self, view, View.put, View.set_of_ne]
      rintro ⟨rfl, _⟩
      cases owned
    · rw [Function.update_of_ne here]
  · intro h kept
    unfold backupEntry at kept ⊢
    by_cases here : h = dst
    · subst here
      rwa [Function.update_self]
    · rw [Function.update_of_ne here]
      exact kept.resolve_left fun mem => here (List.mem_singleton.1 mem)

theorem answers_putBackup {dsts : List Host} {replies : List Response} (sound : ∀ h, (nodes h).Sound)
    (short : value.length < 2 ^ 32) (smallKey : key.length < maxKeyLen) (same : hkey = getHKey w.sum64 name key)
    (fits : (Config.putBackupRequest name key value timeout).Fits w.maxValueSize)
    (run : w.answers (w.serve tid depth) (Config.putBackupRequest name key value timeout) dsts nodes replies nodes') :
    w.BacksUp name hkey ⟨key, 0, value⟩ dsts nodes nodes' := by
  induction dsts generalizing nodes replies with
  | nil =>
    cases replies with
    | nil =>
      obtain rfl := run
      exact .refl sound
    | cons => exact run.elim
  | cons dst dsts ih =>
    cases replies with
    | nil => exact run.elim
    | cons reply replies =>
      obtain ⟨mid, first, rest⟩ := run
      have stored := (answer_putBackup sound short smallKey same fits first).2
      exact stored.trans (ih (fun h => (stored.keeps h).sound) rest)

/-- The backups of a put are answers of the backup owners, one after the other. -/
theorem putKeyValBackup_answers {ok : Bool}
    (run : ((w.config host).putKeyValBackup hkey name key value timeout).Runs (w.serve tid depth host) nodes
      ok nodes') :
    ∃ depth' replies, w.answers (w.serve tid depth') (Config.putBackupRequest name key value timeout)
      (w.currentBackups host hkey) nodes replies nodes' := by
  obtain ⟨owners, mid, asked, run⟩ := runs_bind.1 run
  obtain ⟨memCount, mid₁, counted, listed, mid₂, routed, rfl, rfl⟩ := asked
  obtain ⟨s₁, ⟨⟨_, rfl⟩, _, rfl, _⟩, rfl⟩ := (serve_local (c := .numMembers) ⟨rfl, nofun⟩).1 counted
  obtain ⟨s₂, ⟨⟨_, rfl⟩, rfl, _⟩, rfl⟩ := (serve_local (c := .owners _) ⟨rfl, nofun⟩).1 routed
  rw [Function.update_eq_self, Function.update_eq_self] at run
  change (if (w.currentBackups host hkey).isEmpty = true then _ else _ : Prog Bool).Runs _ _ _ _ at run
  split at run
  · next empty =>
    rw [List.isEmpty_iff.1 empty]
    exact ⟨depth, [], run.2⟩
  · obtain ⟨replies, mid₃, answered, _, rfl⟩ := run
    cases depth with
    | zero => exact absurd answered.1.1 nofun
    | succ depth => exact ⟨depth, replies, answered⟩

theorem currentBackups_of_no_backups (none_ : (w.config host).backupCount = 0) : w.currentBackups host hkey = [] := by
  have count : (w.config host).calcMaxBackupCount w.memCount ≤ 0 := by
    unfold Config.calcMaxBackupCount
    rw [none_]
    dsimp only
    split <;> split <;> omega
  unfold currentBackups
  dsimp only
  split
  · exact List.drop_eq_nil_of_le (by omega)
  · exact List.length_eq_zero_iff.1 (by omega)

/-- The same in all modes: without backups nobody is asked, and a goroutine runs at once. -/
theorem backUp_answers {ok : Bool}
    (run : ((w.config host).backUp hkey name key value timeout).Runs (w.serve tid depth host) nodes ok nodes') :
    ∃ depth' replies, w.answers (w.serve tid depth') (Config.putBackupRequest name key value timeout)
      (w.currentBackups host hkey) nodes replies nodes' := by
  unfold Config.backUp at run
  split at run
  · next none_ =>
    rw [currentBackups_of_no_backups none_]
    exact ⟨depth, [], run.2⟩
  · split at run
    · obtain ⟨_, mid, started, _, rfl⟩ := run
      cases depth with
      | zero => exact absurd rfl (started.1.2 _)
      | succ depth =>
        obtain ⟨_, _, backups, _, rfl⟩ := runs_bind.1 started
        exact putKeyValBackup_answers backups
    · exact putKeyValBackup_answers run

theorem KeepsIn.refl (sound : ∀ h, (nodes h).Sound) : KeepsIn P nodes nodes :=
  ⟨fun h => ⟨sound h, .refl _⟩, fun _ _ _ _ => rfl⟩

theorem answer_deletePrev {reply : Response} (sound : ∀ h, (nodes h).Sound)
    (fits : (Request.deletePrev name key).Fits w.maxValueSize)
    (run : w.answer (w.serve tid depth) (.deletePrev name key) dst nodes reply nodes') :
    KeepsBackups nodes nodes' ∧ ∀ h, h ≠ dst → nodes' h = nodes h := by
  rw [answer_of_fits fits] at run
  change ((w.config dst).deleteLocal _ _ name).Runs _ _ _ _ at run
  rw [runs_local deleteLocal_local] at run
  obtain ⟨s', run, rfl⟩ := run
  obtain ⟨keeps, entries, view⟩ := deleteLocal_runs (sound dst) run
  refine ⟨.update sound keeps fun p name' backup => ?_, fun h other => Function.update_of_ne other ..⟩
  rw [view, View.set_of_ne]
  rintro ⟨rfl, _⟩
  cases backup

theorem purgeOldVersions_runs (this : (w.config host).this = host) (sound : ∀ h, (nodes h).Sound)
    (fits : (Request.deletePrev name key).Fits w.maxValueSize)
    (run : ((w.config host).purgeOldVersions hkey name key).Runs (w.serve tid depth host) nodes () nodes') :
    KeepsBackups nodes nodes' ∧ nodes' host = nodes host := by
  obtain ⟨owners, mid, routed, run⟩ := run
  obtain ⟨s, ⟨⟨_, rfl⟩, _⟩, rfl⟩ := (serve_local (c := .owners _) ⟨rfl, nofun⟩).1 routed
  rw [Function.update_eq_self] at run
  refine Runs.forEach_rel (fun nodes nodes' => (∀ h, (nodes h).Sound) → KeepsBackups nodes nodes' ∧
    nodes' host = nodes host)
    (fun _ sound => ⟨.refl sound, rfl⟩) ?_ ?_ run sound
  · intro a b c first second sound
    obtain ⟨keeps, same⟩ := first sound
    obtain ⟨keeps', same'⟩ := second fun h => (keeps.keeps h).sound
    exact ⟨keeps.trans keeps', same'.trans same⟩
  · intro owner _ nodes nodes' run sound
    split at run
    · obtain ⟨_, rfl⟩ := run
      exact ⟨.refl sound, rfl⟩
    · next other =>
      obtain ⟨reply, mid, asked, _, rfl⟩ := run
      cases depth with
      | zero => exact absurd asked.1.1 nofun
      | succ depth =>
        obtain ⟨keeps, rest⟩ := answer_deletePrev sound fits asked
        exact ⟨keeps, rest host fun same => other (by rw [this, same])⟩

theorem backUp_runs {ok : Bool} (sound : ∀ h, (nodes h).Sound) (short : value.length < 2 ^ 32)
    (smallKey : key.length < maxKeyLen) (same : hkey = getHKey w.sum64 name key)
    (fits : (Config.putBackupRequest name key value timeout).Fits w.maxValueSize)
    (run : ((w.config host).backUp hkey name key value timeout).Runs (w.serve tid depth host) nodes ok nodes') :
    w.BacksUp name hkey ⟨key, 0, value⟩ (w.currentBackups host hkey) nodes nodes' := by
  obtain ⟨depth', replies, answered⟩ := backUp_answers run
  exact answers_putBackup sound short smallKey same fits answered

/-- A command about the member itself that leaves all entries alone. -/
theorem serve_calm {c : Cmd} {reply : c.Reply} (here : c.Local) (calm : c.Calm) (sound : ∀ h, (nodes h).Sound)
    (run : w.serve tid depth host nodes c reply nodes') :
    KeepsIn P nodes nodes' ∧ (nodes' host).view = (nodes host).view := by
  obtain ⟨s', now, rfl⟩ := (serve_local here).1 run
  obtain ⟨keeps, view⟩ := Node.exec_keeps now.1 calm (sound host)
  refine ⟨.update sound keeps fun p name _ => by rw [view], ?_⟩
  rwa [Function.update_self]

theorem KeepsIn.sound (keeps : KeepsIn P nodes nodes') (h : Host) : (nodes' h).Sound := (keeps.keeps h).sound

/-- What an acknowledged put leaves behind, on the primary owner and on its backups. -/
theorem putKeyVal_runs (this : (w.config host).this = host) (sound : ∀ h, (nodes h).Sound)
    (short : value.length < 2 ^ 32) (same : hkey = getHKey w.sum64 name key)
    (fits : (Config.putBackupRequest name key value timeout).Fits w.maxValueSize)
    (fits' : (Request.deletePrev name key).Fits w.maxValueSize)
    (run : ((w.config host).putKeyVal hkey name key value timeout).Runs (w.serve tid depth host) nodes
      (.ok []) nodes') :
    (∀ h, (nodes' h).Sound) ∧
      (nodes' host).view ((w.config host).place false hkey) name hkey = some ⟨key, ttlAt w.now timeout, value⟩ ∧
      (∀ dst ∈ w.currentBackups host hkey, w.backupEntry nodes' dst name hkey = some ⟨key, 0, value⟩) ∧
      ∀ h, h ∉ w.currentBackups host hkey → ∀ p name, p.backup = true →
        (nodes' h).view p name = (nodes h).view p name := by
  obtain ⟨dm, nodes₁, found, run⟩ := runs_bind.1 run
  obtain ⟨s₁, foundHere, rfl⟩ := (runs_local getDMap_local).1 found
  obtain ⟨keeps₁, view₁, has⟩ := getDMap_keeps (sound host) foundHere
  cases dm with
  | none => exact absurd run.1 nofun
  | some r =>
    obtain ⟨_, nodes₂, locked, run⟩ := run
    dsimp only [ret_bind, bind_eq] at run
    obtain ⟨_, nodes₃, inner, _, nodes₄, unlocked, rfl, rfl⟩ := runs_bind.1 run
    obtain ⟨backedUp, nodes₅, backups, inner⟩ := runs_bind.1 inner
    cases backedUp with
    | false => exact absurd inner.1 nofun
    | true =>
      obtain ⟨ttl, nodes₆, timed, inner⟩ := runs_bind.1 inner
      obtain ⟨s₆, timedHere, rfl⟩ := (runs_local ttlOf_local).1 timed
      obtain ⟨rfl, rfl⟩ := ttlOf_runs timedHere
      rw [Function.update_eq_self] at inner
      obtain ⟨err, nodes₇, put, inner⟩ := inner
      cases err with
      | some e => exact absurd inner.1 nofun
      | none =>
        dsimp only [ret_bind, bind_eq] at inner
        obtain ⟨_, nodes₈, logged, inner⟩ := runs_bind.1 inner
        obtain ⟨_, nodes₉, purged, _, rfl⟩ := runs_bind.1 inner
        obtain ⟨s₇, putHere, rfl⟩ := (serve_local (c := .put ..) ⟨rfl, nofun⟩).1 put
        obtain ⟨s₈, loggedHere, rfl⟩ := (runs_local oplog_local).1 logged
        have smallKey : key.length < maxKeyLen := by
          obtain ⟨⟨_, _, _, _, stored, _⟩, _⟩ := putHere
          exact Storage.put_small stored
        -- The goroutine looks the dmap up, locks it and makes the backups.
        have kept₁ : KeepsBackups nodes (Function.update nodes host s₁) :=
          .update sound keeps₁ fun _ _ _ => by rw [view₁]
        obtain ⟨kept₂, _⟩ :=
          serve_calm (P := (·.backup = true)) (c := .lock r) ⟨rfl, nofun⟩ trivial kept₁.sound locked
        have backed := backUp_runs kept₂.sound short smallKey same fits backups
        have sound₅ (h : Host) : (nodes₅ h).Sound := (backed.keeps h).sound
        have has₅ : (nodes₅ host).Has ((w.config host).place false hkey) name r := by
          refine (backed.keeps host).grows _ _ _ ((kept₂.keeps host).grows _ _ _ ?_)
          rw [Function.update_self]
          exact has r rfl
        -- It stores the entry, and what follows leaves it and the backups alone.
        obtain ⟨keeps₇, view₇⟩ := put_keeps (sound₅ host) has₅ short putHere
        rw [if_pos rfl] at view₇
        have kept₇ : KeepsBackups nodes₅ (Function.update nodes₅ host s₇) :=
          .update sound₅ keeps₇ fun p _ backup => by
          rw [view₇, View.put, View.set_of_ne]
          rintro ⟨rfl, _⟩
          cases backup
        rw [Function.update_self] at loggedHere
        obtain ⟨keeps₈, view₈⟩ := oplog_keeps_view keeps₇.sound loggedHere
        have kept₈ : KeepsBackups (Function.update nodes₅ host s₇)
            (Function.update (Function.update nodes₅ host s₇) host s₈) :=
          .update kept₇.sound (by rwa [Function.update_self]) fun _ _ _ => by rw [Function.update_self, view₈]
        obtain ⟨kept₉, same₉⟩ := purgeOldVersions_runs this kept₈.sound fits' purged
        obtain ⟨kept₄, view₄⟩ :=
          serve_calm (P := (·.backup = true)) (c := .unlock r) ⟨rfl, nofun⟩ trivial kept₉.sound unlocked
        have kept := ((kept₇.trans kept₈).trans kept₉).trans kept₄
        refine ⟨kept.sound, ?_, fun dst mem => ?_, fun h away p name backup => ?_⟩
        · rw [view₄, same₉, Function.update_self, view₈, view₇, View.put, View.set_self, Function.update_self]
        · have stored := backed.stored dst (.inl mem)
          unfold backupEntry at stored ⊢
          rwa [kept.views dst _ name rfl]
        · rw [kept.views h p name backup, backed.others h away, (kept₁.trans kept₂).views h p name backup]

end Setting

end Olric
