import Olric.Cluster.Returns

namespace Olric

section

variable {name key value : Bytes} {timeout : Int64} {maxValueSize : Int}

theorem putBackup_short (fits : (Config.putBackupRequest name key value timeout).Fits maxValueSize) :
    value.length < 2 ^ 32 := by
  obtain ⟨m, ⟨⟩, _, _, framed⟩ := fits
  refine Nat.lt_of_le_of_lt ?_ framed.1
  rw [Message.body_length]
  exact Nat.le_add_left _ _

/-- The request that removes old versions is not larger. -/
theorem deletePrev_fits (fits : (Config.putBackupRequest name key value timeout).Fits maxValueSize) :
    (Request.deletePrev name key).Fits maxValueSize := by
  obtain ⟨m, ⟨⟩, request, small, _⟩ := fits
  exact Request.fits_of_short rfl request.dmapShort request.keyShort ((Int.natCast_nonneg _).trans small)

end

/-- An acknowledged put with a timeout: the backups store no TTL, so that theirs is the TTL of the
primary owner exactly if the time at which the key expires is less than a millisecond away from 0. -/
theorem putEx_ttl_agrees_iff {w : Setting} {tid : Tid} {depth : Nat} {host : Host} {nodes nodes' : Nodes}
    {name key value : Bytes} {timeout : Int64} (this : (w.config host).this = host) (sound : ∀ h, (nodes h).Sound)
    (nonzero : timeout ≠ 0) (fits : (Config.putBackupRequest name key value timeout).Fits w.maxValueSize)
    (run : ((w.config host).putKeyVal (getHKey w.sum64 name key) name key value timeout).Runs (w.serve tid depth host)
      nodes (.ok []) nodes') :
    ∀ dst ∈ w.currentBackups host (getHKey w.sum64 name key), ∃ e e',
      (nodes' host).Stores ((w.config host).place false (getHKey w.sum64 name key)) name
        (getHKey w.sum64 name key) e ∧
      (nodes' dst).Stores ((w.config dst).place true (getHKey w.sum64 name key)) name (getHKey w.sum64 name key) e' ∧
      (e'.ttl = e.ttl ↔ getTTL w.now timeout = 0) := by
  intro dst mem
  obtain ⟨sound', owned, backups, _⟩ := Setting.putKeyVal_runs this sound (putBackup_short fits) rfl fits
    (deletePrev_fits fits) run
  refine ⟨_, _, (sound' host).stores_iff.2 owned, (sound' dst).stores_iff.2 (backups dst mem), ?_⟩
  simp only [ttlAt, if_neg nonzero]
  exact eq_comm

/-- Two members; the second is the backup of the first. -/
def backedUp (now : Int64) : Setting where
  config host :=
    { this := host, partitionCount := 1, backupCount := 1, asyncBackup := false, snapshotMode := false,
      counted := Int.one_nonneg }
  sum64 _ := 7
  routing p := if p.backup then [previousHost] else [primaryHost]
  memCount := 2
  members := by decide
  maxValueSize := 2 ^ 20
  now := now

theorem minute_fits : (Config.putBackupRequest [100] [107] [1] 60000000000).Fits (2 ^ 20) :=
  ⟨_, rfl, ⟨rfl, by decide, by decide⟩, by decide, by decide⟩

/-- A put of a key for a minute on two new members. -/
theorem backedUp_put (now : Int64) :
    ∃ nodes', (((backedUp now).config primaryHost).putKeyVal 7 [100] [107] [1] 60000000000).Runs
      ((backedUp now).serve 0 1 primaryHost) (fun _ => emptyNode) (.ok []) nodes' := by
  obtain ⟨nodes', run, _⟩ := Setting.putKeyVal_returns (backedUp now) 0 0 primaryHost (fun _ => emptyNode) 7
    (fun _ => emptyNode_ready) (fun _ => rfl) rfl rfl
    (show primaryHost ∉ [previousHost] by decide) (by decide) (by decide) minute_fits
  exact ⟨nodes', run⟩

/-- The TTLs agree if the clock stands a minute before 0. -/
theorem putEx_ttl_agrees_minute : ∃ nodes' : Nodes,
    (((backedUp (-60000000000)).config primaryHost).putKeyVal 7 [100] [107] [1] 60000000000).Runs
      ((backedUp (-60000000000)).serve 0 1 primaryHost) (fun _ => emptyNode) (.ok []) nodes' ∧
    ∃ e e' : VData, (nodes' primaryHost).Stores ⟨false, 0⟩ [100] 7 e ∧
      (nodes' previousHost).Stores ⟨true, 0⟩ [100] 7 e' ∧ e'.ttl = e.ttl := by
  obtain ⟨nodes', run⟩ := backedUp_put (-60000000000)
  obtain ⟨e, e', owned, backup, ttl⟩ := putEx_ttl_agrees_iff (w := backedUp (-60000000000)) rfl
    (fun _ => emptyNode_ready.sound) (by decide) minute_fits run previousHost
    (show previousHost ∈ [previousHost] by decide)
  exact ⟨nodes', run, e, e', owned, backup, ttl.2 (by decide)⟩

/-- A key that is put for a minute expires on the primary owner and never on its backup. -/
theorem backup_ttl_lost : ∃ nodes' : Nodes,
    (((backedUp 1700000000000000000).config primaryHost).putKeyVal 7 [100] [107] [1] 60000000000).Runs
      ((backedUp 1700000000000000000).serve 0 1 primaryHost) (fun _ => emptyNode) (.ok []) nodes' ∧
    ∃ e e' : VData, (nodes' primaryHost).Stores ⟨false, 0⟩ [100] 7 e ∧
      (nodes' previousHost).Stores ⟨true, 0⟩ [100] 7 e' ∧ e.ttl = 1700000060000 ∧ e'.ttl = 0 := by
  obtain ⟨nodes', run⟩ := backedUp_put 1700000000000000000
  obtain ⟨sound, owned, backups, _⟩ := Setting.putKeyVal_runs (w := backedUp 1700000000000000000) rfl
    (fun _ => emptyNode_ready.sound) (by decide) rfl minute_fits (deletePrev_fits minute_fits) run
  refine ⟨nodes', run, _, _, (sound primaryHost).stores_iff.2 owned,
    (sound previousHost).stores_iff.2 (backups previousHost (show previousHost ∈ [previousHost] by decide)), ?_, rfl⟩
  decide

end Olric
