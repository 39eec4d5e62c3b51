import Olric.Cluster.OwnerView

namespace Olric

/-- The members that are alive, and where the consistent-hash ring with exactly these members puts the
partitions. The names of the members differ. -/
structure Ring where
  live : List Host
  names : (live.map Host.name).Nodup
  owner : UInt64 → Host
  closest : UInt64 → Int → Option (List Host)
  owner_live : ∀ partID, owner partID ∈ live
  closest_live : ∀ partID (count : Int), 0 ≤ count → count < live.length →
    ∃ hosts, closest partID count = some hosts ∧ (hosts.length : Int) = count ∧ hosts.Nodup ∧ hosts ⊆ live

/-- What the coordinator meets while it distributes the partitions: the counts of its own partitions,
and the members that say that they have no dmap of the partition. -/
structure Round extends Ring where
  count : Place → Int
  empty : Place → Host → Bool

/-- The view of a round: the ring has the members that are alive. -/
def Round.view (round : Round) : ClusterView where
  members := round.live
  owner partID := some (round.owner partID)
  closest := round.closest
  count := round.count
  empty := round.empty

/-- The owners of all partitions and of their backups, as the coordinator has them. -/
structure OwnerLists where
  owners : UInt64 → List Host
  backups : UInt64 → List Host

structure Route where
  owners : List Host
  backups : List Host
deriving DecidableEq

abbrev RoutingTable := UInt64 → Option Route

namespace Config

variable (cfg : Config) (round : Round)

/-- One round of the loop over the partitions. The table gets the lists as they are set. -/
def distributePartition (backupCount : Int) (partID : UInt64) :
    OwnerLists × RoutingTable → Except Halt (OwnerLists × RoutingTable)
  | (lists, rt) => do
    let owners ← round.view.distributePrimaryCopies cfg.this partID (lists.owners partID)
    let lists := { lists with owners := Function.update lists.owners partID owners }
    let data := (rt partID).getD ⟨[], []⟩
    let rt := Function.update rt partID (some { data with owners })
    if cfg.backupCount ≠ 0 ∧ backupCount ≠ 0 then
      match round.closest partID backupCount with
      -- The ring has not enough members, which is only logged.
      | none => pure (lists, rt)
      | some _ =>
        let backups ← round.view.distributeBackups cfg.this partID backupCount (lists.backups partID)
        let lists := { lists with backups := Function.update lists.backups partID backups }
        let data := (rt partID).getD ⟨[], []⟩
        pure (lists, Function.update rt partID (some { data with backups }))
    else pure (lists, rt)

def partIDs : List UInt64 := (List.range cfg.partitionCount.toNat).map UInt64.ofNat

/-- The coordinator's lists and the table that it pushes to the other members. -/
def distributePartitions (lists : OwnerLists) : Except Halt (OwnerLists × RoutingTable) :=
  let backupCount := cfg.calcMaxBackupCount round.live.length
  cfg.partIDs.foldlM (fun st partID => cfg.distributePartition round backupCount partID st) (lists, fun _ => none)

end Config

/-- The lists name members that are alive, and the table has the same lists. -/
structure Faithful (cfg : Config) (ring : Ring) (lists : OwnerLists) (rt : RoutingTable) : Prop where
  owners : ∀ partID ∈ cfg.partIDs, lists.owners partID ⊆ ring.live
  backups : ∀ partID ∈ cfg.partIDs, lists.backups partID ⊆ ring.live
  table : ∀ partID ∈ cfg.partIDs, rt partID = some ⟨lists.owners partID, lists.backups partID⟩

namespace Config

variable {cfg : Config} {round : Round} {partID : UInt64}

/-- The backups are distributed at all. -/
def Distributes (cfg : Config) (ring : Ring) : Prop :=
  cfg.backupCount ≠ 0 ∧ cfg.calcMaxBackupCount ring.live.length ≠ 0

instance (cfg : Config) (ring : Ring) : Decidable (cfg.Distributes ring) := inferInstanceAs (Decidable (_ ∧ _))

/-- The partition has the lists and the entry of the table that it had. -/
def Untouched (partID : UInt64) (before after : OwnerLists × RoutingTable) : Prop :=
  after.1.owners partID = before.1.owners partID ∧ after.1.backups partID = before.1.backups partID ∧
    after.2 partID = before.2 partID

/-- What the round of a partition leaves of it. -/
structure Distributed (cfg : Config) (ring : Ring) (partID : UInt64)
    (before after : OwnerLists × RoutingTable) : Prop where
  owners : after.1.owners partID ⊆ ring.live
  backups : if cfg.Distributes ring then after.1.backups partID ⊆ ring.live else after.1.backups partID =
      before.1.backups partID
  table : after.2 partID = some ⟨after.1.owners partID,
    if cfg.Distributes ring then after.1.backups partID else ((before.2 partID).getD ⟨[], []⟩).backups⟩

theorem distributePartition_returns (round : Round) (partID : UInt64) (before : OwnerLists × RoutingTable) :
    ∃ after, cfg.distributePartition round (cfg.calcMaxBackupCount round.live.length) partID before = .ok after ∧
      cfg.Distributed round.toRing partID before after ∧ ∀ other, other ≠ partID → Untouched other before after := by
  obtain ⟨lists, rt⟩ := before
  obtain ⟨owners, primary, (live : owners ⊆ round.live)⟩ :=
    round.view.distributePrimaryCopies_live round.names cfg.this (lists.owners partID) rfl
    (round.owner_live partID)
  have members : 0 < round.live.length := List.length_pos_of_mem (round.owner_live partID)
  have bounds := cfg.calcMaxBackupCount_bounds (show (0 : Int) < round.live.length by omega)
  obtain ⟨hosts, closest, length, nodup, inside⟩ := round.closest_live partID _ bounds.1 bounds.2
  obtain ⟨backups, backup, (liveBackups : backups ⊆ round.live)⟩ :=
    round.view.distributeBackups_live round.names cfg.this (lists.backups partID)
    closest length nodup inside
  unfold distributePartition
  simp only [primary, bind, Except.bind]
  by_cases distributes : cfg.Distributes round.toRing
  · rw [if_pos (show _ ∧ _ from distributes)]
    simp only [closest, backup]
    refine ⟨_, rfl, ⟨?_, ?_, ?_⟩, ?_⟩
    · simpa using live
    · simpa [distributes] using liveBackups
    · simp [distributes]
    · intro other differs
      simp [Untouched, differs]
  · rw [if_neg (show ¬ (_ ∧ _) from distributes)]
    refine ⟨_, rfl, ⟨?_, ?_, ?_⟩, ?_⟩
    · simpa using live
    · simp [distributes]
    · simp [distributes]
    · intro other differs
      simp [Untouched, differs]

theorem partIDs_nodup : cfg.partIDs.Nodup := by
  refine List.Nodup.map_on (fun i inside j inside' same => ?_) List.nodup_range
  have small := cfg.partitionCount.toNat_lt
  rw [List.mem_range] at inside inside'
  have toNat := congrArg UInt64.toNat same
  simp only [UInt64.toNat_ofNat'] at toNat
  omega

theorem Untouched.trans {partID : UInt64} {first second third : OwnerLists × RoutingTable}
    (earlier : Untouched partID first second) (later : Untouched partID second third) :
    Untouched partID first third :=
  ⟨later.1.trans earlier.1, later.2.1.trans earlier.2.1, later.2.2.trans earlier.2.2⟩

theorem Distributed.after {ring : Ring} {before middle after : OwnerLists × RoutingTable}
    (done : cfg.Distributed ring partID before middle) (same : Untouched partID middle after) :
    cfg.Distributed ring partID before after := by
  obtain ⟨owners, backups, table⟩ := done
  obtain ⟨sameOwners, sameBackups, sameTable⟩ := same
  rw [← sameOwners] at owners table
  rw [← sameBackups] at backups table
  rw [← sameTable] at table
  exact ⟨owners, backups, table⟩

theorem Distributed.before {ring : Ring} {before middle after : OwnerLists × RoutingTable}
    (same : Untouched partID before middle) (done : cfg.Distributed ring partID middle after) :
    cfg.Distributed ring partID before after := by
  obtain ⟨owners, backups, table⟩ := done
  obtain ⟨_, sameBackups, sameTable⟩ := same
  rw [sameBackups] at backups
  rw [sameTable] at table
  exact ⟨owners, backups, table⟩

/-- The rounds of different partitions do not disturb each other. -/
theorem distribute_returns (round : Round) (ids : List UInt64) (nodup : ids.Nodup)
    (before : OwnerLists × RoutingTable) : ∃ after, ids.foldlM
      (fun st partID => cfg.distributePartition round (cfg.calcMaxBackupCount round.live.length) partID st) before =
      .ok after ∧ (∀ partID ∈ ids, cfg.Distributed round.toRing partID before after) ∧
      ∀ partID, partID ∉ ids → Untouched partID before after := by
  induction ids generalizing before with
  | nil => exact ⟨before, rfl, nofun, fun _ _ => ⟨rfl, rfl, rfl⟩⟩
  | cons id ids ih =>
    obtain ⟨notLater, nodup⟩ := List.nodup_cons.1 nodup
    obtain ⟨middle, first, done, others⟩ := distributePartition_returns round id before
    obtain ⟨after, rest, later, kept⟩ := ih nodup middle
    refine ⟨after, ?_, fun partID mem => ?_, fun partID absent => ?_⟩
    · rw [List.foldlM_cons, first]
      exact rest
    · rcases List.mem_cons.1 mem with rfl | among
      · exact done.after (kept partID notLater)
      · refine .before (others partID ?_) (later partID among)
        rintro rfl
        exact notLater among
    · rw [List.mem_cons, not_or] at absent
      exact (others partID absent.1).trans (kept partID absent.2)

/-- Whatever the lists have been before, distributing the partitions leaves only members that are alive
in the lists, and pushes the same lists, exactly if the backups are distributed or there are none. -/
theorem distributePartitions_faithful_iff (cfg : Config) (round : Round) (lists : OwnerLists) :
    ∃ lists' rt, cfg.distributePartitions round lists = .ok (lists', rt) ∧ (Faithful cfg round.toRing lists' rt ↔
      cfg.Distributes round.toRing ∨ ∀ partID ∈ cfg.partIDs, lists.backups partID = []) := by
  obtain ⟨⟨lists', rt⟩, run, done, _⟩ := distribute_returns round cfg.partIDs partIDs_nodup (lists, fun _ => none)
  refine ⟨lists', rt, run, fun faithful => ?_, fun fine => ⟨?_, ?_, ?_⟩⟩
  · by_cases distributes : cfg.Distributes round.toRing
    · exact .inl distributes
    · refine .inr fun partID mem => ?_
      have spec := done partID mem
      have table := spec.table.symm.trans (faithful.table partID mem)
      have same := spec.backups
      rw [if_neg distributes] at table same
      simp only [Option.some.injEq, Route.mk.injEq] at table
      rw [← same, ← table.2]
      rfl
  · exact fun partID mem => (done partID mem).owners
  · intro partID mem
    have backups := (done partID mem).backups
    split at backups
    · exact backups
    · next not =>
      rw [backups, (fine.resolve_left not) partID mem]
      exact List.nil_subset _
  · intro partID mem
    have spec := done partID mem
    refine spec.table.trans ?_
    split
    · rfl
    · next not =>
      have same := spec.backups
      rw [if_neg not, (fine.resolve_left not) partID mem] at same
      rw [same]
      rfl

end Config

/-- A coordinator that makes one backup. -/
def singleBackup : Config := { soloConfig with this := coordinatorHost, backupCount := 1, counted := Int.one_nonneg }

/-- Nobody but the coordinator has dmaps. -/
def bothAlive : Round where
  live := [coordinatorHost, leavingHost]
  names := by decide
  owner _ := coordinatorHost
  closest _ count := if count = 0 then some [] else some [leavingHost]
  owner_live _ := List.mem_cons_self
  closest_live _ count _ _ := by
    by_cases zero : count = 0
    · exact ⟨[], by simp [zero]⟩
    · refine ⟨[leavingHost], by simp [zero], ?_, by simp, by simp⟩
      simp at *
      omega
  count _ := 0
  empty _ _ := true

def leftAlone : Round where
  live := [coordinatorHost]
  names := by decide
  owner _ := coordinatorHost
  closest _ _ := some []
  owner_live _ := List.mem_cons_self
  closest_live _ count _ _ := ⟨[], rfl, by simp at *; omega, by simp, by simp⟩
  count _ := 0
  empty _ _ := true

theorem distributePartitions_faithful_both : ∃ lists rt,
    singleBackup.distributePartitions bothAlive ⟨fun _ => [], fun _ => []⟩ = .ok (lists, rt) ∧
      Faithful singleBackup bothAlive.toRing lists rt := by
  obtain ⟨lists, rt, run, faithful⟩ :=
    Config.distributePartitions_faithful_iff singleBackup bothAlive ⟨fun _ => [], fun _ => []⟩
  exact ⟨lists, rt, run, faithful.2 (.inl (by decide))⟩

/-- The other member joins, the partitions are distributed, it leaves, and they are distributed
again: it stays a backup owner on the coordinator, and the table that is pushed has no backups. -/
theorem backup_owner_outlives_member : ∃ lists rt lists' rt',
    singleBackup.distributePartitions bothAlive ⟨fun _ => [], fun _ => []⟩ = .ok (lists, rt) ∧
      singleBackup.distributePartitions leftAlone lists = .ok (lists', rt') ∧
      lists'.backups 0 = [leavingHost] ∧ leavingHost ∉ leftAlone.live ∧ (rt' 0).map Route.backups = some [] ∧
      ¬ Faithful singleBackup leftAlone.toRing lists' rt' := by
  refine ⟨_, _, _, _, rfl, rfl, rfl, by decide, rfl, fun faithful => ?_⟩
  have dead := faithful.backups 0 (by decide) (show leavingHost ∈ _ from List.mem_singleton.2 rfl)
  revert dead
  decide

end Olric
