import Olric.Cluster.PutSpec

namespace Olric

open Program

/-- A member that can serve: nobody holds a lock, and there is memory for more objects. -/
structure Node.Ready (s : Node) : Prop where
  sound : s.Sound
  partitions : ∀ p, (s.partition p).mutex = none
  dmaps : ∀ r dm, s.dmaps r = some dm → dm.mutex = none
  syncing : s.syncing = []
  fresh : ∃ n : Nat, ∀ r : Nat, n ≤ r → s.dmaps r = none

theorem emptyNode_ready : emptyNode.Ready where
  sound := ⟨fun has => absurd has nofun, fun has => absurd has nofun⟩
  partitions _ := rfl
  dmaps _ _ found := absurd found nofun
  syncing := rfl
  fresh := ⟨0, fun _ _ => rfl⟩

namespace Node

variable {s : Node} {p : Place} {name : Bytes} {r : Ref} {dm : DMap}

/-- Another object, or another content of one, does not get into anybody's way. -/
theorem Ready.setDMap (ready : s.Ready) (unlocked : dm.mutex = none) (sound : (s.setDMap r dm).Sound) :
    (s.setDMap r dm).Ready where
  sound := sound
  partitions := ready.partitions
  dmaps r' dm' found := by
    rcases setDMap_found.1 found with ⟨_, rfl⟩ | ⟨_, found⟩
    · exact unlocked
    · exact ready.dmaps r' dm' found
  syncing := ready.syncing
  fresh := by
    obtain ⟨n, free⟩ := ready.fresh
    refine ⟨max n (r + 1), fun r' above => ?_⟩
    have other : r' ≠ r := Nat.ne_of_gt (Nat.lt_of_lt_of_le (Nat.lt_succ_self r) (le_of_max_le_right above))
    change Function.update s.dmaps r (some dm) r' = none
    rw [Function.update_of_ne other]
    exact free r' (le_of_max_le_left above)

end Node

section

variable {w : Setting} {tid : Tid} {s : Node} {cfg : Config} {p : Place} {name key value : Bytes} {hkey : UInt64}
  {r : Ref}

/-- The registration of a new dmap, in the modes of the configuration. -/
theorem registration_returns (w : Setting) (tid : Tid) (cfg : Config) (p : Place) (name : Bytes) {dm : DMap}
    (found : s.dmaps r = some dm) (syncing : s.syncing = []) :
    ∃ s' dm', (cfg.snapshotCall (act (.register p name r))).Runs (w.acts tid) s true s' ∧
      s'.dmaps = Function.update s.dmaps r (some dm') ∧ dm'.mutex = dm.mutex ∧ s'.partition = s.partition ∧
      s'.syncing = [] := by
  unfold Config.snapshotCall
  split
  · refine ⟨_, _, ⟨true, _, ⟨⟨syncing, ⟨dm, found, rfl⟩⟩, trivial, trivial, rfl⟩, rfl, rfl⟩, rfl, rfl, rfl, syncing⟩
  · exact ⟨s, dm, ⟨rfl, rfl⟩, by rw [← found, Function.update_eq_self], rfl, rfl, syncing⟩

theorem getDMap_returns (w : Setting) (tid : Tid) (cfg : Config) (p : Place) (name : Bytes) (ready : s.Ready) :
    ∃ r s', (cfg.getDMap p name).Runs (w.acts tid) s (some r) s' ∧ s'.Ready := by
  cases has : (s.partition p).m.lookup name with
  | some r => exact ⟨r, s, ⟨some r, s, ⟨⟨has.symm, rfl⟩, trivial, trivial, trivial⟩, rfl, rfl⟩, ready⟩
  | none =>
    obtain ⟨n, free⟩ := ready.fresh
    obtain ⟨str, made⟩ : ∃ str, Storage.new true 0 = .ok str := ⟨_, rfl⟩
    let s₁ := s.setPartition p { s.partition p with mutex := some tid }
    let s₂ := s₁.setDMap n ⟨str, none, none, none⟩
    let s₃ := s₂.setDMap n ⟨str, none, some newLocker, none⟩
    have found₂ : s₂.dmaps n = some ⟨str, none, none, none⟩ := setDMap_found.2 (.inl ⟨rfl, rfl⟩)
    have found₃ : s₃.dmaps n = some ⟨str, none, some newLocker, none⟩ := setDMap_found.2 (.inl ⟨rfl, rfl⟩)
    obtain ⟨s₄, dm, registered, dmaps₄, unlocked, partition₄, syncing₄⟩ :=
      registration_returns w tid cfg p name found₃ ready.syncing
    let s₅ := s₄.setPartition p { s₄.partition p with m := (s₄.partition p).m.insert name n }
    let s₆ := s₅.setPartition p { s₅.partition p with count := (s₅.partition p).count + 1 }
    let s₇ := s₆.setPartition p { s₆.partition p with mutex := none }
    have absent₁ : (s₁.partition p).m.lookup name = none := by
      simpa [s₁, Node.setPartition] using has
    have run : (cfg.getDMap p name).Runs (w.acts tid) s (some n) s₇ := by
      refine ⟨none, s, ⟨⟨has.symm, rfl⟩, trivial, trivial, trivial⟩, ?_⟩
      refine ⟨(), s₁, ⟨⟨ready.partitions p, rfl⟩, trivial, trivial, trivial⟩, ?_⟩
      dsimp only [ret_bind, bind_eq]
      refine runs_bind.2 ⟨some n, s₆, ?_, (), s₇, ⟨rfl, trivial, trivial, trivial⟩, rfl, rfl⟩
      refine ⟨none, s₁, ⟨⟨absent₁.symm, rfl⟩, trivial, trivial, trivial⟩, ?_⟩
      refine ⟨some n, s₂, ⟨⟨free n le_rfl, str, made, rfl⟩, trivial, trivial, Option.some_ne_none _⟩, ?_⟩
      refine ⟨(), s₃, ⟨⟨_, found₂, rfl⟩, trivial, trivial, trivial⟩, ?_⟩
      dsimp only [ret_bind, bind_eq]
      refine runs_bind.2 ⟨true, s₄, registered, ?_⟩
      exact ⟨(), s₅, ⟨rfl, trivial, trivial, trivial⟩, (), s₆, ⟨rfl, trivial, trivial, trivial⟩, rfl, rfl⟩
    refine ⟨n, s₇, run, (getDMap_keeps ready.sound run).1.sound, fun q => ?_, fun r' dm' found => ?_,
      syncing₄, n + 1, ?_⟩
    · by_cases here : q = p
      · subst here
        simp [s₇, Node.setPartition]
      · simp [s₇, s₆, s₅, Node.setPartition, here, partition₄, s₃, s₂, s₁, Node.setDMap, ready.partitions]
    · change s₄.dmaps r' = some dm' at found
      rw [dmaps₄] at found
      by_cases this : r' = n
      · subst this
        rw [Function.update_self] at found
        cases found
        exact unlocked
      · rw [Function.update_of_ne this] at found
        have old : s.dmaps r' = some dm' := by
          simpa [s₃, s₂, s₁, Node.setDMap, Node.setPartition, this] using found
        exact ready.dmaps r' dm' old
    · intro r' above
      change s₄.dmaps r' = none
      have this : r' ≠ n := by omega
      rw [dmaps₄, Function.update_of_ne this]
      simpa [s₃, s₂, s₁, Node.setDMap, Node.setPartition, this] using free r' (by omega)

theorem put_returns (w : Setting) (tid : Tid) (hkey : UInt64) (entry : VData) (ready : s.Ready) (has : s.Has p name r)
    (smallKey : entry.key.length < maxKeyLen)
    (small : entry.encode.length < 2 ^ 20) : ∃ s', w.acts tid s (.put r hkey entry) none s' ∧ s'.Ready := by
  obtain ⟨dm, found, valid⟩ := ready.sound.valid has
  obtain ⟨str, stored⟩ := Storage.put_returns valid.nonempty hkey smallKey small
  have run : w.acts tid s (.put r hkey entry) none (s.setDMap r { dm with str := str }) :=
    ⟨⟨dm, [true], str, found, stored, rfl⟩, trivial, trivial, nofun⟩
  have short : entry.value.length < 2 ^ 32 := by
    rw [entry.encode_length] at small
    omega
  exact ⟨_, run, ready.setDMap (ready.dmaps r dm found) (put_keeps ready.sound has short run).1.sound⟩

theorem ttlOf_returns (timeout : Int64) : (Config.ttlOf timeout).Runs (w.acts tid) s (ttlAt w.now timeout) s := by
  unfold Config.ttlOf ttlAt
  split
  · exact ⟨rfl, rfl⟩
  · exact ⟨w.now, s, ⟨rfl, trivial, rfl, trivial⟩, rfl, rfl⟩

theorem encode_length_of_ttl (key value : Bytes) (ttl ttl' : Int64) :
    (VData.encode ⟨key, ttl, value⟩).length = (VData.encode ⟨key, ttl', value⟩).length := by
  rw [VData.encode_length, VData.encode_length]

theorem putBackupOperation_returns (w : Setting) (tid : Tid) (cfg : Config) (hkey : UInt64) (name : Bytes)
    (timeout : Option Int64) (ready : s.Ready) (memory : cfg.snapshotMode = false)
    (smallKey : key.length < maxKeyLen) (small : (VData.encode ⟨key, 0, value⟩).length < 2 ^ 20) :
    ∃ s', (cfg.putBackupOperation hkey name key value timeout).Runs (w.acts tid) s (.ok []) s' ∧ s'.Ready := by
  obtain ⟨r, s₁, found, ready₁⟩ := getDMap_returns w tid cfg (cfg.place true hkey) name ready
  have has := (getDMap_keeps ready.sound found).2.2 r rfl
  obtain ⟨s₂, put, ready₂⟩ := put_returns w tid hkey ⟨key, ttlAt w.now (timeout.getD 0), value⟩ ready₁ has smallKey
    (by rw [encode_length_of_ttl key value _ 0]; exact small)
  have quiet : cfg.oplog r hkey .put = pure () := by simp [Config.oplog, memory]
  refine ⟨s₂, runs_bind.2 ⟨some r, s₁, found, runs_bind.2 ⟨_, s₁, ttlOf_returns _, none, s₂, put, ?_⟩⟩, ready₂⟩
  dsimp only [ret_bind, bind_eq]
  rw [quiet]
  exact ⟨rfl, rfl⟩

end

namespace Setting

variable {w : Setting} {tid : Tid} {depth : Nat} {host : Host} {nodes : Nodes} {name key value : Bytes}
  {hkey : UInt64}
  {timeout : Int64}

theorem answers_putBackup_returns (tid : Tid) (depth : Nat) (dsts : List Host)
    (ready : ∀ dst ∈ dsts, (nodes dst).Ready) (memory : ∀ h, (w.config h).snapshotMode = false)
    (smallKey : key.length < maxKeyLen) (small : (VData.encode ⟨key, 0, value⟩).length < 2 ^ 20)
    (fits : (Config.putBackupRequest name key value timeout).Fits w.maxValueSize) :
    ∃ nodes', w.answers (w.serve tid depth) (Config.putBackupRequest name key value timeout) dsts nodes
      (dsts.map fun _ => .ok []) nodes' ∧
      (∀ h, (nodes h).Ready → (nodes' h).Ready) ∧ ∀ h, h ∉ dsts → nodes' h = nodes h := by
  induction dsts generalizing nodes with
  | nil => exact ⟨nodes, rfl, fun _ => id, fun _ _ => rfl⟩
  | cons dst dsts ih =>
    obtain ⟨s', run, there⟩ := putBackupOperation_returns w tid (w.config dst) (getHKey w.sum64 name key)
      name none (ready dst List.mem_cons_self) (memory dst) smallKey small
    have ready' (h : Host) (before : (nodes h).Ready) : (Function.update nodes dst s' h).Ready := by
      by_cases here : h = dst
      · subst here
        rwa [Function.update_self]
      · rwa [Function.update_of_ne here]
    obtain ⟨nodes', rest, readyAfter, others⟩ := ih fun h mem => ready' h (ready h (List.mem_cons_of_mem _ mem))
    refine ⟨nodes', ⟨_, (answer_of_fits fits).2 ((runs_local putBackupOperation_local).2 ⟨s', run, rfl⟩), rest⟩,
      fun h before => readyAfter h (ready' h before), fun h away => ?_⟩
    rw [others h fun mem => away (List.mem_cons_of_mem _ mem), Function.update_of_ne]
    rintro rfl
    exact away List.mem_cons_self

theorem putBackupOwners_returns : ((w.config host).putBackupOwners hkey).Runs (w.serve tid depth host) nodes
    (w.currentBackups host hkey) nodes := by
  have same : nodes = Function.update nodes host (nodes host) := (Function.update_eq_self _ _).symm
  refine ⟨w.memCount, nodes, (serve_local (c := .numMembers) ⟨rfl, nofun⟩).2
    ⟨_, ⟨⟨w.members, rfl⟩, trivial, rfl, trivial⟩, same⟩, ?_⟩
  exact ⟨_, nodes, (serve_local (c := .owners _) ⟨rfl, nofun⟩).2
    ⟨_, ⟨⟨nofun, rfl⟩, rfl, trivial, trivial⟩, same⟩, rfl, rfl⟩

/-- The backups of a put of a small entry, on idle backup owners. -/
theorem backUp_returns (tid : Tid) (depth : Nat) (nodes : Nodes)
    (ready : ∀ dst ∈ w.currentBackups host hkey, (nodes dst).Ready) (memory : ∀ h, (w.config h).snapshotMode = false)
    (sync : (w.config host).asyncBackup = false) (smallKey : key.length < maxKeyLen)
    (small : (VData.encode ⟨key, 0, value⟩).length < 2 ^ 20)
    (fits : (Config.putBackupRequest name key value timeout).Fits w.maxValueSize) :
    ∃ nodes', ((w.config host).backUp hkey name key value timeout).Runs (w.serve tid (depth + 1) host) nodes
      true nodes' ∧
      (∀ h, (nodes h).Ready → (nodes' h).Ready) ∧ ∀ h, h ∉ w.currentBackups host hkey → nodes' h = nodes h := by
  unfold Config.backUp
  split
  · exact ⟨nodes, ⟨rfl, rfl⟩, fun _ => id, fun _ _ => rfl⟩
  · rw [if_neg (by simp [sync])]
    cases listed : w.currentBackups host hkey with
    | nil =>
      refine ⟨nodes, runs_bind.2 ⟨_, _, putBackupOwners_returns, ?_⟩, fun _ => id, fun _ _ => rfl⟩
      rw [listed]
      exact ⟨rfl, rfl⟩
    | cons dst dsts =>
      rw [listed] at ready
      obtain ⟨nodes', run, readyAfter, others⟩ := answers_putBackup_returns tid depth (dst :: dsts)
        ready memory smallKey small fits
      refine ⟨nodes', runs_bind.2 ⟨_, _, putBackupOwners_returns, ?_⟩, readyAfter, others⟩
      rw [listed]
      exact ⟨(dst :: dsts).map fun _ => .ok [], nodes', run, by simp, rfl⟩

/-- A put of a small entry on idle members is acknowledged, in the synchronous mode. -/
theorem putKeyVal_returns (w : Setting) (tid : Tid) (depth : Nat) (host : Host) (nodes : Nodes) (hkey : UInt64)
    (ready : ∀ h, (nodes h).Ready) (memory : ∀ h, (w.config h).snapshotMode = false)
    (sync : (w.config host).asyncBackup = false) (only : w.routing ((w.config host).place false hkey) = [host])
    (away : host ∉ w.currentBackups host hkey) (smallKey : key.length < maxKeyLen)
    (small : (VData.encode ⟨key, 0, value⟩).length < 2 ^ 20)
    (fits : (Config.putBackupRequest name key value timeout).Fits w.maxValueSize) :
    ∃ nodes', ((w.config host).putKeyVal hkey name key value timeout).Runs (w.serve tid (depth + 1) host)
      nodes (.ok [])
      nodes' ∧ ∀ h, (nodes' h).Ready := by
  obtain ⟨r, s₁, found, ready₁⟩ := getDMap_returns w tid (w.config host) ((w.config host).place false hkey) name
    (ready host)
  have has := (getDMap_keeps (ready host).sound found).2.2 r rfl
  obtain ⟨dm, object, valid⟩ := ready₁.sound.valid has
  have unlocked := ready₁.dmaps r dm object
  let nodes₁ := Function.update nodes host s₁
  let s₂ := s₁.setDMap r { dm with mutex := some tid }
  let nodes₂ := Function.update nodes₁ host s₂
  have here₁ : nodes₁ host = s₁ := Function.update_self ..
  have others (h : Host) (other : h ≠ host) : nodes₂ h = nodes h := by
    simp only [nodes₂, nodes₁, Function.update_of_ne other]
  obtain ⟨nodes₃, backups, readyAfter, kept⟩ := backUp_returns tid depth nodes₂
    (fun dst mem => by rw [others dst (by rintro rfl; exact away mem)]; exact ready dst) memory sync
      smallKey small fits
  have here : nodes₃ host = s₂ := by
    rw [kept host away]
    exact Function.update_self ..
  obtain ⟨str, stored⟩ := Storage.put_returns valid.nonempty hkey (v := ⟨key, ttlAt w.now timeout, value⟩) smallKey
    (by rw [encode_length_of_ttl key value _ 0]; exact small)
  let s₄ := s₂.setDMap r { dm with mutex := some tid, str := str }
  let s₅ := s₄.setDMap r { dm with str := str }
  have locked₂ : s₂.dmaps r = some { dm with mutex := some tid } := setDMap_found.2 (.inl ⟨rfl, rfl⟩)
  have locked₄ : s₄.dmaps r = some { dm with mutex := some tid, str := str } := setDMap_found.2 (.inl ⟨rfl, rfl⟩)
  have quiet : (w.config host).oplog r hkey .put = pure () := by simp [Config.oplog, memory]
  have readyHere : s₅.Ready := by
    have final : s₅ = s₁.setDMap r { dm with str := str } := by simp [s₅, s₄, s₂, Node.setDMap]
    have put : w.acts tid s₁ (.put r hkey ⟨key, ttlAt w.now timeout, value⟩) none
        (s₁.setDMap r { dm with str := str }) :=
      ⟨⟨dm, [true], str, object, stored, rfl⟩, trivial, trivial, by rintro ⟨⟩⟩
    have short : value.length < 2 ^ 32 := by
      rw [VData.encode_length] at small
      dsimp only at small
      omega
    rw [final]
    exact ready₁.setDMap unlocked (put_keeps ready₁.sound has short put).1.sound
  refine ⟨Function.update nodes₃ host s₅,
    runs_bind.2 ⟨some r, nodes₁, (runs_local getDMap_local).2 ⟨s₁, found, rfl⟩, ?_⟩, ?_⟩
  · refine ⟨(), nodes₂, (serve_local (c := .lock r) ⟨rfl, by rintro _ ⟨⟩⟩).2 ⟨s₂,
      ⟨⟨dm, ?_, unlocked, ?_⟩, trivial, trivial, trivial⟩, rfl⟩, ?_⟩
    · rw [here₁]
      exact object
    · rw [here₁]
    dsimp only [ret_bind, bind_eq]
    refine runs_bind.2 ⟨.ok [], Function.update nodes₃ host s₄, runs_bind.2 ⟨true, nodes₃, backups, ?_⟩, ?_⟩
    · refine runs_bind.2 ⟨_, nodes₃, (runs_local ttlOf_local).2 ⟨_, ttlOf_returns timeout,
        (Function.update_eq_self _ _).symm⟩, ?_⟩
      refine ⟨none, _, (serve_local (c := .put ..) ⟨rfl, by rintro _ ⟨⟩⟩).2 ⟨s₄,
        ⟨⟨{ dm with mutex := some tid }, [true], str, ?_, stored, ?_⟩, trivial, trivial, by rintro ⟨⟩⟩, rfl⟩, ?_⟩
      · rw [here]
        exact locked₂
      · rw [here]
      dsimp only [ret_bind, bind_eq]
      rw [quiet]
      refine runs_bind.2 ⟨(), _, ⟨rfl, rfl⟩, runs_bind.2 ⟨(), _, ⟨[host], _, ?_, rfl, rfl⟩, rfl, rfl⟩⟩
      exact (serve_local (c := .owners _) ⟨rfl, by rintro _ ⟨⟩⟩).2
        ⟨_, ⟨⟨fun _ => List.cons_ne_nil _ _, rfl⟩, only.symm, trivial, trivial⟩, (Function.update_eq_self _ _).symm⟩
    · refine ⟨(), _, (serve_local (c := .unlock r) ⟨rfl, by rintro _ ⟨⟩⟩).2
        ⟨s₅, ⟨⟨{ dm with mutex := some tid, str := str }, ?_, ?_⟩, trivial, trivial, trivial⟩,
          (Function.update_idem ..).symm⟩, rfl, rfl⟩
      · rw [Function.update_self]
        exact locked₄
      · rw [Function.update_self]
        simp only [s₅, unlocked]
  · intro h
    by_cases same : h = host
    · subst same
      rwa [Function.update_self]
    · rw [Function.update_of_ne same]
      exact readyAfter h (by rw [others h same]; exact ready h)

end Setting

end Olric
