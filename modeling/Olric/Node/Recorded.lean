import Olric.Node.Ledger

namespace Olric

open Program

section Harmless

variable {cfg : Config} {p : Place} {name key value : Bytes} {hkey : UInt64} {r : Ref} {timeout : Int64}

theorem backUp_harmless : (cfg.backUp hkey name key value timeout).Only Cmd.Harmless :=
  Config.backUp_only trivial trivial (fun _ => trivial) trivial

theorem ttlOf_harmless : (Config.ttlOf timeout).Only Cmd.Harmless := Config.ttlOf_only trivial

theorem purgeOldVersions_harmless : (cfg.purgeOldVersions hkey name key).Only Cmd.Harmless :=
  Config.purgeOldVersions_only trivial fun _ => trivial

theorem getFromOthers_harmless : (cfg.getFromOthers hkey name key).Only Cmd.Harmless :=
  Config.getFromOthers_only (fun _ => trivial) (fun _ => trivial) fun _ => trivial

theorem answerEntry_harmless {entry : VData} : (Config.answerEntry entry).Only Cmd.Harmless :=
  Config.answerEntry_only trivial

theorem answerGet_harmless : (Config.answerGet r hkey).Only Cmd.Harmless := Config.answerGet_only trivial trivial

theorem requestEach_harmless {req : Request} (hosts : List Host) : (Config.requestEach req hosts).Only Cmd.Harmless :=
  Config.requestEach_only fun _ _ => trivial

theorem deleteBackups_harmless : (cfg.deleteBackups hkey name key).Only Cmd.Harmless :=
  Config.deleteBackups_only trivial fun _ => trivial

theorem grantLock_harmless : (grantLock r key timeout).Only Cmd.Harmless :=
  grantLock_only trivial (fun _ => trivial) (fun _ => trivial) trivial

theorem releaseLock_harmless : (releaseLock r key).Only Cmd.Harmless := releaseLock_only trivial

theorem findLockKey_harmless : (cfg.findLockKey hkey name key).Only Cmd.Harmless :=
  Config.findLockKey_only trivial fun _ => trivial

end Harmless

/-- What operations on the entries of a dmap do in snapshot mode. -/
structure Ledger.Booked (l l' : Ledger) : Prop where
  sound : l'.Sound
  writes : l.Writes l'

theorem Ledger.Booked.trans {l₁ l₂ l₃ : Ledger} (first : l₁.Booked l₂) (second : l₂.Booked l₃) : l₁.Booked l₃ :=
  ⟨second.sound, first.writes.trans second.writes⟩

theorem Ledger.Sound.booked {l l' : Ledger} (sound : l.Sound) (same : l' = l) : l.Booked l' := by
  subst same
  exact ⟨sound, .refl _⟩

section Booked

variable {cfg : Config} {p : Place} {name key value : Bytes} {hkey : UInt64} {r : Ref} {timeout : Int64} {tid : Tid}
  {s s₁ s' : Node} {op : LogOp} {entry : VData} {err : Option StorageError}

/-- A storage that answers has tables. -/
theorem valid_of_put {str str' : Storage} {mmaps : List Bool} (either : str.Valid ∨ str.tables = [])
    (run : str.put mmaps hkey entry = .ok (str', err)) : str.Valid := by
  refine either.resolve_right fun empty => ?_
  simp [Storage.put, Storage.retry, empty] at run

theorem valid_of_delete {str str' : Storage} {mmapOk : Bool} (either : str.Valid ∨ str.tables = [])
    (run : str.delete mmapOk hkey = .ok (str', err)) : str.Valid := by
  refine either.resolve_right fun empty => ?_
  simp [Storage.delete, empty] at run

theorem oplog_ledger (mode : cfg.snapshotMode = true) (run : (cfg.oplog r hkey op).Runs (Node.exec tid) s () s') :
    ∃ str log, s.ledger.objects r = some (str, some log) ∧
      s'.ledger = s.ledger.setObject r str (some (log.insert hkey op)) := by
  rw [Config.oplog, if_pos mode] at run
  obtain ⟨_, _, now, _, rfl⟩ := run
  exact Node.exec_log_ledger now

theorem oplog_booked (mode : cfg.snapshotMode = true) (sound : s.ledger.Sound)
    (run : (cfg.oplog r hkey op).Runs (Node.exec tid) s () s') :
    s.ledger.Booked s'.ledger ∧ s'.ledger.Logged r hkey := by
  obtain ⟨str, log, found, after⟩ := oplog_ledger mode run
  have updated := sound.update found (log.insert hkey op) (sound.storages _ _ _ found)
    (fun other mem => Finmap.mem_insert.2 (.inr mem)) (fun other change => absurd rfl change)
  rw [← after] at updated
  exact ⟨⟨updated.1, updated.2⟩, str, log.insert hkey op, by simp [after, Ledger.setObject_objects], by simp⟩

/-- A storage that has changed at one key, which is logged then. -/
theorem change_log_booked {str str' : Storage} {log : Finmap fun _ : UInt64 => LogOp} (mode : cfg.snapshotMode = true)
    (sound : s.ledger.Sound) (found : s.ledger.objects r = some (str, some log))
    (after : s₁.ledger = s.ledger.setObject r str' (some log)) (valid : str'.Valid)
    (others : ∀ other, other ≠ hkey → str'.layers.lookup other = str.layers.lookup other)
    (run : (cfg.oplog r hkey op).Runs (Node.exec tid) s₁ () s') : s.ledger.Booked s'.ledger := by
  obtain ⟨_, _, found₁, after₁⟩ := oplog_ledger mode run
  rw [after, Ledger.setObject_objects, if_pos rfl] at found₁
  cases found₁
  have updated := sound.update found (log.insert hkey op) (.inl valid)
    (fun other mem => Finmap.mem_insert.2 (.inr mem)) fun other change => by
      by_contra missing
      rw [Finmap.mem_insert, not_or] at missing
      exact change (others other missing.1)
  rw [after, Ledger.setObject_setObject] at after₁
  rw [← after₁] at updated
  exact ⟨updated.1, updated.2⟩

theorem put_failed_booked {e : StorageError} (sound : s.ledger.Sound) (has : s.ledger.Has p name r)
    (run : s.exec tid (.put r hkey entry) (some e) s') : s.ledger.Booked s'.ledger := by
  obtain ⟨str, log, mmaps, str', found, stored, after⟩ := Node.exec_put_ledger run
  obtain ⟨_, log₀, found₀⟩ := sound.object has
  cases found.symm.trans found₀
  obtain ⟨valid, same⟩ := Storage.put_failed (valid_of_put (sound.storages _ _ _ found) stored) stored
  have updated :=
    sound.update found _ (.inl valid) (fun _ mem => mem) fun other change => absurd (congrFun same other) change
  rw [← after] at updated
  exact ⟨updated.1, updated.2⟩

theorem put_log_booked (mode : cfg.snapshotMode = true) (sound : s.ledger.Sound) (has : s.ledger.Has p name r)
    (short : entry.value.length < 2 ^ 32) (put : s.exec tid (.put r hkey entry) none s₁)
    (run : (cfg.oplog r hkey op).Runs (Node.exec tid) s₁ () s') : s.ledger.Booked s'.ledger := by
  obtain ⟨str, log, mmaps, str', found, stored, after⟩ := Node.exec_put_ledger put
  obtain ⟨_, _, found₀⟩ := sound.object has
  cases found.symm.trans found₀
  obtain ⟨valid, view⟩ := Storage.put_spec (valid_of_put (sound.storages _ _ _ found) stored) short stored
  refine change_log_booked mode sound found after valid (fun other ne => ?_) run
  rw [view, Function.update_of_ne ne]

/-- A delete of a key that is logged already. -/
theorem delete_booked (sound : s.ledger.Sound) (logged : s.ledger.Logged r hkey)
    (run : s.exec tid (.delete r hkey) err s') : s.ledger.Booked s'.ledger := by
  obtain ⟨str, o, mmapOk, str', found, deleted, after⟩ := Node.exec_delete_ledger run
  obtain ⟨_, log, found₀, mem⟩ := logged
  cases found.symm.trans found₀
  obtain ⟨valid, others, _⟩ := Storage.delete_spec (valid_of_delete (sound.storages _ _ _ found) deleted) deleted
  have updated := sound.update found _ (.inl valid) (fun _ mem => mem) fun other change => by
    by_cases same : other = hkey
    · exact same ▸ mem
    · exact absurd (others other same) change
  rw [← after] at updated
  exact ⟨updated.1, updated.2⟩

theorem delete_log_booked (mode : cfg.snapshotMode = true) (sound : s.ledger.Sound) (has : s.ledger.Has p name r)
    (delete : s.exec tid (.delete r hkey) err s₁) (run : (cfg.oplog r hkey op).Runs (Node.exec tid) s₁ () s') :
    s.ledger.Booked s'.ledger := by
  obtain ⟨str, o, mmapOk, str', found, deleted, after⟩ := Node.exec_delete_ledger delete
  obtain ⟨_, _, found₀⟩ := sound.object has
  cases found.symm.trans found₀
  obtain ⟨valid, others, _⟩ := Storage.delete_spec (valid_of_delete (sound.storages _ _ _ found) deleted) deleted
  exact change_log_booked mode sound found after valid others run

theorem harmless_booked {α : Type} {prog : Prog α} {a : α} (only : prog.Only Cmd.Harmless) (sound : s.ledger.Sound)
    (run : prog.Runs (Node.exec tid) s a s') : s.ledger.Booked s'.ledger := sound.booked (runs_harmless only run)

/-- A locked section does to the ledger what its body does. -/
theorem withLock_ledger {α : Type} {body : Prog α} {a : α} (run : (withLock r body).Runs (Node.exec tid) s a s') :
    ∃ s₁ s₂, body.Runs (Node.exec tid) s₁ a s₂ ∧ s₁.ledger = s.ledger ∧ s'.ledger = s₂.ledger := by
  obtain ⟨_, s₁, locked, run⟩ := run
  dsimp only [ret_bind, bind_eq] at run
  obtain ⟨_, s₂, inner, _, s₃, unlocked, rfl, rfl⟩ := runs_bind.1 run
  exact ⟨s₁, s₂, inner, Node.exec_harmless locked trivial, Node.exec_harmless unlocked trivial⟩

section Handlers

/-! The handlers, on a member that makes snapshots. -/

variable (mode : cfg.snapshotMode = true) (sound : s.ledger.Sound)
include mode sound

section Search

variable (alone : name ∉ s.ledger.names (Ledger.twin p))
include alone

/-- A new dmap is registered before it is stored. -/
theorem createFresh_booked {dm : Option Ref} (run : (cfg.createFresh p name).Runs (Node.exec tid) s dm s') :
    s.ledger.Booked s'.ledger ∧ ∀ r, dm = some r → s'.ledger.Has p name r := by
  obtain ⟨made, s₁, alloc, run⟩ := run
  cases made with
  | none =>
    obtain rfl := alloc
    obtain ⟨rfl, rfl⟩ := run
    exact ⟨sound.booked rfl, nofun⟩
  | some r =>
    obtain ⟨free, str, new, after₁⟩ := Node.exec_newStorage_ledger alloc
    obtain ⟨valid, empty⟩ := Storage.new_spec new
    have sound₁ : (s.ledger.setObject r str none).Sound := sound.setUnnamed (sound.unnamed free) (.inl valid)
    have unnamed : ∀ p name, ¬ (s.ledger.setObject r str none).Has p name r := sound.unnamed free
    obtain ⟨_, s₂, locker, run⟩ := run
    have after₂ : s₂.ledger = s.ledger.setObject r str none := (Node.exec_harmless locker trivial).trans after₁
    rw [← after₂] at sound₁ unnamed
    have object : s₂.ledger.objects r = some (str, none) := by simp [after₂, Ledger.setObject_objects]
    dsimp only [bind_eq, act, call_bind, ret_bind, pure_eq] at run
    obtain ⟨registered, s₃, register, run⟩ := runs_bind.1 run
    rw [Config.snapshotCall, if_pos mode] at register
    obtain ⟨_, _, register, rfl, rfl⟩ := register
    cases registered with
    | false =>
      obtain ⟨rfl, rfl⟩ := run
      obtain ⟨_, rfl⟩ := register
      refine ⟨⟨sound₁, .of_fresh free object empty fun r' ne => ?_⟩, nofun⟩
      rw [after₂, Ledger.setObject_objects, if_neg ne]
    | true =>
      obtain ⟨_, s₄, stored, _, s₅, counted, rfl, rfl⟩ := run
      obtain ⟨_, _, same, after₃⟩ := Node.exec_register_ledger register
      cases object.symm.trans same
      have after₄ : s'.ledger = ((s₂.ledger.register p.id name r).setObject r str (some ∅)).setName p name r := by
        obtain rfl := stored
        rw [Node.exec_harmless counted trivial, Node.ledger_setName, after₃]
      have alone₂ : name ∉ s₂.ledger.names (Ledger.twin p) := by rw [after₂]; exact alone
      have enrolled := sound₁.enroll object unnamed alone₂
      rw [← after₄] at enrolled
      have object' : s'.ledger.objects r = some (str, some ∅) := by simp [after₄, Ledger.setName, Ledger.setObject]
      refine ⟨⟨enrolled, .of_fresh free object' empty fun r' ne => ?_⟩, ?_⟩
      · simp [after₄, after₂, Ledger.setName, Ledger.setObject, Ledger.register, ne]
      · rintro _ ⟨⟩
        rw [after₄]
        exact Ledger.setName_has.2 (.inl ⟨⟨rfl, rfl⟩, rfl⟩)

theorem createDMap_booked {dm : Option Ref} (run : (cfg.createDMap p name).Runs (Node.exec tid) s dm s') :
    s.ledger.Booked s'.ledger ∧ ∀ r, dm = some r → s'.ledger.Has p name r := by
  obtain ⟨_, s₁, locked, run⟩ := run
  have same₁ := Node.exec_harmless locked trivial
  dsimp only [ret_bind, bind_eq] at run
  obtain ⟨_, s₂, inner, _, s₃, unlocked, rfl, rfl⟩ := runs_bind.1 run
  have same₃ := Node.exec_harmless unlocked trivial
  obtain ⟨found, s₄, ⟨loaded, rfl⟩, inner⟩ := inner
  cases found with
  | some r =>
    obtain ⟨rfl, rfl⟩ := inner
    refine ⟨sound.booked (same₃.trans same₁), ?_⟩
    rintro _ ⟨⟩
    rw [same₃]
    exact loaded.symm
  | none =>
    rw [← same₁] at sound alone
    obtain ⟨booked, has⟩ := createFresh_booked mode sound alone inner
    rw [same₃, ← same₁]
    exact ⟨booked, has⟩

theorem getDMap_booked {dm : Option Ref} (run : (cfg.getDMap p name).Runs (Node.exec tid) s dm s') :
    s.ledger.Booked s'.ledger ∧ ∀ r, dm = some r → s'.ledger.Has p name r := by
  obtain ⟨found, s₁, ⟨loaded, rfl⟩, run⟩ := run
  cases found with
  | some r =>
    obtain ⟨rfl, rfl⟩ := run
    refine ⟨sound.booked rfl, ?_⟩
    rintro _ ⟨⟩
    exact loaded.symm
  | none => exact createDMap_booked mode sound alone run

/-- An operation on a dmap that is there, or made for it. -/
theorem getDMap_then_booked {α : Type} {f : Option Ref → Prog α} {a : α}
    (run : ((cfg.getDMap p name).bind f).Runs (Node.exec tid) s a s')
    (missing : ∀ s₁, (f none).Runs (Node.exec tid) s₁ a s' → s'.ledger = s₁.ledger)
    (found : ∀ r s₁, s₁.ledger.Sound → s₁.ledger.Has p name r → (f (some r)).Runs (Node.exec tid) s₁ a s' →
      s₁.ledger.Booked s'.ledger) : s.ledger.Booked s'.ledger := by
  obtain ⟨dm, s₁, search, run⟩ := runs_bind.1 run
  obtain ⟨booked, has⟩ := getDMap_booked mode sound alone search
  cases dm with
  | none =>
    rw [missing s₁ run]
    exact booked
  | some r => exact booked.trans (found r s₁ booked.sound (has r rfl) run)

/-- An operation in the locked section of a dmap that is there, or made for it. -/
theorem getDMap_withLock_booked {α : Type} {f : Option Ref → Prog α} {body : Ref → Prog α} {a fail : α}
    (run : ((cfg.getDMap p name).bind f).Runs (Node.exec tid) s a s') (missing : f none = .ret fail)
    (locked : ∀ r, f (some r) = withLock r (body r))
    (found : ∀ r s₁ s₂, s₁.ledger.Sound → s₁.ledger.Has p name r → (body r).Runs (Node.exec tid) s₁ a s₂ →
      s₁.ledger.Booked s₂.ledger) : s.ledger.Booked s'.ledger := by
  refine getDMap_then_booked mode sound alone run (fun s₁ run => ?_) fun r s₁ sound has run => ?_
  · rw [missing] at run
    obtain ⟨_, rfl⟩ := run
    rfl
  · rw [locked] at run
    obtain ⟨s₂, s₃, inner, before, after⟩ := withLock_ledger run
    rw [← before] at sound has
    rw [after, ← before]
    exact found r s₂ s₃ sound has inner

/-- The error of a delete leaves the key unlogged. -/
theorem deleteLocal_booked {answer : Response} (ok : answer ≠ .failed)
    (run : (cfg.deleteLocal p hkey name).Runs (Node.exec tid) s answer s') : s.ledger.Booked s'.ledger := by
  refine getDMap_withLock_booked mode sound alone run rfl (fun _ => rfl) fun r s₂ s₃ sound has body => ?_
  obtain ⟨err, s₄, deleted, body⟩ := body
  cases err with
  | some e => exact absurd body.1 ok
  | none =>
    dsimp only [ret_bind, bind_eq] at body
    obtain ⟨_, s₅, log, _, rfl⟩ := runs_bind.1 body
    exact delete_log_booked mode sound has deleted log

/-- An operation that only reads the dmap, or takes or gives back a lock. -/
theorem getDMap_then_harmless_booked {α : Type} {f : Option Ref → Prog α} {a : α}
    (only : ∀ dm, (f dm).Only Cmd.Harmless)
    (run : ((cfg.getDMap p name).bind f).Runs (Node.exec tid) s a s') : s.ledger.Booked s'.ledger :=
  getDMap_then_booked mode sound alone run (fun _ run => runs_harmless (only none) run)
    fun r _ sound _ run => harmless_booked (only (some r)) sound run

end Search

theorem putBackupOperation_booked {timeout : Option Int64} {answer : Response}
    (alone : name ∉ s.ledger.names (Ledger.twin (cfg.place true hkey))) (short : value.length < 2 ^ 32)
    (run : (cfg.putBackupOperation hkey name key value timeout).Runs (Node.exec tid) s answer s') :
    s.ledger.Booked s'.ledger := by
  refine getDMap_then_booked mode sound alone run (fun s₁ run => ?_) fun r s₁ sound has run => ?_
  · obtain ⟨_, rfl⟩ := run
    rfl
  · obtain ⟨ttl, s₂, ttlRun, run⟩ := runs_bind.1 run
    have same := runs_harmless ttlOf_harmless ttlRun
    rw [← same] at sound has ⊢
    obtain ⟨err, s₃, put, run⟩ := run
    cases err with
    | some e =>
      obtain ⟨_, rfl⟩ := run
      exact put_failed_booked sound has put
    | none =>
      dsimp only [ret_bind, bind_eq] at run
      obtain ⟨_, s₄, log, _, rfl⟩ := runs_bind.1 run
      exact put_log_booked mode sound has short put log

section Owner

variable (alone : name ∉ s.ledger.names (Ledger.twin (cfg.place false hkey))) {answer : Response}
include alone

theorem putKeyVal_booked (short : value.length < 2 ^ 32)
    (run : (cfg.putKeyVal hkey name key value timeout).Runs (Node.exec tid) s answer s') :
    s.ledger.Booked s'.ledger := by
  refine getDMap_withLock_booked mode sound alone run rfl (fun _ => rfl) fun r s₂ s₃ sound has body => ?_
  obtain ⟨backedUp, s₄, backup, body⟩ := runs_bind.1 body
  have same₄ := runs_harmless backUp_harmless backup
  cases backedUp with
  | false =>
    obtain ⟨_, rfl⟩ := body
    exact sound.booked same₄
  | true =>
    obtain ⟨ttl, s₅, ttlRun, body⟩ := runs_bind.1 body
    have same₅ := (runs_harmless ttlOf_harmless ttlRun).trans same₄
    rw [← same₅] at sound has ⊢
    obtain ⟨err, s₆, put, body⟩ := body
    cases err with
    | some e =>
      obtain ⟨_, rfl⟩ := body
      exact put_failed_booked sound has put
    | none =>
      dsimp only [ret_bind, bind_eq] at body
      obtain ⟨_, s₇, log, body⟩ := runs_bind.1 body
      obtain ⟨_, s₈, purge, _, rfl⟩ := runs_bind.1 body
      rw [runs_harmless purgeOldVersions_harmless purge]
      exact put_log_booked mode sound has short put log

theorem deleteKey_booked
    (run : (cfg.deleteKey hkey name key).Runs (Node.exec tid) s answer s') : s.ledger.Booked s'.ledger := by
  refine getDMap_withLock_booked mode sound alone run rfl (fun _ => rfl) fun r s₂ s₃ sound _ body => ?_
  obtain ⟨owners, s₄, ask, body⟩ := body
  have same₄ := Node.exec_harmless ask trivial
  dsimp only [ret_bind, bind_eq] at body
  obtain ⟨prev, s₅, request, body⟩ := runs_bind.1 body
  have same₅ := (runs_harmless (requestEach_harmless _) request).trans same₄
  cases prev with
  | false =>
    obtain ⟨_, rfl⟩ := body
    exact sound.booked same₅
  | true =>
    obtain ⟨backups, s₆, delete, body⟩ := runs_bind.1 body
    have same₆ := (runs_harmless deleteBackups_harmless delete).trans same₅
    cases backups with
    | false =>
      obtain ⟨_, rfl⟩ := body
      exact sound.booked same₆
    | true =>
      rw [← same₆] at sound ⊢
      obtain ⟨_, s₇, log, body⟩ := runs_bind.1 body
      obtain ⟨booked, logged⟩ := oplog_booked mode sound log
      obtain ⟨err, s₈, deleted, body⟩ := body
      have same : s₃ = s₈ := by
        cases err <;> exact body.2
      rw [same]
      exact booked.trans (delete_booked booked.sound logged deleted)

theorem getKeyVal_booked
    (run : (cfg.getKeyVal hkey name key).Runs (Node.exec tid) s answer s') : s.ledger.Booked s'.ledger := by
  refine getDMap_then_harmless_booked mode sound alone (fun dm => ?_) run
  cases dm with
  | none => exact .ret _
  | some r =>
    refine .call trivial fun found => ?_
    cases found with
    | ok entry => exact answerEntry_harmless
    | error => exact getFromOthers_harmless

theorem lockKey_booked
    (run : (cfg.lockKey hkey name key timeout).Runs (Node.exec tid) s answer s') : s.ledger.Booked s'.ledger := by
  refine getDMap_then_harmless_booked mode sound alone (fun dm => ?_) run
  cases dm with
  | none => exact .ret _
  | some r =>
    refine .call trivial fun there => ?_
    cases there with
    | true => exact grantLock_harmless
    | false =>
      refine findLockKey_harmless.bind fun owner => ?_
      cases owner with
      | none => exact .ret _
      | some owner =>
        dsimp only
        split
        · exact grantLock_harmless
        · exact .call trivial fun _ => .ret _

theorem unlockKey_booked
    (run : (cfg.unlockKey hkey name key).Runs (Node.exec tid) s answer s') : s.ledger.Booked s'.ledger := by
  obtain ⟨owner, s₁, find, run⟩ := runs_bind.1 run
  have same := runs_harmless findLockKey_harmless find
  rw [← same] at sound alone ⊢
  cases owner with
  | none =>
    obtain ⟨_, rfl⟩ := run
    exact sound.booked rfl
  | some owner =>
    dsimp only at run
    split at run
    · refine getDMap_then_harmless_booked mode sound alone (fun dm => ?_) run
      cases dm with
      | none => exact .ret _
      | some r => exact releaseLock_harmless
    · have only : (act (.request owner (.unlockPrev name key))).Only Cmd.Harmless := .call trivial fun _ => .ret _
      exact harmless_booked only sound run

end Owner

end Handlers

/-- The operation runs here, or on the owner. -/
theorem onOwner_booked {cop : ClientOp} {here : Prog Response} {answer : Response} (sound : s.ledger.Sound)
    (run : (cfg.onOwner hkey cop here).Runs (Node.exec tid) s answer s')
    (local' : ∀ s₁, s₁.ledger = s.ledger → here.Runs (Node.exec tid) s₁ answer s' → s₁.ledger.Booked s'.ledger) :
    s.ledger.Booked s'.ledger := by
  have only : (cfg.locateHKey hkey).Only Cmd.Harmless := .call trivial fun _ => .ret _
  obtain ⟨member, s₁, locate, run⟩ := runs_bind.1 run
  have same := runs_harmless only locate
  cases member with
  | none =>
    obtain ⟨_, rfl⟩ := run
    exact sound.booked same
  | some member =>
    dsimp only at run
    split at run
    · rw [← same]
      exact local' s₁ same run
    · have only : (act (.request member (.external cop))).Only Cmd.Harmless := .call trivial fun _ => .ret _
      exact sound.booked ((runs_harmless only run).trans same)

end Booked

/-- The dmap that an operation of a client concerns. -/
def ClientOp.name : ClientOp → Bytes
  | .put name .. | .get name _ | .delete name _ | .lockWithTimeout name .. | .unlock name _ => name

/-- The value fits the four bytes of its length. -/
def ClientOp.Short : ClientOp → Prop
  | .put _ _ value _ => value.length < 2 ^ 32
  | .get .. | .delete .. | .lockWithTimeout .. | .unlock .. => True

theorem clientOperation_booked {cfg : Config} {sum64 : Bytes → UInt64} {op : ClientOp} {tid : Tid} {s s' : Node}
    {answer : Response} (mode : cfg.snapshotMode = true) (sound : s.ledger.Sound)
    (alone : op.name ∉ s.ledger.names (Ledger.twin (cfg.place false (op.hkey sum64)))) (short : op.Short)
    (run : (cfg.clientOperation sum64 op).Runs (Node.exec tid) s answer s') : s.ledger.Booked s'.ledger := by
  obtain ⟨_, same⟩ := cfg.clientOperation_eq sum64 op
  rw [same] at run
  obtain ⟨reply, _, run, _, rfl⟩ := runs_bind.1 run
  refine onOwner_booked sound run fun s₁ same run => ?_
  rw [← same] at sound alone
  cases op with
  | put => exact putKeyVal_booked mode sound alone short run
  | get => exact getKeyVal_booked mode sound alone run
  | delete => exact deleteKey_booked mode sound alone run
  | lockWithTimeout => exact lockKey_booked mode sound alone run
  | unlock => exact unlockKey_booked mode sound alone run

end Olric
