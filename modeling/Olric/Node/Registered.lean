import Mathlib.Algebra.Order.BigOperators.Group.List
import Olric.Node.Count
import Olric.Node.Recorded

namespace Olric

open Program

/-- The place and the name of the dmap that a request concerns. -/
def Request.target (cfg : Config) (sum64 : Bytes → UInt64) : Request → Place × Bytes
  | .deletePrev name key | .getPrev name key | .findLock name key | .lockPrev name key _ | .unlockPrev name key =>
    (cfg.place false (getHKey sum64 name key), name)
  | .putBackup name key _ _ | .deleteBackup name key | .getBackup name key =>
    (cfg.place true (getHKey sum64 name key), name)
  | .moveDMap backup box => (⟨backup, box.partID⟩, box.name)
  | .external op => (cfg.place false (op.hkey sum64), op.name)

/-- The requests that book what they do. A dmap that comes from another member is not registered,
and its entries are not logged. -/
def Request.Books (answer : Response) : Request → Prop
  | .moveDMap .. => False
  | .deletePrev .. | .deleteBackup .. => answer ≠ .failed
  | .putBackup _ _ value _ => value.length < 2 ^ 32
  | .external op => op.Short
  | .getPrev .. | .getBackup .. | .findLock .. | .lockPrev .. | .unlockPrev .. => True

theorem handle_booked {cfg : Config} {sum64 : Bytes → UInt64} {req : Request} {tid : Tid} {s s' : Node}
    {answer : Response} (mode : cfg.snapshotMode = true) (sound : s.ledger.Sound)
    (alone : (req.target cfg sum64).2 ∉ s.ledger.names (Ledger.twin (req.target cfg sum64).1))
    (books : req.Books answer)
    (run : (cfg.handle sum64 req).Runs (Node.exec tid) s answer s') : s.ledger.Booked s'.ledger := by
  cases req with
  | deletePrev name key => exact deleteLocal_booked mode sound alone books run
  | deleteBackup name key => exact deleteLocal_booked mode sound alone books run
  | putBackup name key value timeout => exact putBackupOperation_booked mode sound alone books run
  | moveDMap => exact books.elim
  | external op => exact clientOperation_booked mode sound alone books run
  | getPrev name key =>
    have only : (cfg.getPrevOperation (getHKey sum64 name key) name).Only Cmd.Harmless := by
      refine .call trivial fun found => ?_
      cases found with
      | none => exact .ret _
      | some r => exact answerGet_harmless
    exact harmless_booked only sound run
  | getBackup name key =>
    refine getDMap_then_harmless_booked mode sound alone (fun dm => ?_) run
    cases dm with
    | none => exact .ret _
    | some r => exact answerGet_harmless
  | findLock name key =>
    refine getDMap_then_harmless_booked mode sound alone (fun dm => ?_) run
    cases dm with
    | none => exact .ret _
    | some r =>
      refine .call trivial fun there => ?_
      cases there <;> exact .ret _
  | lockPrev name key timeout =>
    refine getDMap_then_harmless_booked mode sound alone (fun dm => ?_) run
    cases dm with
    | none => exact .ret _
    | some r => exact grantLock_harmless
  | unlockPrev name key =>
    refine getDMap_then_harmless_booked mode sound alone (fun dm => ?_) run
    cases dm with
    | none => exact .ret _
    | some r => exact releaseLock_harmless

/-- What a member in snapshot mode does, one after the other: requests of clients and of other
members, among them the dmaps that they move here; dmaps that the loader has filled and that are
restored; runs of the janitor, destroys, syncs, and merges of tables. -/
inductive MemberOp
  | request (req : Request) (answer : Response)
  | load (r : Ref) (str : Storage)
  | restoreDMap (p : Place) (name : Bytes) (r : Ref)
  | deleteStaleDMaps
  | destroyDMapOperation (name : Bytes) (answer : Response)
  | sync (partID : UInt64)
  | merge (r : Ref)

namespace Config

variable (cfg : Config) (sum64 : Bytes → UInt64)

inductive Serves : Node → MemberOp → Node → Prop
  | request {tid s req answer s'} (run : (cfg.handle sum64 req).Runs (Node.exec tid) s answer s') :
      Serves s (.request req answer) s'
  | load {s r str} (free : s.dmaps r = none) (valid : str.Valid) :
      Serves s (.load r str) (s.setDMap r ⟨str, none, none, none⟩)
  | restoreDMap {tid s p name r ok s'} (loaded : ∀ p name, ¬ s.Has p name r)
      (run : (Config.restoreDMap p name r).Runs (Node.exec tid) s ok s') : Serves s (.restoreDMap p name r) s'
  | deleteStaleDMaps {tid s s'} (run : cfg.deleteStaleDMaps.Runs (Node.exec tid) s () s') :
      Serves s .deleteStaleDMaps s'
  | destroyDMapOperation {tid s name answer s'}
      (run : (cfg.destroyDMapOperation name).Runs (Node.exec tid) s answer s') :
      Serves s (.destroyDMapOperation name answer) s'
  | sync {tid s partID s'} (run : (Config.sync partID).Runs (Node.exec tid) s () s') : Serves s (.sync partID) s'
  | merge {s r dm order mmapOk done str} (found : s.dmaps r = some dm) (orders : dm.str.MergeOrder order)
      (merged : dm.str.chunkedMergeTables order mmapOk = .ok (done, str)) :
      Serves s (.merge r) (s.setDMap r { dm with str := str })

/-- A member that has just been started. -/
def snapshotMember : Transitions Node MemberOp where
  init s := (∀ p, (s.partition p).m = ∅) ∧ ∀ r, s.dmaps r = none
  step := cfg.Serves sum64

/-- No dmap comes from another member, none gets a name that the other table of its partition has,
and no delete for another member and no destroy fails half way. A merge finds one copy of each key. -/
def Books (s : Node) : MemberOp → Prop
  | .request req answer => req.Books answer ∧
    (req.target cfg sum64).2 ∉ s.ledger.names (Ledger.twin (req.target cfg sum64).1)
  | .restoreDMap p name _ => name ∉ s.ledger.names (Ledger.twin p)
  | .destroyDMapOperation _ answer => answer ≠ .failed
  | .merge r => ∀ dm hkey, s.dmaps r = some dm → dm.str.copies hkey ≤ 1
  | .load .. | .deleteStaleDMaps | .sync _ => True

end Config

/-- What changes in a dmap of the partitions is logged. -/
def Ledger.LogsChanges (l l' : Ledger) : Prop := ∀ p name r, l'.Has p name r → ∀ hkey,
  l'.content r hkey ≠ l.content r hkey → l'.Logged r hkey

/-- The content of the dmaps that stay is the same. -/
structure Ledger.Spared (l l' : Ledger) : Prop where
  sound : l'.Sound
  has : ∀ p name r, l'.Has p name r → l.Has p name r
  content : ∀ p name r, l'.Has p name r → l'.content r = l.content r

namespace Ledger

variable {l l₁ l₂ l' : Ledger}

theorem Booked.logsChanges (booked : l.Booked l') : l.LogsChanges l' :=
  fun _ _ r _ hkey change => booked.writes.changes r hkey change

theorem Spared.logsChanges (spared : l.Spared l') : l.LogsChanges l' :=
  fun p name r has hkey change => absurd (congrFun (spared.content p name r has) hkey) change

theorem Sound.spared (sound : l.Sound) : l.Spared l := ⟨sound, fun _ _ _ has => has, fun _ _ _ _ => rfl⟩

theorem Spared.trans (first : l.Spared l₁) (second : l₁.Spared l₂) : l.Spared l₂ where
  sound := second.sound
  has p name r has := first.has p name r (second.has p name r has)
  content p name r has := (second.content p name r has).trans (first.content p name r (second.has p name r has))

end Ledger

theorem Storage.lookup_of_len {str : Storage} (none : str.len = 0) : str.layers.lookup = fun _ => Option.none := by
  funext hkey
  rw [Storage.layers_lookup, List.findSome?_eq_none_iff]
  intro t mem
  have zero : t.hkeys.keys.card = 0 :=
    List.sum_eq_zero_iff.1 none _ (List.mem_map.2 ⟨t, List.mem_reverse.1 mem, rfl⟩)
  rw [Table.get_eq_none_iff, ← Finmap.mem_keys, Finset.card_eq_zero.1 zero]
  exact Finset.notMem_empty hkey

section

variable {cfg : Config} {tid : Tid} {s s' : Node} {p : Place} {name : Bytes} {r : Ref}

theorem close_valid {str : Storage} (valid : str.Valid ∨ str.tables = []) (munmapOk : Bool) :
    (str.close munmapOk).1.Valid ∨ (str.close munmapOk).1.tables = [] := by
  unfold Storage.close
  split
  · exact valid
  · split
    · exact .inr rfl
    · exact valid.imp (fun valid => ⟨valid.nonempty, valid.tables⟩) id

theorem close_empty {str : Storage} (none : str.len = 0) (munmapOk : Bool) :
    (str.close munmapOk).1.layers.lookup = str.layers.lookup := by
  rw [Storage.lookup_of_len none]
  unfold Storage.close
  split
  · exact Storage.lookup_of_len none
  · split
    · rfl
    · exact Storage.lookup_of_len none

theorem deleteStaleDMap_spares (mode : cfg.snapshotMode = true) (sound : s.ledger.Sound) (has : s.ledger.Has p name r)
    (run : (cfg.deleteStaleDMap p name r).Runs (Node.exec tid) s () s') : s.ledger.Spared s'.ledger := by
  obtain ⟨s₁, s₂, body, before, after⟩ := withLock_ledger run
  rw [after, ← before]
  rw [← before] at sound has
  obtain ⟨len, s₃, ⟨dm, found, rfl, rfl⟩, body⟩ := body
  dsimp only [ret_bind, bind_eq] at body
  split at body
  · obtain ⟨_, rfl⟩ := body
    exact sound.spared
  · rename_i length
    have none : dm.str.len = 0 := not_not.1 length
    obtain ⟨closed, s₄, close, body⟩ := body
    obtain ⟨str, o, munmapOk, object, _, after₄⟩ := Node.exec_close_ledger close
    cases object.symm.trans (Node.ledger_found found)
    have sound₄ : s₄.ledger.Sound := by
      rw [after₄]
      exact sound.replace object (close_valid (sound.storages _ _ _ object) munmapOk) id
    have same₄ : s₄.ledger.content = s₃.ledger.content := by
      rw [after₄]
      exact Ledger.content_setObject object (close_empty none munmapOk)
    have has₄ : s₄.ledger.Has p name r := by rw [after₄]; exact has
    have closed₄ : s₃.ledger.Spared s₄.ledger :=
      ⟨sound₄, fun q name' r' has => by rw [after₄] at has; exact has, fun _ _ r' _ => congrFun same₄ r'⟩
    refine closed₄.trans ?_
    cases closed with
    | false =>
      obtain ⟨_, rfl⟩ := body
      exact sound₄.spared
    | true =>
      dsimp only [ret_bind, bind_eq] at body
      obtain ⟨done, s₅, unregister, body⟩ := runs_bind.1 body
      rw [Config.snapshotCall, if_pos mode] at unregister
      obtain ⟨_, _, unregister, rfl, rfl⟩ := unregister
      have after₅ := Node.exec_unregister_ledger unregister
      cases done with
      | false =>
        obtain ⟨_, rfl⟩ := body
        rw [after₅]
        exact sound₄.spared
      | true =>
        obtain ⟨_, s₆, removed, _, s₇, counted, _, rfl⟩ := body
        have after₆ : s₂.ledger = (s₄.ledger.unregister p.id name).eraseName p name := by
          obtain rfl := removed
          rw [Node.exec_harmless counted trivial, Node.ledger_eraseName, after₅]
          rfl
        rw [after₆]
        exact ⟨sound₄.strike has₄, fun q name' r' has => (Ledger.eraseName_has.1 has).2, fun _ _ _ _ => rfl⟩

theorem deleteStaleDMaps_spares (mode : cfg.snapshotMode = true) (sound : s.ledger.Sound)
    (run : cfg.deleteStaleDMaps.Runs (Node.exec tid) s () s') : s.ledger.Spared s'.ledger := by
  let R (s s' : Node) : Prop := s.ledger.Sound → s.ledger.Spared s'.ledger
  have refl (s : Node) : R s s := fun sound => sound.spared
  have trans {a b c : Node} (first : R a b) (second : R b c) : R a c :=
    fun sound => (first sound).trans (second (first sound).sound)
  refine Runs.forEach_rel R refl trans (fun p _ s s' run => ?_) run sound
  obtain ⟨names, s₁, ⟨_, _, rfl⟩, run⟩ := run
  refine Runs.forEach_rel R refl trans (fun name _ s s' run sound => ?_) run
  obtain ⟨found, s₁, ⟨loaded, rfl⟩, run⟩ := run
  cases found with
  | none =>
    obtain ⟨_, rfl⟩ := run
    exact sound.spared
  | some r => exact deleteStaleDMap_spares mode sound loaded.symm run

theorem destroyIn_spares (mode : cfg.snapshotMode = true) (sound : s.ledger.Sound)
    (run : (cfg.destroyIn name p).Runs (Node.exec tid) s true s') : s.ledger.Spared s'.ledger := by
  obtain ⟨found, s₁, ⟨loaded, rfl⟩, run⟩ := run
  cases found with
  | none =>
    obtain ⟨_, rfl⟩ := run
    exact sound.spared
  | some r =>
    have has : s₁.ledger.Has p name r := loaded.symm
    obtain ⟨closed, s₂, close, run⟩ := run
    obtain ⟨str, o, munmapOk, object, _, after₂⟩ := Node.exec_close_ledger close
    cases closed with
    | false => cases run.1
    | true =>
      dsimp only [ret_bind, bind_eq] at run
      obtain ⟨done, s₃, destroy, run⟩ := runs_bind.1 run
      rw [Config.snapshotCall, if_pos mode] at destroy
      obtain ⟨_, _, destroy, rfl, rfl⟩ := destroy
      have after₃ := Node.exec_destroySnapshot_ledger destroy
      cases done with
      | false => cases run.1
      | true =>
        obtain ⟨_, s₄, removed, _, rfl⟩ := run
        obtain rfl := removed
        -- the object is closed when no name stands for it any more
        have struck := sound.strike has
        have unnamed (q : Place) (name' : Bytes) : ¬ ((s₁.ledger.unregister p.id name).eraseName p name).Has q
            name' r := by
          intro still
          obtain ⟨other, before⟩ := Ledger.eraseName_has.1 still
          obtain ⟨rfl, rfl⟩ := sound.once _ _ _ _ _ has before
          exact other ⟨rfl, rfl⟩
        have after : (s₃.setPartition p { s₃.partition p with m := (s₃.partition p).m.erase name }).ledger =
            ((s₁.ledger.unregister p.id name).eraseName p name).setObject r (str.close munmapOk).1 o := by
          rw [Node.ledger_eraseName, after₃, if_pos rfl, after₂]
          rfl
        rw [after]
        refine ⟨struck.setUnnamed unnamed (close_valid (sound.storages _ _ _ object) munmapOk),
          fun q name' r' has => (Ledger.eraseName_has.1 has).2, fun q name' r' has => ?_⟩
        have differs : r' ≠ r := by
          rintro rfl
          exact unnamed q name' has
        exact Ledger.content_of_objects (by rw [Ledger.setObject_objects, if_neg differs]; rfl)

theorem destroyEach_spares (mode : cfg.snapshotMode = true) (places : List Place) {answer : Response}
    (sound : s.ledger.Sound) (ok : answer ≠ .failed)
    (run : (cfg.destroyEach name places).Runs (Node.exec tid) s answer s') : s.ledger.Spared s'.ledger := by
  induction places generalizing s with
  | nil =>
    obtain ⟨_, rfl⟩ := run
    exact sound.spared
  | cons p places ih =>
    obtain ⟨done, s₁, destroy, run⟩ := runs_bind.1 run
    cases done with
    | false => exact absurd run.1 ok
    | true =>
      have first := destroyIn_spares mode sound destroy
      exact first.trans (ih first.sound run)

/-- The commands of a sync. -/
def Cmd.Syncs (c : Cmd) : Prop := c.Harmless ∨ (∃ r, c = .drain r) ∨ ∃ r ops, c = .relog r ops

theorem syncOps_syncs (ops : List (UInt64 × LogOp)) : (Config.syncOps r ops).Only Cmd.Syncs := by
  have kept {op : UInt64 × LogOp} {rest : Prog (List (UInt64 × LogOp))} (ih : rest.Only Cmd.Syncs) :
      (rest.bind fun failed => .ret (op :: failed)).Only Cmd.Syncs := ih.bind fun _ => .ret _
  induction ops with
  | nil => exact .ret _
  | cons op ops ih =>
    obtain ⟨hkey, op⟩ := op
    cases op with
    | put =>
      refine .call (.inl trivial) fun reply => ?_
      rcases reply with (_ | _ | _ | _ | _) | val
      case ok => exact .call (.inl trivial) fun done => by cases done <;> [exact kept ih; exact ih]
      case error.keyNotFound => exact ih
      all_goals exact kept ih
    | delete => exact .call (.inl trivial) fun done => by cases done <;> [exact kept ih; exact ih]

theorem sync_syncs {partID : UInt64} : (Config.sync partID).Only Cmd.Syncs := by
  have ends : (act .endSync).Only Cmd.Syncs := .call (.inl trivial) fun _ => .ret _
  refine .call (.inl trivial) fun logs => ?_
  dsimp only [ret_bind]
  refine Only.bind (Only.forEach fun log _ => ?_) fun _ => ends
  have body : (Config.syncDMap log.2).Only Cmd.Syncs := by
    refine .call (.inr (.inl ⟨_, rfl⟩)) fun wcopy => ?_
    dsimp only [ret_bind]
    split
    · exact .ret _
    · refine .call (.inl trivial) fun read => ?_
      cases read with
      | false => exact .ret _
      | true =>
        refine (syncOps_syncs _).bind fun failed => .call (.inl trivial) fun flushed => ?_
        cases flushed <;> exact .ret _
  exact body.bind fun failed => .call (.inr (.inr ⟨_, _, rfl⟩)) fun _ => .ret _

theorem relogged_spares {str : Storage} {log log' : Finmap fun _ : UInt64 => LogOp} {l : Ledger} (sound : l.Sound)
    (found : l.objects r = some (str, some log)) : l.Spared (l.setObject r str (some log')) :=
  ⟨sound.replace found (sound.storages _ _ _ found) id, fun _ _ _ has => has,
    fun _ _ r' _ => congrFun (Ledger.content_setObject found rfl) r'⟩

theorem sync_spares {partID : UInt64} (sound : s.ledger.Sound)
    (run : (Config.sync partID).Runs (Node.exec tid) s () s') : s.ledger.Spared s'.ledger := by
  let R (s s' : Node) : Prop := s.ledger.Sound → s.ledger.Spared s'.ledger
  refine sync_syncs.runs_rel R (fun s sound => sound.spared)
    (fun first second sound => (first sound).trans (second (first sound).sound)) ?_ run sound
  rintro _ c reply s s' syncs now sound
  rcases syncs with harmless | ⟨r, rfl⟩ | ⟨r, ops, rfl⟩
  · rw [Node.exec_harmless now harmless]
    exact sound.spared
  · obtain ⟨str, log, log', found, after⟩ := Node.exec_drain_ledger now
    rw [after]
    exact relogged_spares sound found
  · obtain ⟨str, log, log', found, after⟩ := Node.exec_relog_ledger now
    rw [after]
    exact relogged_spares sound found

/-- A restored dmap has its content already. -/
theorem restoreDMap_recorded {ok : Bool} (sound : s.ledger.Sound) (unnamed : ∀ p name, ¬ s.Has p name r)
    (alone : name ∉ s.ledger.names (Ledger.twin p))
    (run : (Config.restoreDMap p name r).Runs (Node.exec tid) s ok s') :
    s'.ledger.Sound ∧ s'.ledger.content = s.ledger.content := by
  obtain ⟨registered, s₁, register, run⟩ := run
  cases registered with
  | false =>
    obtain ⟨_, rfl⟩ := run
    obtain ⟨_, rfl⟩ := register
    exact ⟨sound, rfl⟩
  | true =>
    obtain ⟨_, s₂, locker, _, s₃, stored, _, s₄, counted, _, rfl⟩ := run
    obtain ⟨str, o, object, after₁⟩ := Node.exec_register_ledger register
    have after : s'.ledger = ((s.ledger.register p.id name r).setObject r str (some ∅)).setName p name r := by
      obtain rfl := stored
      rw [Node.exec_harmless counted trivial, Node.ledger_setName, Node.exec_harmless locker trivial, after₁]
    rw [after]
    have same : (s.ledger.register p.id name r).content = s.ledger.content := rfl
    refine ⟨sound.enroll object unnamed alone, ?_⟩
    rw [← same]
    exact Ledger.content_setObject object rfl

/-- One operation of a member that keeps its books. -/
theorem Config.Serves.books {sum64 : Bytes → UInt64} {op : MemberOp} (mode : cfg.snapshotMode = true)
    (sound : s.ledger.Sound) (books : cfg.Books sum64 s op) (serves : cfg.Serves sum64 s op s') :
    s'.ledger.Sound ∧ s.ledger.LogsChanges s'.ledger := by
  have unchanged (sound' : s'.ledger.Sound) (same : s'.ledger.content = s.ledger.content) :
      s'.ledger.Sound ∧ s.ledger.LogsChanges s'.ledger :=
    ⟨sound', fun _ _ r _ hkey change => absurd (congrFun (congrFun same r) hkey) change⟩
  cases serves with
  | request run =>
    have booked := handle_booked mode sound books.2 books.1 run
    exact ⟨booked.sound, booked.logsChanges⟩
  | @load _ r str free valid =>
    have unnamed := sound.unnamed (Node.ledger_missing free)
    rw [Node.ledger_setDMap]
    refine ⟨sound.setUnnamed unnamed (.inl valid), fun p name r' has hkey change => ?_⟩
    have differs : r' ≠ r := by
      rintro rfl
      exact unnamed p name has
    exact absurd (congrFun (Ledger.content_of_objects (by rw [Ledger.setObject_objects, if_neg differs])) hkey) change
  | restoreDMap unnamed run =>
    obtain ⟨sound', same⟩ := restoreDMap_recorded sound unnamed books run
    exact unchanged sound' same
  | deleteStaleDMaps run =>
    have spared := deleteStaleDMaps_spares mode sound run
    exact ⟨spared.sound, spared.logsChanges⟩
  | destroyDMapOperation run =>
    have spared := destroyEach_spares mode _ sound books run
    exact ⟨spared.sound, spared.logsChanges⟩
  | sync run =>
    have spared := sync_spares sound run
    exact ⟨spared.sound, spared.logsChanges⟩
  | @merge _ r dm order mmapOk done str found orders merged =>
    have object := Node.ledger_found found
    have tables : dm.str.tables ≠ [] := by
      intro empty
      simp [Storage.chunkedMergeTables, empty] at merged
    have separate : dm.str.layers.Separate := fun hkey => by
      rw [← Storage.copies_eq_holders]
      exact books dm hkey found
    obtain ⟨valid, same⟩ :=
      Storage.chunkedMergeTables_spec ((sound.storages _ _ _ object).resolve_right tables) orders
      separate merged
    rw [Node.ledger_setDMap] at unchanged ⊢
    exact unchanged (sound.replace object (.inl valid) id) (Ledger.content_setObject object same)

/-- Every dmap of the partitions has a registered oplog, and every operation logs what it changes. -/
theorem dmaps_recorded {sum64 : Bytes → UInt64} (mode : cfg.snapshotMode = true) {ops : List MemberOp}
    (run : (cfg.snapshotMember sum64).Run (cfg.Books sum64) ops s) : s.ledger.Recorded ∧
      ∀ op s', cfg.Books sum64 s op → cfg.Serves sum64 s op s' → s.ledger.LogsChanges s'.ledger := by
  have sound : s.ledger.Sound := by
    refine run.invariant (fun s => s.ledger.Sound) ?_ fun s op s' sound books serves =>
      (serves.books mode sound books).1
    rintro s ⟨names, objects⟩
    have empty (p : Place) (name : Bytes) (r : Ref) : ¬ s.ledger.Has p name r := by
      simp [Ledger.Has, Node.ledger, names]
    exact ⟨fun p name r has => absurd has (empty p name r), by simp [Node.ledger, objects],
      fun p name mem => absurd mem (by simp [Node.ledger, names, Finmap.notMem_empty]),
      fun p q name name' r has => absurd has (empty p name r)⟩
  exact ⟨sound.recorded, fun op s' books serves => (serves.books mode sound books).2⟩

end

/-- A member in snapshot mode. -/
def savingConfig : Config := { soloConfig with snapshotMode := true }

theorem emptyNode_starts : (savingConfig.snapshotMember fun _ => 7).init emptyNode := ⟨fun _ => rfl, fun _ => rfl⟩

/-- The first request for a dmap makes it. -/
theorem requested_dmap_recorded : ∃ s, (savingConfig.snapshotMember fun _ => 7).Run (savingConfig.Books fun _ => 7)
    [.request (.getBackup [100] [107]) .keyNotFound] s ∧ s.ledger.Has ⟨true, 0⟩ [100] 0 ∧ s.ledger.Recorded ∧
      ∀ op s', savingConfig.Books (fun _ => 7) s op → savingConfig.Serves (fun _ => 7) s op s' →
        s.ledger.LogsChanges s'.ledger := by
  have start : (savingConfig.handle (fun _ => 7) (.getBackup [100] [107])).Reaches (Node.exec 0) emptyNode _ _ :=
    .refl
  have looks := start.andThen (c := Cmd.load ⟨true, 0⟩ [100]) none ⟨by simp [emptyNode], rfl⟩
  have locks := looks.andThen (c := Cmd.lockPartition ⟨true, 0⟩) () ⟨rfl, rfl⟩
  have looksAgain := locks.andThen (c := Cmd.load ⟨true, 0⟩ [100]) none ⟨by simp [emptyNode, Node.setPartition], rfl⟩
  have creates := looksAgain.andThen (c := Cmd.newStorage) (some 0) ⟨rfl, _, rfl, rfl⟩
  have locker := creates.andThen (c := Cmd.setLocker 0) () ⟨_, rfl, rfl⟩
  have registers := locker.andThen (c := Cmd.register ⟨true, 0⟩ [100] 0) true ⟨rfl, _, rfl, rfl⟩
  have stores := registers.andThen (c := Cmd.store ⟨true, 0⟩ [100] 0) () rfl
  have counts := stores.andThen (c := Cmd.addCount ⟨true, 0⟩ 1) () rfl
  have unlocks := counts.andThen (c := Cmd.unlockPartition ⟨true, 0⟩) () rfl
  have misses := unlocks.andThen (c := Cmd.get 0 7) (.error .keyNotFound) ⟨_, rfl, rfl, rfl⟩
  have served := misses.runs (a := Response.keyNotFound)
  have run : (savingConfig.snapshotMember fun _ => 7).Run (savingConfig.Books fun _ => 7)
      ([] ++ [.request (.getBackup [100] [107]) .keyNotFound]) _ :=
    .next (.start emptyNode_starts) ⟨trivial, Finmap.notMem_empty⟩ (.request served)
  refine ⟨_, run, ?_, dmaps_recorded rfl run⟩
  simp [Ledger.Has, Node.ledger, emptyNode, Node.setPartition, Node.setDMap, Node.setOplogs]

/-- A dmap that comes from another member has no oplog. -/
theorem moved_dmap_not_recorded : ∃ s r str, (savingConfig.snapshotMember fun _ => 7).AnyRun
    [.request (.moveDMap false incoming) (.ok [])] s ∧ s.ledger.Has ⟨false, 0⟩ [100] r ∧
      s.ledger.objects r = some (str, none) ∧ ¬ s.ledger.Recorded := by
  obtain ⟨str, imported⟩ : ∃ str, Storage.importTable true ⟨∅, [0], 0, 1048576, 0, 0⟩ = .ok str := ⟨_, rfl⟩
  have merged : ∃ s, (Config.mergeDMaps ⟨false, 0⟩ incoming).Runs (Node.exec 0) emptyNode (.ok []) s ∧
      s.ledger.Has ⟨false, 0⟩ [100] 0 ∧ s.ledger.objects 0 = some (str, none) := by
    dsimp only [Config.mergeDMaps, incoming, bind_eq, act, call_bind, ret_bind, pure_eq, Config.newOwnerLocker]
    refine ⟨_, runs_call.2 ⟨some 0, _, ⟨rfl, str, imported, rfl⟩, runs_call.2 ⟨none, _, ⟨?_, rfl⟩, runs_call.2 ⟨(), _,
      ⟨_, rfl, rfl⟩, runs_call.2 ⟨(), _, rfl, rfl, rfl⟩⟩⟩⟩, ?_, ?_⟩
    · simp [emptyNode, Node.setDMap]
    · simp [Ledger.Has, Node.ledger, emptyNode, Node.setPartition, Node.setDMap]
    · simp [Node.ledger, emptyNode, Node.setPartition, Node.setDMap]
  obtain ⟨s, merged, has, object⟩ := merged
  have run : (savingConfig.snapshotMember fun _ => 7).AnyRun ([] ++ [.request (.moveDMap false incoming) (.ok [])])
      s :=
    .next (.start emptyNode_starts) trivial (.request merged)
  refine ⟨s, 0, str, run, has, object, fun recorded => ?_⟩
  obtain ⟨_, _, _, found⟩ := recorded _ _ _ has
  cases object.symm.trans found

end Olric
