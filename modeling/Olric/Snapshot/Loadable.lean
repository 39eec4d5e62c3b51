import Olric.Snapshot.Keyed
import Olric.Snapshot.Loader

namespace Olric

/-- The record is of the kind that its key is for, and a value fits into a fresh table. -/
def Record.Fits (key : Bytes) : Record → Prop
  | .dmaps _ => ∃ dkey : DKey, key = dkey.bytes
  | .hkeys _ => ∃ partID name, key = dmapKey partID name
  | .raw val => (∃ hkey, key = bkey hkey) ∧ val.length < 2 ^ 20

def Badger.Fits (db : Badger) : Prop := ∀ key record, db key = some record → record.Fits key

/-- No hkey of a registered dmap is without its value. -/
def Badger.NoneMissing (db : Badger) : Prop := ∀ dkey partID name hkeys hkey,
  db.Registered dkey partID name → db.hkeys partID name = .ok hkeys → hkey ∈ hkeys → db (bkey hkey) ≠ none

namespace Badger

variable {owner : UInt64 → Bytes} {db : Badger} {dkey : DKey} {partID : UInt64} {name : Bytes}

theorem Fits.hkeysOrNew (fits : db.Fits) (partID : UInt64) (name : Bytes) :
    ∃ hkeys, db.hkeysOrNew partID name = .ok hkeys := by
  unfold Badger.hkeysOrNew Badger.hkeys
  cases found : db (dmapKey partID name) with
  | none => exact ⟨∅, rfl⟩
  | some record =>
    have kind := fits _ _ found
    cases record with
    | dmaps =>
      obtain ⟨dkey, same⟩ := kind
      exact absurd same (dmapKey_ne_dkey partID name dkey)
    | hkeys hkeys => exact ⟨hkeys, rfl⟩
    | raw =>
      obtain ⟨⟨hkey, same⟩, _⟩ := kind
      exact absurd same.symm (bkey_ne_dmapKey hkey partID name)

theorem Fits.dmaps (fits : db.Fits) {e : BadgerError} (failed : db.dmaps dkey = .error e) : e = .keyNotFound := by
  unfold Badger.dmaps at failed
  cases found : db dkey.bytes with
  | none =>
    rw [found] at failed
    cases failed
    rfl
  | some record =>
    rw [found] at failed
    have kind := fits _ _ found
    cases record with
    | dmaps => cases failed
    | hkeys =>
      obtain ⟨partID, name, same⟩ := kind
      exact absurd same.symm (dmapKey_ne_dkey partID name dkey)
    | raw =>
      obtain ⟨⟨hkey, same⟩, _⟩ := kind
      exact absurd same.symm (bkey_ne_dkey hkey dkey)

theorem Fits.raw (fits : db.Fits) {hkey : UInt64} (present : db (bkey hkey) ≠ none) :
    ∃ val, db (bkey hkey) = some (.raw val) ∧ val.length < 2 ^ 20 := by
  obtain ⟨record, found⟩ := Option.ne_none_iff_exists'.1 present
  have kind := fits _ _ found
  cases record with
  | dmaps =>
    obtain ⟨dkey, same⟩ := kind
    exact absurd same (bkey_ne_dkey hkey dkey)
  | hkeys =>
    obtain ⟨partID, name, same⟩ := kind
    exact absurd same (bkey_ne_dmapKey hkey partID name)
  | raw val => exact ⟨val, found, kind.2⟩

theorem Fits.set {key : Bytes} {record : Record} (fits : db.Fits) (fit : record.Fits key) :
    (db.set key record).Fits := by
  intro other record' found
  by_cases same : other = key
  · subst same
    rw [Badger.set, Function.update_self] at found
    cases found
    exact fit
  · rw [Badger.set, Function.update_of_ne same] at found
    exact fits other record' found

/-- Rewriting the names of a dkey keeps every value, unless a name comes in that misses one. -/
theorem NoneMissing.set_dmaps {value : Finset (UInt64 × Bytes)} (whole : db.NoneMissing)
    (names : ∀ partID name, (partID, name) ∈ value → db.Registered dkey partID name ∨
      ∀ hkeys, db.hkeys partID name = .ok hkeys → ∀ hkey ∈ hkeys, db (bkey hkey) ≠ none) :
    (db.set dkey.bytes (.dmaps value)).NoneMissing := by
  rintro other partID name hkeys hkey ⟨dmaps, listed, mem⟩ found inside
  rw [set_dkey_hkeys] at found
  rw [set_dkey_bkey]
  rw [set_dkey_dmaps] at listed
  split at listed
  · cases listed
    rcases names partID name mem with registered | values
    · exact whole dkey partID name hkeys hkey registered found inside
    · exact values hkeys found hkey inside
  · exact whole other partID name hkeys hkey ⟨dmaps, listed, mem⟩ found inside

/-- The store after a flush of changes to the values of a dmap with their record. -/
theorem Fits.flush {hkeys : Finset UInt64} {log : OpLog} {wb : Batch} (fits : db.Fits) (made : wb.From db hkeys log)
    (small : ∀ hkey val, log.str.getRaw hkey = .ok (.ok val) → val.length < 2 ^ 20) :
    (wb.db.set (dmapKey partID name) (.hkeys wb.hkeys)).Fits := by
  have inner : wb.db.Fits := by
    intro key record found
    by_cases value : ∃ hkey, key = bkey hkey
    · obtain ⟨hkey, rfl⟩ := value
      rcases made.values hkey with same | none | ⟨val, stored, same⟩
      · exact fits _ _ (same.symm.trans found)
      · rw [none] at found
        cases found
      · cases same.symm.trans found
        exact ⟨⟨hkey, rfl⟩, small hkey val stored⟩
    · rw [made.outside key fun hkey _ eq => value ⟨hkey, eq⟩] at found
      exact fits key record found
  exact inner.set ⟨partID, name, rfl⟩

theorem NoneMissing.flush {hkeys : Finset UInt64} {log : OpLog} {wb : Batch}
    (lists : db.Lists fun hkey key => owner hkey = key) (whole : db.NoneMissing)
    (start : db.hkeysOrNew partID name = .ok hkeys) (made : wb.From db hkeys log)
    (logged : ∀ hkey ∈ log.m, owner hkey = dmapKey partID name) :
    (wb.db.set (dmapKey partID name) (.hkeys wb.hkeys)).NoneMissing := by
  rintro dkey p n listed hkey ⟨dmaps, names, mem⟩ found inside
  have registered : db.Registered dkey p n := by
    refine ⟨dmaps, ?_, mem⟩
    rw [dmaps_ok, Badger.set, Function.update_of_ne (dmapKey_ne_dkey partID name dkey).symm] at names
    rw [dmaps_ok, ← names, made.outside _ fun hkey _ => (bkey_ne_dkey hkey dkey).symm]
  rw [Badger.set, Function.update_of_ne (bkey_ne_dmapKey hkey partID name)]
  rw [hkeys_ok] at found
  by_cases same : dmapKey p n = dmapKey partID name
  · rw [same, Badger.set, Function.update_self] at found
    cases found
    rcases made.kept hkey inside with ⟨val, stored⟩ | ⟨kept, stored⟩
    · rw [stored]
      exact Option.some_ne_none _
    · rw [stored]
      rcases hkeysOrNew_ok start with known | ⟨_, none⟩
      · refine whole dkey p n hkeys hkey registered ?_ kept
        rw [hkeys_ok, same]
        exact hkeys_ok.1 known
      · rw [none] at kept
        exact absurd kept (Finset.notMem_empty hkey)
  · have before : db.hkeys p n = .ok listed := by
      rw [Badger.set, Function.update_of_ne same, made.outside _ fun hkey _ => (bkey_ne_dmapKey hkey p n).symm]
        at found
      exact hkeys_ok.2 found
    have foreign : ∀ other ∈ log.m, bkey hkey ≠ bkey other := by
      intro other mem eq
      cases bkey_injective eq
      exact same ((lists _ _ (hkeys_ok.1 before) hkey inside).symm.trans (logged hkey mem))
    rw [made.outside _ foreign]
    exact whole dkey p n listed hkey registered before inside

theorem Fits.deleteValues (fits : db.Fits) (hkeys : Finset UInt64) : (db.deleteValues hkeys).Fits := by
  intro key record found
  unfold Badger.deleteValues at found
  split at found
  · cases found
  · exact fits key record found

/-- Deleting the values of a dmap hurts the names that share its record of hkeys only. -/
theorem NoneMissing.deleteValues {hkeys : Finset UInt64} (lists : db.Lists fun hkey key => owner hkey = key)
    (whole : db.NoneMissing)
    (found : db.hkeys partID name = .ok hkeys)
    (names : ∀ dkey p n, db.Registered dkey p n → dmapKey p n ≠ dmapKey partID name) :
    (db.deleteValues hkeys).NoneMissing := by
  rintro dkey p n listed hkey ⟨dmaps, known, mem⟩ found' inside
  rw [deleteValues_dmaps] at known
  rw [deleteValues_hkeys] at found'
  have registered : db.Registered dkey p n := ⟨dmaps, known, mem⟩
  have foreign : hkey ∉ hkeys := by
    intro mine
    have here := lists _ _ (hkeys_ok.1 found) hkey mine
    have there := lists _ _ (hkeys_ok.1 found') hkey inside
    exact names dkey p n registered (there.symm.trans here)
  rw [deleteValues_bkey, if_neg foreign]
  exact whole dkey p n listed hkey registered found' inside

end Badger

namespace Snapshot

variable {hashing : Hashing} {owner : UInt64 → Bytes} {s s' : Snapshot}

/-- What makes a snapshot loadable. -/
structure Sound (owner : UInt64 → Bytes) (s : Snapshot) : Prop where
  keyed : s.Keyed fun hkey key => owner hkey = key
  fits : s.db.Fits
  whole : s.db.NoneMissing

/-- The entries in the storages of a partition's registered dmaps fit into a fresh table. -/
def SmallValues (s : Snapshot) (partID : UInt64) : Prop := ∀ name h log hkey val,
  (s.oplogs partID).lookup name = some h → s.logs h = some log → log.str.getRaw hkey = .ok (.ok val) →
    val.length < 2 ^ 20

/-- Each hkey belongs to one record of hkeys, that of the dmap of every put and delete on it. A
dmap is not created over a record whose values are gone, a destroy takes the only name that uses
the record out of the registry, and a sync that writes values writes their record, too. -/
def KeepsLoadable (hashing : Hashing) (owner : UInt64 → Bytes) (s : Snapshot) : SnapshotOp → Prop
  | .create h => ∀ hkeys, s.db.hkeys h.partID h.name = .ok hkeys → ∀ hkey ∈ hkeys, s.db (bkey hkey) ≠ none
  | .put h key _ _ _ => owner (getHKey hashing.sum64 h.name key) = dmapKey h.partID h.name
  | .delete h key _ _ => owner (getHKey hashing.sum64 h.name key) = dmapKey h.partID h.name
  | .sync partID out => (∀ name, (out name).record = true) ∧ s.SmallValues partID
  | .destroy dkey partID name => ∀ hkeys, s.db.hkeys partID name = .ok hkeys → hkeys.Nonempty →
      (s.oplogs partID).entries ≠ [] ∧ ∀ dkey' partID' name', s.db.Registered dkey' partID' name' →
        dmapKey partID' name' = dmapKey partID name → dkey' = dkey ∧ partID' = partID ∧ name' = name
  | _ => True

theorem KeepsLoadable.usesOwn {op : SnapshotOp} (allowed : s.KeepsLoadable hashing owner op) :
    UsesOwn hashing (fun hkey key => owner hkey = key) op := by
  cases op with
  | put | delete => exact allowed
  | create | merge | mergeExit | sync | unregister | destroy => trivial

/-- What happens to the store when a dmap is registered. -/
theorem Sound.register {h : Handle} {str : Storage} (sound : s.Sound owner)
    (values : ∀ hkeys, s.db.hkeys h.partID h.name = .ok hkeys → ∀ hkey ∈ hkeys, s.db (bkey hkey) ≠ none)
    (run : s.Registers h str s') : s'.db.Fits ∧ s'.db.NoneMissing := by
  obtain ⟨value, same, old⟩ := Badger.registerOnBadger_ok run.db
  rw [same]
  refine ⟨sound.fits.set ⟨h.dkey, rfl⟩, sound.whole.set_dmaps fun partID name mem => ?_⟩
  rcases Finset.mem_insert.1 mem with new | mem
  · cases new
    exact .inr values
  · obtain ⟨dmaps, found, mem⟩ := (old _).1 mem
    exact .inl ⟨dmaps, found, mem⟩

theorem Sound.unregisterDMap (sound : s.Sound owner) (dkey : DKey) (partID : UInt64) (name : Bytes) :
    (s.unregisterDMap dkey partID name).1.db.Fits ∧ (s.unregisterDMap dkey partID name).1.db.NoneMissing := by
  rcases unregisterDMap_cases s dkey partID name with ⟨same, _⟩ | run
  · rw [same]
    exact ⟨sound.fits, sound.whole⟩
  · obtain ⟨value, found, same⟩ := Badger.unregisterOnBadger_ok run.db
    rw [same]
    exact ⟨sound.fits.set ⟨dkey, rfl⟩,
      sound.whole.set_dmaps fun partID name mem => .inl ⟨value, found, Finset.mem_of_mem_erase mem⟩⟩

/-- The storages of the registered dmaps of a partition, which a sync does not change. -/
theorem SmallValues.setLog {partID : UInt64} {h : Handle} {log log' : OpLog} {db : Badger}
    (small : s.SmallValues partID) (found : s.logs h = some log) (same : log'.str = log.str) :
    ({ s with db := db }.setLog h log').SmallValues partID := by
  intro name h' other hkey val registered found' stored
  rcases setLog_found.1 found' with ⟨rfl, rfl⟩ | ⟨_, found'⟩
  · rw [same] at stored
    exact small name h' log hkey val registered found stored
  · exact small name h' other hkey val registered found' stored

theorem Sound.syncEntry {partID : UInt64} {name : Bytes} {h : Handle} {out : Bytes → SyncOutcome}
    (sound : s.Sound owner) (registered : (s.oplogs partID).lookup name = some h)
    (recorded : (out name).record = true) (small : s.SmallValues partID)
    (run : s.syncEntry partID out name h = .ok s') : s'.Sound owner := by
  have keyed := sound.keyed.syncEntry registered run
  rcases syncEntry_cases run with ⟨_, rfl⟩ | ⟨log, db, failed, found, synced, rfl⟩
  · exact sound
  obtain ⟨rfl, rfl⟩ := sound.keyed.placed partID name h registered
  rcases (syncDMap_cases synced).2 with ⟨rfl, _⟩ | ⟨hkeys, wb, start, made, ⟨_, rfl⟩ | ⟨unrecorded, _⟩⟩
  · exact ⟨keyed, sound.fits, sound.whole⟩
  · exact ⟨keyed, sound.fits.flush made fun hkey val => small h.name h log hkey val registered found,
      sound.whole.flush sound.keyed.lists start made fun hkey => sound.keyed.logged h log hkey found⟩
  · rw [recorded] at unrecorded
    cases unrecorded

theorem Sound.sync {partID : UInt64} {out : Bytes → SyncOutcome} (sound : s.Sound owner)
    (recorded : ∀ name, (out name).record = true) (small : s.SmallValues partID)
    (run : s.sync partID out = .ok s') : s'.Sound owner ∧ ∀ p, s.SmallValues p → s'.SmallValues p := by
  refine sync_induct (fun mid => mid.Sound owner ∧ ∀ p, s.SmallValues p → mid.SmallValues p) ?_
    ⟨sound, fun _ small => small⟩ run
  rintro mid mid' name h registered same ⟨sound, smalls⟩ now
  rw [← same] at registered
  refine ⟨sound.syncEntry registered (recorded name) (smalls partID small) now, fun p small => ?_⟩
  rcases syncEntry_cases now with ⟨_, rfl⟩ | ⟨log, db, failed, found, _, rfl⟩
  · exact smalls p small
  · exact (smalls p small).setLog found rfl

theorem Sound.destroyDMap {dkey : DKey} {partID : UInt64} {name : Bytes} (sound : s.Sound owner)
    (allowed : s.KeepsLoadable hashing owner (.destroy dkey partID name)) :
    (s.destroyDMap dkey partID name).1.db.Fits ∧ (s.destroyDMap dkey partID name).1.db.NoneMissing := by
  rcases destroyDMap_cases s dkey partID name with same | ⟨hkeys, found, same⟩
  · rw [same]
    exact ⟨sound.fits, sound.whole⟩
  rw [same]
  rcases hkeys.eq_empty_or_nonempty with rfl | nonempty
  · rw [Badger.deleteValues_empty]
    exact sound.unregisterDMap dkey partID name
  obtain ⟨used, alone⟩ := allowed hkeys found nonempty
  rcases unregisterDMap_cases { s with db := s.db.deleteValues hkeys } dkey partID name with
    ⟨same, none | ⟨e, failed⟩⟩ | run
  · exact absurd none used
  · rw [same]
    refine ⟨sound.fits.deleteValues hkeys, sound.whole.deleteValues sound.keyed.lists found ?_⟩
    intro dkey' p n registered shared
    obtain ⟨rfl, rfl, rfl⟩ := alone dkey' p n registered shared
    obtain ⟨dmaps, known, _⟩ := registered
    have known' := (Badger.deleteValues_dmaps hkeys dkey').trans known
    simp [Badger.unregisterOnBadger, known'] at failed
  · obtain ⟨value, known, stored⟩ := Badger.unregisterOnBadger_ok run.db
    rw [Badger.deleteValues_dmaps] at known
    rw [Badger.deleteValues_set_dkey] at stored
    have fits : (s.db.set dkey.bytes (.dmaps (value.erase (partID, name)))).Fits := sound.fits.set ⟨dkey, rfl⟩
    have whole : (s.db.set dkey.bytes (.dmaps (value.erase (partID, name)))).NoneMissing :=
      sound.whole.set_dmaps fun p n mem => .inl ⟨value, known, Finset.mem_of_mem_erase mem⟩
    rw [stored]
    refine ⟨fits.deleteValues hkeys,
      whole.deleteValues (sound.keyed.lists.set_dmaps _) ((Badger.set_dkey_hkeys _).trans found) ?_⟩
    rintro dkey' p n ⟨dmaps, listed, mem⟩ shared
    rw [Badger.set_dkey_dmaps] at listed
    split at listed
    · rename_i same
      subst same
      cases listed
      obtain ⟨_, rfl, rfl⟩ := alone dkey' p n ⟨value, known, Finset.mem_of_mem_erase mem⟩ shared
      exact Finset.ne_of_mem_erase mem rfl
    · rename_i other
      exact other (alone dkey' p n ⟨dmaps, listed, mem⟩ shared).1

theorem Sound.step {op : SnapshotOp} (sound : s.Sound owner) (allowed : s.KeepsLoadable hashing owner op)
    (step : Step hashing s op s') : s'.Sound owner := by
  have keyed := sound.keyed.step allowed.usesOwn step
  have store : s'.db.Fits ∧ s'.db.NoneMissing := by
    cases step with
    | @create h str _ _ =>
      rcases registerDMap_cases s h str with ⟨same, _⟩ | run
      · rw [same]
        exact ⟨sound.fits, sound.whole⟩
      · exact sound.register allowed run
    | put | delete | merge | mergeExit => exact ⟨sound.fits, sound.whole⟩
    | sync run =>
      have after := (sound.sync allowed.1 allowed.2 run).1
      exact ⟨after.fits, after.whole⟩
    | unregister => exact sound.unregisterDMap _ _ _
    | destroy => exact sound.destroyDMap allowed
  exact ⟨keyed, store.1, store.2⟩

theorem sound_empty : empty.Sound owner where
  keyed := keyed_empty
  fits key record found := by cases found
  whole dkey partID name hkeys hkey registered := by
    obtain ⟨dmaps, found, _⟩ := registered
    cases found

/-- The worker of the partition has something to sync for the dmap. -/
def Pending (s : Snapshot) (partID : UInt64) (name : Bytes) : Prop := s.workers partID = some .running ∧
  ∃ h log, (s.oplogs partID).lookup name = some h ∧ s.logs h = some log ∧ log.m.entries ≠ []

/-- The state that a shutdown starts from: every registered dmap has its record of hkeys on disk
or will get it by the last sync, and what there is to sync fits into a fresh table. -/
structure ReadyToStop (s : Snapshot) : Prop where
  small : ∀ partID, s.SmallValues partID
  recorded : ∀ dkey partID name, s.db.Registered dkey partID name →
    s.db (dmapKey partID name) ≠ none ∨ s.Pending partID name

section

variable {partID : UInt64} {name : Bytes} {h : Handle} {out : Bytes → SyncOutcome} {key : Bytes}

/-- A record of hkeys does not go away. -/
theorem record_kept {p : UInt64} {n : Bytes} (recorded : s.db (dmapKey p n) ≠ none)
    (run : s.syncEntry partID out name h = .ok s') : s'.db (dmapKey p n) ≠ none := by
  rcases syncEntry_cases run with ⟨_, rfl⟩ | ⟨log, db, failed, _, synced, rfl⟩
  · exact recorded
  by_cases same : dmapKey p n = dmapKey partID name
  · rcases (syncDMap_cases synced).2 with ⟨rfl, _⟩ | ⟨hkeys, wb, _, made, ⟨_, rfl⟩ | ⟨_, rfl⟩⟩
    · exact recorded
    · rw [same]
      simp [Badger.set]
    · have kept := made.outside (dmapKey p n) fun hkey _ => (bkey_ne_dmapKey hkey p n).symm
      exact fun none => recorded (kept.symm.trans none)
  · have kept := syncDMap_frame synced same fun hkey _ => (bkey_ne_dmapKey hkey p n).symm
    exact fun none => recorded (kept.symm.trans none)

/-- A successful sync of logged operations writes the record. -/
theorem record_of_syncEntry {log : OpLog} (sound : s.Sound owner) (success : out name = .success)
    (found : s.logs h = some log) (pending : log.m.entries ≠ []) (run : s.syncEntry partID out name h = .ok s') :
    s'.db (dmapKey partID name) ≠ none := by
  rcases syncEntry_cases run with ⟨absent, _⟩ | ⟨log', db, failed, found', synced, rfl⟩
  · rw [found] at absent
    cases absent
  cases found.symm.trans found'
  rw [success] at synced
  rcases (syncDMap_cases synced).2 with ⟨_, none | unread | unflushed | ⟨e, failed⟩⟩ | ⟨hkeys, wb, _, _,
    ⟨_, rfl⟩ | ⟨no, _⟩⟩
  · exact absurd none pending
  · cases unread
  · cases unflushed
  · obtain ⟨hkeys, ok⟩ := sound.fits.hkeysOrNew partID name
    rw [ok] at failed
    cases failed
  · simp [Badger.set]
  · cases no

theorem syncEach_records {entries : List (Sigma fun _ : Bytes => Handle)} {log : OpLog} (sound : s.Sound owner)
    (small : s.SmallValues partID) (success : ∀ name, out name = .success)
    (registered : ∀ e ∈ entries, (s.oplogs partID).lookup e.1 = some e.2) (mem : ⟨name, h⟩ ∈ entries)
    (found : s.logs h = some log) (pending : log.m.entries ≠ []) (run : s.syncEach partID out entries = .ok s') :
    s'.db (dmapKey partID name) ≠ none := by
  induction entries generalizing s with
  | nil => cases mem
  | cons e entries ih =>
    obtain ⟨mid, first, rest⟩ := syncEach_cons run
    by_cases same : e = ⟨name, h⟩
    · subst same
      exact syncEach_induct (fun mid => mid.db (dmapKey partID name) ≠ none) (fun _ _ _ _ kept now =>
        record_kept kept now)
        (record_of_syncEntry sound (success name) found pending first) rest
    · have here := registered e (.head _)
      have oplogs := (syncEntry_frame first).2
      have other : e.2 ≠ h := by
        intro eq
        have mine := (sound.keyed.placed partID e.1 e.2 here).2
        have theirs := (sound.keyed.placed partID name h (registered ⟨name, h⟩ mem)).2
        rw [eq, theirs] at mine
        exact same (Sigma.ext mine.symm (heq_of_eq eq))
      have sound' := sound.syncEntry here (by rw [success]; rfl) small first
      rcases syncEntry_cases first with ⟨_, rfl⟩ | ⟨log', db, failed, found', _, rfl⟩
      · exact ih sound small (fun e mem => registered e (.tail _ mem))
          ((List.mem_cons.1 mem).resolve_left (Ne.symm same))
          found rest
      · exact ih sound' (small.setLog found' rfl) (fun e mem => registered e (.tail _ mem))
          ((List.mem_cons.1 mem).resolve_left (Ne.symm same)) (setLog_found.2 (.inr ⟨other.symm, found⟩)) rest

/-- The last sync of a partition leaves a record for each dmap that had something to sync, and does
not touch the other partitions. -/
theorem recorded_or_pending_sync (sound : s.Sound owner) (small : s.SmallValues partID)
    (success : ∀ name, out name = .success) {p : UInt64} {n : Bytes}
    (before : s.db (dmapKey p n) ≠ none ∨ s.Pending p n) (run : s.sync partID out = .ok s') :
    s'.db (dmapKey p n) ≠ none ∨ p ≠ partID ∧ s'.Pending p n := by
  rcases before with recorded | ⟨running, h, log, registered, found, pending⟩
  · exact .inl (sync_induct (fun mid => mid.db (dmapKey p n) ≠ none)
      (fun _ _ _ _ _ _ kept now => record_kept kept now) recorded run)
  by_cases same : p = partID
  · subst same
    rw [sync, if_pos running] at run
    exact .inl (syncEach_records sound small success (fun e mem => AList.mem_lookup_iff.2 mem)
      (AList.mem_lookup_iff.1 registered) found pending run)
  · obtain ⟨workers, oplogs⟩ := sync_frame run
    have kept : s'.logs h = some log := by
      refine sync_induct (fun mid => mid.logs h = some log) ?_ found run
      intro mid mid' name h' registered' _ kept now
      rcases syncEntry_cases now with ⟨_, rfl⟩ | ⟨_, _, _, _, _, rfl⟩
      · exact kept
      · refine setLog_found.2 (.inr ⟨?_, kept⟩)
        rintro rfl
        exact same ((sound.keyed.placed p n h registered).1.symm.trans
          (sound.keyed.placed partID name h registered').1)
    refine .inr ⟨same, ?_, h, log, ?_, kept, pending⟩
    · rw [workers]
      exact running
    · rw [oplogs]
      exact registered

end

theorem sync_dmaps {partID : UInt64} {out : Bytes → SyncOutcome} (run : s.sync partID out = .ok s') (dkey : DKey) :
    s'.db dkey.bytes = s.db dkey.bytes := by
  refine sync_induct (fun mid => mid.db dkey.bytes = s.db dkey.bytes) ?_ rfl run
  intro mid mid' name h _ _ same now
  rw [← same]
  rcases syncEntry_cases now with ⟨_, rfl⟩ | ⟨log, db, failed, _, synced, rfl⟩
  · rfl
  · exact syncDMap_frame synced (dmapKey_ne_dkey partID name dkey).symm fun hkey _ => (bkey_ne_dkey hkey dkey).symm

/-- After the last syncs every registered dmap has its record of hkeys. -/
theorem recorded_of_shutdown {out : UInt64 → Bytes → SyncOutcome} {partIDs : List UInt64} (sound : s.Sound owner)
    (small : ∀ partID, s.SmallValues partID) (success : ∀ partID name, out partID name = .success)
    (recorded : ∀ dkey partID name, s.db.Registered dkey partID name →
      s.db (dmapKey partID name) ≠ none ∨ partID ∈ partIDs ∧ s.Pending partID name)
    (run : s.shutdown out partIDs = .ok s') : s'.Sound owner ∧
      ∀ dkey partID name, s'.db.Registered dkey partID name → s'.db (dmapKey partID name) ≠ none := by
  induction partIDs generalizing s with
  | nil =>
    cases run
    refine ⟨sound, fun dkey partID name registered => ?_⟩
    rcases recorded dkey partID name registered with there | ⟨mem, _⟩
    · exact there
    · cases mem
  | cons partID partIDs ih =>
    cases first : s.sync partID (out partID) with
    | error halt =>
      rw [shutdown, first] at run
      cases run
    | ok mid =>
      rw [shutdown, first] at run
      obtain ⟨sound', smalls⟩ := sound.sync (fun name => by rw [success]; rfl) (small partID) first
      refine ih sound' (fun p => smalls p (small p)) ?_ run
      rintro dkey p n ⟨dmaps, found, mem⟩
      have before : s.db.Registered dkey p n := by
        rw [Badger.dmaps_ok, sync_dmaps first] at found
        exact ⟨dmaps, Badger.dmaps_ok.2 found, mem⟩
      have split : s.db (dmapKey p n) ≠ none ∨ s.Pending p n := (recorded dkey p n before).imp_right And.right
      rcases recorded_or_pending_sync sound (small partID) (success partID) split first with there | ⟨other, pending⟩
      · exact .inl there
      · rcases recorded dkey p n before with there | ⟨listed, _⟩
        · exact .inl (sync_induct (fun mid => mid.db (dmapKey p n) ≠ none)
            (fun _ _ _ _ _ _ kept now => record_kept kept now) there first)
        · exact .inr ⟨(List.mem_cons.1 listed).resolve_left other, pending⟩

theorem Sound.complete (sound : s.Sound owner)
    (recorded : ∀ dkey partID name, s.db.Registered dkey partID name → s.db (dmapKey partID name) ≠ none)
    (dkey : DKey) : s.db.Complete dkey := by
  intro partID name registered
  have present := recorded dkey partID name registered
  obtain ⟨hkeys, started⟩ := sound.fits.hkeysOrNew partID name
  rcases Badger.hkeysOrNew_ok started with found | ⟨missing, _⟩
  · refine ⟨hkeys, found, fun hkey mem => ?_⟩
    obtain ⟨val, stored, _⟩ := sound.fits.raw (sound.whole dkey partID name hkeys hkey registered found mem)
    exact ⟨val, stored⟩
  · exact absurd missing present

theorem getRaw_of_table {t : Table} (valid : t.Valid) {hkey : UInt64} {val : Bytes}
    (found : Storage.getRaw ⟨[t], false, false⟩ hkey = .ok (.ok val)) :
    ∃ v, t.get hkey = some v ∧ val = v.encode ++ [0] := by
  cases entry : t.get hkey with
  | none => simp [Storage.getRaw, valid.getRaw_eq, entry] at found
  | some v =>
    have same : v.encode ++ [0] = val := by simpa [Storage.getRaw, valid.getRaw_eq, entry] using found
    exact ⟨v, rfl, same.symm⟩

/-- The snapshot with one dmap. -/
def oneDMap (log : OpLog) : Snapshot where
  db := Badger.set (fun _ => none) DKey.primary.bytes (.dmaps {(0, [100])})
  workers := Function.update (fun _ => none) 0 (some .running)
  oplogs := Function.update (fun _ => ∅) 0 (AList.insert [100] firstDMap ∅)
  logs := Function.update (fun _ => none) firstDMap (some log)

theorem registerDMap_empty (str : Storage) : (empty.registerDMap firstDMap str).1 = oneDMap ⟨∅, str⟩ := rfl

theorem oneDMap_workers {log : OpLog} {partID : UInt64} (running : (oneDMap log).workers partID = some .running) :
    partID = 0 := by
  by_contra other
  simp [oneDMap, other] at running

theorem oneDMap_setLog (log log' : OpLog) : (oneDMap log).setLog firstDMap log' = oneDMap log' := by
  simp [setLog, oneDMap]

theorem oneDMap_registered {log : OpLog} {dkey : DKey} {partID : UInt64} {name : Bytes}
    (registered : (oneDMap log).db.Registered dkey partID name) : partID = 0 ∧ name = [100] := by
  obtain ⟨dmaps, found, mem⟩ := registered
  rw [oneDMap, Badger.set_dkey_dmaps] at found
  split at found
  · cases found
    simpa using mem
  · cases found

end Snapshot

end Olric
