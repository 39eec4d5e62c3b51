import Olric.Snapshot.Keyed

namespace Olric

/-- The value that a restore under the dkey gives the dmap for an hkey. -/
def Badger.restoredValue (db : Badger) (dkey : DKey) (partID : UInt64) (name : Bytes) (hkey : UInt64) :
    Option Record :=
  match db.dmaps dkey, db.hkeys partID name with
  | .ok dmaps, .ok hkeys => if (partID, name) ∈ dmaps ∧ hkey ∈ hkeys then db (bkey hkey) else none
  | _, _ => none

namespace Badger

variable {db db' : Badger} {dkey : DKey} {partID hkey : UInt64} {name : Bytes}

theorem restoredValue_of {hkeys : Finset UInt64} (registered : db.Registered dkey partID name)
    (found : db.hkeys partID name = .ok hkeys) (mem : hkey ∈ hkeys) :
    db.restoredValue dkey partID name hkey = db (bkey hkey) := by
  obtain ⟨dmaps, names, listed⟩ := registered
  simp [restoredValue, names, found, listed, mem]

theorem restoredValue_none (missing : ¬ (db.Registered dkey partID name ∧
    ∃ hkeys, db.hkeys partID name = .ok hkeys ∧ hkey ∈ hkeys)) : db.restoredValue dkey partID name hkey = none := by
  unfold restoredValue
  split
  · rename_i dmaps hkeys names found
    rw [if_neg]
    exact fun both => missing ⟨⟨dmaps, names, both.1⟩, hkeys, found, both.2⟩
  · rfl

/-- The restored value depends on the name, the record of hkeys and the value entry. -/
theorem restoredValue_congr (names : db'.Registered dkey partID name ↔ db.Registered dkey partID name)
    (record : db' (dmapKey partID name) = db (dmapKey partID name)) (value : db' (bkey hkey) = db (bkey hkey)) :
    db'.restoredValue dkey partID name hkey = db.restoredValue dkey partID name hkey := by
  have hkeys : db'.hkeys partID name = db.hkeys partID name := by
    unfold Badger.hkeys
    rw [record]
  by_cases restored : db.Registered dkey partID name ∧ ∃ hkeys, db.hkeys partID name = .ok hkeys ∧ hkey ∈ hkeys
  · obtain ⟨registered, listed, found, mem⟩ := restored
    rw [restoredValue_of registered found mem, restoredValue_of (names.2 registered) (hkeys.trans found) mem, value]
  · rw [restoredValue_none restored, restoredValue_none]
    rwa [names, hkeys]

end Badger

/-- The dmap that an operation is about. -/
def SnapshotOp.target : SnapshotOp → Option (UInt64 × Bytes)
  | .create h | .put h .. | .delete h .. | .merge h .. | .mergeExit h => some (h.partID, h.name)
  | .unregister _ partID name | .destroy _ partID name => some (partID, name)
  | .sync .. => none

namespace Snapshot

/-- An operation on a dmap, or the sync of its oplog. -/
inductive ActsOn (hashing : Hashing) (partID : UInt64) (name : Bytes) : Snapshot → Snapshot → Prop
  | op {s s' op} (step : Step hashing s op s') (on : op.target = some (partID, name)) :
      ActsOn hashing partID name s s'
  | sync {s s' out h} (registered : (s.oplogs partID).lookup name = some h)
      (run : s.syncEntry partID out name h = .ok s') : ActsOn hashing partID name s s'

/-- The strings that are hashed are in `S`, and no entry of another dmap splits the string of the
given one. -/
def SplitsApart (S : Set Bytes) (name key : Bytes) : SnapshotOp → Prop
  | .put h k _ _ _ => h.name ++ k ∈ S ∧ (h.name ≠ name → h.name ++ k ≠ name ++ key)
  | .delete h k _ _ => h.name ++ k ∈ S ∧ (h.name ≠ name → h.name ++ k ≠ name ++ key)
  | _ => True

variable {hashing : Hashing} {S : Set Bytes} {name key : Bytes} {s s' : Snapshot}

/-- The value keys of two entries are the same if and only if their strings are. -/
theorem bkey_getHKey_eq_iff (injective : Set.InjOn hashing.sum64 S) {name other key key' : Bytes}
    (mem : name ++ key ∈ S) (mem' : other ++ key' ∈ S) :
    bkey (getHKey hashing.sum64 name key) = bkey (getHKey hashing.sum64 other key') ↔
      name ++ key = other ++ key' := by
  constructor
  · exact fun same => injective mem mem' (bkey_injective same)
  · intro same
    rw [getHKey, getHKey, same]

/-- The hkey of an entry is used for the record of its own dmap only. -/
def OwnRecord (hashing : Hashing) (name key : Bytes) (hkey : UInt64) (record : Bytes) : Prop :=
  hkey = getHKey hashing.sum64 name key → record = dmapKey (hkey % hashing.partitionCount) name

theorem SplitsApart.usesOwn {op : SnapshotOp} (injective : Set.InjOn hashing.sum64 S) (inside : name ++ key ∈ S)
    (allowed : SplitsApart S name key op) (step : Step hashing s op s') :
    UsesOwn hashing (OwnRecord hashing name key) op := by
  have own {h : Handle} {k : Bytes} (mem : h.name ++ k ∈ S) (apart : h.name ≠ name → h.name ++ k ≠ name ++ key)
      (placed : getHKey hashing.sum64 h.name k % hashing.partitionCount = h.partID) :
      OwnRecord hashing name key (getHKey hashing.sum64 h.name k) (dmapKey h.partID h.name) := by
    intro same
    have text : h.name ++ k = name ++ key := injective mem inside same
    have mine : h.name = name := by
      by_contra other
      exact apart other text
    rw [placed, mine]
  cases step with
  | put _ placed => exact own allowed.1 allowed.2 placed
  | delete _ placed => exact own allowed.1 allowed.2 placed
  | create | merge | mergeExit | sync | unregister | destroy => trivial

theorem keyed_of_run {ops : List SnapshotOp} (injective : Set.InjOn hashing.sum64 S) (inside : name ++ key ∈ S)
    (run : (system hashing).Run (fun _ => SplitsApart S name key) ops s) : s.Keyed (OwnRecord hashing name key) := by
  refine run.invariant (fun s => s.Keyed (OwnRecord hashing name key)) ?_
    (fun _ _ _ keyed allowed step => keyed.step (allowed.usesOwn injective inside step) step)
  rintro _ rfl
  exact keyed_empty

section

variable {partID other hkey : UInt64} {name' : Bytes} {dkey : DKey}

theorem restoredValue_register {h : Handle} {str : Storage} (ne : h.name ≠ name) (run : s.Registers h str s') :
    s'.db.restoredValue dkey partID name hkey = s.db.restoredValue dkey partID name hkey := by
  have names : s'.db.Registered dkey partID name ↔ s.db.Registered dkey partID name := by
    rw [Badger.registered_registerOnBadger run.db]
    exact or_iff_left fun same => ne same.2.2.symm
  obtain ⟨value, same, _⟩ := Badger.registerOnBadger_ok run.db
  refine Badger.restoredValue_congr names ?_ ?_ <;> rw [same]
  · exact Function.update_of_ne (dmapKey_ne_dkey partID name h.dkey) ..
  · exact Badger.set_dkey_bkey _ hkey

theorem restoredValue_unregisterDMap {d : DKey} (ne : name' ≠ name) :
    (s.unregisterDMap d other name').1.db.restoredValue dkey partID name hkey =
      s.db.restoredValue dkey partID name hkey := by
  rcases unregisterDMap_cases s d other name' with ⟨same, _⟩ | run
  · rw [same]
  have names : (s.unregisterDMap d other name').1.db.Registered dkey partID name ↔
      s.db.Registered dkey partID name := by
    rw [Badger.registered_unregisterOnBadger run.db]
    exact and_iff_left fun same => ne same.2.2.symm
  obtain ⟨value, _, same⟩ := Badger.unregisterOnBadger_ok run.db
  refine Badger.restoredValue_congr names ?_ ?_ <;> rw [same]
  · exact Function.update_of_ne (dmapKey_ne_dkey partID name d) ..
  · exact Badger.set_dkey_bkey _ hkey

end

/-- Operations on another dmap leave the value alone that is restored for an entry whose hkey only
its own dmap uses. -/
theorem ActsOn.restoredValue {own : UInt64 → Bytes → Prop} {partID other hkey : UInt64} {name' : Bytes} {dkey : DKey}
    (keyed : s.Keyed own) (mine : ∀ record, own hkey record → record = dmapKey partID name) (ne : name' ≠ name)
    (apart : dmapKey other name' ≠ dmapKey partID name) (acts : ActsOn hashing other name' s s') :
    s'.db.restoredValue dkey partID name hkey = s.db.restoredValue dkey partID name hkey := by
  cases acts with
  | op step on =>
    cases step with
    | @create h str _ _ =>
      cases on
      rcases registerDMap_cases s h str with ⟨same, _⟩ | run
      · rw [same]
      · exact restoredValue_register ne run
    | put | delete | merge | mergeExit => rfl
    | sync => cases on
    | unregister =>
      cases on
      exact restoredValue_unregisterDMap ne
    | @destroy d p n =>
      cases on
      rcases destroyDMap_cases s d other name' with same | ⟨hkeys, found, same⟩
      · rw [same]
      · rw [same, restoredValue_unregisterDMap ne]
        have foreign : hkey ∉ hkeys := fun mem => apart (mine _ (keyed.lists _ _ (Badger.hkeys_ok.1 found) hkey mem))
        refine Badger.restoredValue_congr ?_ ?_ ?_
        · simp only [Badger.Registered, Badger.deleteValues_dmaps]
        · exact Badger.deleteValues_of_ne fun hkey => (bkey_ne_dmapKey hkey partID name).symm
        · exact Badger.deleteValues_bkey.trans (if_neg foreign)
  | sync registered run =>
    rcases syncEntry_cases run with ⟨_, rfl⟩ | ⟨log, db, failed, found, synced, rfl⟩
    · rfl
    obtain ⟨rfl, rfl⟩ := keyed.placed _ _ _ registered
    have foreign : ∀ logged ∈ log.m, bkey hkey ≠ bkey logged := by
      intro logged mem eq
      cases bkey_injective eq
      exact apart (mine _ (keyed.logged _ log hkey found mem))
    refine Badger.restoredValue_congr ?_ ?_ ?_
    · have names : db dkey.bytes = s.db dkey.bytes :=
        syncDMap_frame synced (dmapKey_ne_dkey _ _ dkey).symm fun hkey _ => (bkey_ne_dkey hkey dkey).symm
      simp only [Badger.Registered, Badger.dmaps, setLog_db, names]
    · exact syncDMap_frame synced apart.symm fun hkey _ => (bkey_ne_dmapKey hkey partID name).symm
    · exact syncDMap_frame synced (bkey_ne_dmapKey hkey _ _) foreign

/-- With a hasher that is injective on the strings in use, two entries share a value key if and only
if they split the same string. As long as no entry of another dmap splits the string of an entry,
nothing that is done to another dmap changes the value that is restored for the entry. -/
theorem restored_value_kept (hashing : Hashing) (S : Set Bytes) (injective : Set.InjOn hashing.sum64 S)
    (name key : Bytes) (inside : name ++ key ∈ S) :
    (∀ other key', other ++ key' ∈ S →
      (bkey (getHKey hashing.sum64 other key') = bkey (getHKey hashing.sum64 name key) ↔
        other ++ key' = name ++ key)) ∧
    ∀ ops s s' partID other dkey, (system hashing).Run (fun _ => SplitsApart S name key) ops s → other ≠ name →
      dmapKey partID other ≠ dmapKey (getHKey hashing.sum64 name key % hashing.partitionCount) name →
      ActsOn hashing partID other s s' →
      s'.db.restoredValue dkey (getHKey hashing.sum64 name key % hashing.partitionCount) name
        (getHKey hashing.sum64 name key) =
        s.db.restoredValue dkey (getHKey hashing.sum64 name key % hashing.partitionCount) name
          (getHKey hashing.sum64 name key) := by
  refine ⟨fun other key' mem => bkey_getHKey_eq_iff injective mem inside, ?_⟩
  intro ops s s' partID other dkey run ne apart acts
  exact acts.restoredValue (keyed_of_run injective inside run) (fun record own => own rfl) ne apart

/-- The bytes of a string as a number, and one partition. -/
def bytesHashing : Hashing := ⟨fun bytes => UInt64.ofNat (BigEndian.decode bytes), 1⟩

theorem bytesHashing_injOn : Set.InjOn bytesHashing.sum64 {bytes | bytes.length = 3} := by
  intro bytes mem other mem' same
  obtain ⟨a, b, c, rfl⟩ := List.length_eq_three.1 mem
  obtain ⟨a', b', c', rfl⟩ := List.length_eq_three.1 mem'
  have bounds := And.intro (And.intro a.toNat_lt (And.intro b.toNat_lt c.toNat_lt))
    (And.intro a'.toNat_lt (And.intro b'.toNat_lt c'.toNat_lt))
  have numbers := congrArg UInt64.toNat same
  simp only [bytesHashing, BigEndian.decode, List.foldl_cons, List.foldl_nil, UInt64.toNat_ofNat'] at numbers
  have bytes : a.toNat = a'.toNat ∧ b.toNat = b'.toNat ∧ c.toNat = c'.toNat := by omega
  rw [UInt8.toNat_inj.1 bytes.1, UInt8.toNat_inj.1 bytes.2.1, UInt8.toNat_inj.1 bytes.2.2]

/-- The dmap `ab`, whose entry for `c` is watched. -/
def longName : Handle := ⟨.primary, 0, [97, 98], 0⟩

/-- The dmap `a`. -/
def shortName : Handle := ⟨.primary, 0, [97], 0⟩

/-- The dmap `d`. -/
def apartName : Handle := ⟨.primary, 0, [100], 0⟩

/-- The snapshot after the creation of `ab` and a put of `c`. -/
def storesEntry (str str' : Storage) : Snapshot :=
  (empty.registerDMap longName str).1.setLog longName
    ⟨AList.insert (getHKey bytesHashing.sum64 [97, 98] [99]) .put ∅, str'⟩

/-- The snapshot after the creation of another dmap and a delete of `bc` in it. -/
def deletesIn (s : Snapshot) (h : Handle) (str str' : Storage) : Snapshot :=
  (s.registerDMap h str).1.setLog h ⟨AList.insert (getHKey bytesHashing.sum64 h.name [98, 99]) .delete ∅, str'⟩

theorem delete_kept_apart : ∃ ops s s', (system bytesHashing).Run
      (fun _ => SplitsApart {bytes | bytes.length = 3} [97, 98] [99]) ops s ∧ ActsOn bytesHashing 0 [100] s s' ∧
    s'.db.restoredValue .primary 0 [97, 98] (getHKey bytesHashing.sum64 [97, 98] [99]) =
      s.db.restoredValue .primary 0 [97, 98] (getHKey bytesHashing.sum64 [97, 98] [99]) := by
  obtain ⟨str, made, str₁, put, s₁, synced, str₂, err, deleted, s', syncs, free, found, registered⟩ :
      ∃ str, Storage.new true 0 = .ok str ∧
      ∃ str₁, str.put [] (getHKey bytesHashing.sum64 [97, 98] [99]) ⟨[99], 0, [1]⟩ = .ok (str₁, none) ∧
      ∃ s₁, (storesEntry str str₁).sync 0 (fun _ => .success) = .ok s₁ ∧
      ∃ str₂ err, str.delete true (getHKey bytesHashing.sum64 [100] [98, 99]) = .ok (str₂, err) ∧
      ∃ s', (deletesIn s₁ apartName str str₂).syncEntry 0 (fun _ => .success) [100] apartName = .ok s' ∧
      s₁.logs apartName = none ∧ (s₁.registerDMap apartName str).1.logs apartName = some ⟨∅, str⟩ ∧
      ((deletesIn s₁ apartName str str₂).oplogs 0).lookup [100] = some apartName :=
    ⟨_, rfl, _, rfl, _, rfl, _, _, rfl, _, rfl, rfl, rfl, rfl⟩
  have puts : Step bytesHashing (empty.registerDMap longName str).1 (.put longName [99] 0 [1] []) _ :=
    .put rfl (by decide) put
  have deletes : Step bytesHashing (s₁.registerDMap apartName str).1 (.delete apartName [98, 99] true true) _ :=
    .delete found (by decide) deleted
  have start : (system bytesHashing).Run (fun _ => SplitsApart {bytes | bytes.length = 3} [97, 98] [99]) [] empty :=
    .start rfl
  have stored := (start.andThenAllowed (.create longName) trivial (.create rfl made)).andThenAllowed
    (.put longName [99] 0 [1] []) ⟨rfl, fun ne => absurd rfl ne⟩ puts
  have created := (stored.andThenAllowed (.sync 0 fun _ => .success) trivial (.sync synced)).andThenAllowed
    (.create apartName) trivial (.create free made)
  have run := created.andThenAllowed (.delete apartName [98, 99] true true) ⟨rfl, fun _ => by decide⟩ deletes
  have acts : ActsOn bytesHashing 0 [100] (deletesIn s₁ apartName str str₂) s' := .sync registered syncs
  have kept := restored_value_kept bytesHashing {bytes | bytes.length = 3} bytesHashing_injOn [97, 98] [99] rfl
  exact ⟨_, _, s', run, acts, kept.2 _ _ s' 0 [100] .primary run (by decide) (by decide) acts⟩

/-- The entry `bc` of `a` has the value key of the entry `c` of `ab`: deleting the one deletes the
value that is restored for the other. -/
theorem delete_in_other_dmap : Set.InjOn bytesHashing.sum64 {bytes | bytes.length = 3} ∧
    ∃ ops s s', (system bytesHashing).AnyRun ops s ∧ ActsOn bytesHashing 0 [97] s s' ∧
      s.db.restoredValue .primary 0 [97, 98] (getHKey bytesHashing.sum64 [97, 98] [99]) ≠ none ∧
      s'.db.restoredValue .primary 0 [97, 98] (getHKey bytesHashing.sum64 [97, 98] [99]) = none := by
  obtain ⟨str, made, str₁, put, s₁, synced, str₂, err, deleted, s', syncs, free, found, registered, before, after⟩ :
      ∃ str, Storage.new true 0 = .ok str ∧
      ∃ str₁, str.put [] (getHKey bytesHashing.sum64 [97, 98] [99]) ⟨[99], 0, [1]⟩ = .ok (str₁, none) ∧
      ∃ s₁, (storesEntry str str₁).sync 0 (fun _ => .success) = .ok s₁ ∧
      ∃ str₂ err, str.delete true (getHKey bytesHashing.sum64 [97] [98, 99]) = .ok (str₂, err) ∧
      ∃ s', (deletesIn s₁ shortName str str₂).syncEntry 0 (fun _ => .success) [97] shortName = .ok s' ∧
      s₁.logs shortName = none ∧ (s₁.registerDMap shortName str).1.logs shortName = some ⟨∅, str⟩ ∧
      ((deletesIn s₁ shortName str str₂).oplogs 0).lookup [97] = some shortName ∧
      (deletesIn s₁ shortName str str₂).db.restoredValue .primary 0 [97, 98]
        (getHKey bytesHashing.sum64 [97, 98] [99]) ≠ none ∧
      s'.db.restoredValue .primary 0 [97, 98] (getHKey bytesHashing.sum64 [97, 98] [99]) = none :=
    ⟨_, rfl, _, rfl, _, rfl, _, _, rfl, _, rfl, rfl, rfl, rfl, nofun, rfl⟩
  have start : (system bytesHashing).Reachable empty := .start rfl
  have created := start.next (Step.create (h := longName) rfl made)
  have puts : Step bytesHashing (empty.registerDMap longName str).1 (.put longName [99] 0 [1] []) _ :=
    .put rfl (by decide) put
  have recorded := (created.next puts).next (Step.sync synced)
  have deletes : Step bytesHashing (s₁.registerDMap shortName str).1 (.delete shortName [98, 99] true true) _ :=
    .delete found (by decide) deleted
  obtain ⟨ops, run⟩ := (recorded.next (Step.create (h := shortName) free made)).next deletes
  exact ⟨bytesHashing_injOn, ops, _, s', run, .sync registered syncs, before, after⟩

end Snapshot

end Olric
