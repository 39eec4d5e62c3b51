import Olric.Snapshot.Agree

namespace Olric

abbrev Oplogs := AList fun _ : Bytes => Handle

/-- The oplogs without the one of the name, if it belongs to a dmap of the dkey. -/
def strip (dkey : DKey) (name : Bytes) (l : Oplogs) : Oplogs :=
  match l.lookup name with
  | some h => if h.dkey = dkey then l.erase name else l
  | none => l

section

variable {dkey : DKey} {name other : Bytes} {h : Handle} {l : Oplogs}

theorem erase_of_lookup_none (absent : l.lookup name = none) : l.erase name = l :=
  AList.ext (List.kerase_of_notMem_keys (AList.lookup_eq_none.1 absent))

theorem erase_insert_self : (l.insert name h).erase name = l.erase name :=
  AList.ext (List.kerase_cons_eq rfl)

theorem erase_insert_of_ne (ne : other ≠ name) : (l.insert other h).erase name = (l.erase name).insert other h := by
  apply AList.ext
  simp only [AList.erase, AList.entries_insert]
  rw [List.kerase_cons_ne ne.symm, List.kerase_comm]

theorem insert_erase_self : (l.erase name).insert name h = l.insert name h := by
  apply AList.ext
  simp only [AList.erase, AList.entries_insert]
  rw [List.kerase_of_notMem_keys (List.notMem_keys_kerase name l.nodupKeys)]

/-- No oplog of the other dkey has the name. -/
theorem strip_eq_erase (ours : ∀ h, l.lookup name = some h → h.dkey = dkey) : strip dkey name l = l.erase name := by
  unfold strip
  split
  · rename_i h found
    rw [if_pos (ours h found)]
  · rename_i absent
    exact (erase_of_lookup_none absent).symm

theorem strip_eq_self (theirs : ∀ h, l.lookup name = some h → h.dkey ≠ dkey) : strip dkey name l = l := by
  unfold strip
  split
  · rename_i h found
    rw [if_neg (theirs h found)]
  · rfl

/-- The oplog of the name is of the dkey, or it is not. -/
theorem strip_cases (dkey : DKey) (name : Bytes) (l : Oplogs) :
    (∃ h, l.lookup name = some h ∧ h.dkey = dkey ∧ strip dkey name l = l.erase name) ∨
      (∀ h, l.lookup name = some h → h.dkey ≠ dkey) ∧ strip dkey name l = l := by
  cases found : l.lookup name with
  | none => exact .inr ⟨nofun, strip_eq_self (by simp [found])⟩
  | some h =>
    by_cases same : h.dkey = dkey
    · exact .inl ⟨h, rfl, same, strip_eq_erase (by simp [found, same])⟩
    · exact .inr ⟨by simpa using same, strip_eq_self (by simp [found, same])⟩

theorem strip_insert_self (theirs : h.dkey ≠ dkey) :
    strip dkey name (l.insert name h) = (strip dkey name l).insert name h := by
  rw [strip_eq_self (by simp [theirs])]
  rcases strip_cases dkey name l with ⟨_, _, _, stripped⟩ | ⟨_, stripped⟩
  · rw [stripped, insert_erase_self]
  · rw [stripped]

theorem strip_insert_of_ne (ne : other ≠ name) :
    strip dkey name (l.insert other h) = (strip dkey name l).insert other h := by
  have same : (l.insert other h).lookup name = l.lookup name := AList.lookup_insert_ne ne.symm
  rcases strip_cases dkey name l with ⟨h', found, ours, stripped⟩ | ⟨theirs, stripped⟩
  · rw [stripped, strip_eq_erase (by simp [same, found, ours]), erase_insert_of_ne ne]
  · rw [stripped, strip_eq_self (by simpa [same] using theirs)]

theorem strip_erase (other : Bytes) : strip dkey name (l.erase other) = (strip dkey name l).erase other := by
  by_cases eq : other = name
  · subst eq
    rw [strip_eq_self (by simp)]
    rcases strip_cases dkey other l with ⟨_, _, _, stripped⟩ | ⟨_, stripped⟩
    · rw [stripped, erase_of_lookup_none (l := l.erase other) (AList.lookup_erase other l)]
    · rw [stripped]
  · have same : (l.erase other).lookup name = l.lookup name := AList.lookup_erase_ne (Ne.symm eq)
    rcases strip_cases dkey name l with ⟨h', found, ours, stripped⟩ | ⟨theirs, stripped⟩
    · rw [stripped, strip_eq_erase (by simp [same, found, ours]), AList.erase_erase]
    · rw [stripped, strip_eq_self (by simpa [same] using theirs)]

end

namespace Snapshot

/-- The operation is one on the dmap of the partition under the dkey. -/
def On (dkey : DKey) (partID : UInt64) (name : Bytes) : SnapshotOp → Bool
  | .create h | .put h .. | .delete h .. | .merge h .. | .mergeExit h =>
    h.dkey = dkey ∧ h.partID = partID ∧ h.name = name
  | .unregister d p n | .destroy d p n => d = dkey ∧ p = partID ∧ n = name
  | .sync .. => false

/-- `t` is what `s` would be without the operations on the other dkey's dmap of the partition. -/
structure Without (dkey : DKey) (p : UInt64) (n : Bytes) (s t : Snapshot) : Prop where
  db : s.db.Agree dkey.other.bytes t.db
  names : ∀ q m, ¬ (q = p ∧ m = n) → (t.db.Registered dkey.other q m ↔ s.db.Registered dkey.other q m)
  read : s.db.NamesRead ∧ t.db.NamesRead
  logs : ∀ h, ¬ (h.dkey = dkey.other ∧ h.partID = p ∧ h.name = n) → t.logs h = s.logs h
  oplogs : ∀ q, t.oplogs q = if q = p then strip dkey.other n (s.oplogs q) else s.oplogs q
  placed : s.Placed
  workers : ∀ q, t.workers q = s.workers q ∨
    q = p ∧ t.workers q = none ∧ s.workers q = some .running ∧ (t.oplogs q).entries = []
  started : ∀ q, (t.oplogs q).entries ≠ [] → t.workers q ≠ none

variable {dkey : DKey} {p : UInt64} {n : Bytes} {s s' t : Snapshot}

theorem registers_of_read {h : Handle} {str : Storage} (read : s.db.NamesRead) :
    s.Registers h str (s.registerDMap h str).1 := by
  rcases registerDMap_cases s h str with ⟨_, e, failed⟩ | run
  · obtain ⟨db', ok⟩ := read.registerOnBadger h.dkey h.partID h.name
    rw [ok] at failed
    cases failed
  · exact run

theorem Registers.read {h : Handle} {str : Storage} (run : s.Registers h str s') (read : s.db.NamesRead) :
    s'.db.NamesRead := by
  obtain ⟨value, same, _⟩ := Badger.registerOnBadger_ok run.db
  rw [same]
  exact read.set_dmaps _

/-- A dmap that is created in both. -/
theorem Without.register {h : Handle} {str : Storage} {t' : Snapshot} (rel : Without dkey p n s t)
    (kept : ¬ (h.dkey = dkey.other ∧ h.partID = p ∧ h.name = n)) (run : s.Registers h str s')
    (run' : t.Registers h str t') : Without dkey p n s' t' where
  db := rel.db.registerOnBadger run.db run'.db
  names q m other := by
    rw [Badger.registered_registerOnBadger run.db, Badger.registered_registerOnBadger run'.db, rel.names q m other]
  read := ⟨run.read rel.read.1, run'.read rel.read.2⟩
  logs h' other := by
    rw [run.logs, run'.logs]
    by_cases same : h' = h
    · subst same
      simp
    · simp [same, rel.logs h' other]
  oplogs q := by
    rw [run.oplogs, run'.oplogs]
    by_cases here : q = h.partID
    · subst here
      simp only [Function.update_self, rel.oplogs h.partID]
      split
      · rename_i inside
        by_cases same : h.name = n
        · subst same
          exact (strip_insert_self fun eq => kept ⟨eq, inside, rfl⟩).symm
        · exact (strip_insert_of_ne same).symm
      · rfl
    · simp only [Function.update_of_ne here, rel.oplogs q]
  placed := run.placed rel.placed
  workers q := by
    rw [run.workers, run'.workers]
    by_cases here : q = h.partID
    · subst here
      simp only [Function.update_self]
      rcases rel.workers h.partID with same | ⟨_, none, running, _⟩
      · rw [same]
        exact .inl rfl
      · rw [none, running]
        exact .inl rfl
    · simp only [Function.update_of_ne here, run'.oplogs]
      exact rel.workers q
  started q used := by
    rw [run'.workers]
    by_cases here : q = h.partID
    · subst here
      simp
    · rw [run'.oplogs, Function.update_of_ne here] at used
      rw [Function.update_of_ne here]
      exact rel.started q used

/-- A dmap of the other dkey that is created where no oplog of this one is registered. -/
theorem Without.register_other {h : Handle} {str : Storage} (rel : Without dkey p n s t)
    (other : h.dkey = dkey.other ∧ h.partID = p ∧ h.name = n)
    (alone : ∀ h, (s.oplogs p).lookup n = some h → h.dkey = dkey.other) (run : s.Registers h str s') :
    Without dkey p n s' t := by
  obtain ⟨eq, rfl, rfl⟩ := other
  obtain ⟨value, same, _⟩ := Badger.registerOnBadger_ok run.db
  refine ⟨?_, ?_, ⟨run.read rel.read.1, rel.read.2⟩, ?_, ?_, run.placed rel.placed, ?_, rel.started⟩
  · rw [same, eq]
    exact rel.db.set_left _
  · intro q m ne
    rw [Badger.registered_registerOnBadger run.db, rel.names q m ne]
    exact (or_iff_left fun same => ne same.2).symm
  · intro h' ne
    rw [run.logs, rel.logs h' ne, Function.update_of_ne]
    rintro rfl
    exact ne ⟨eq, rfl, rfl⟩
  · intro q
    rw [run.oplogs, rel.oplogs q]
    by_cases here : q = h.partID
    · subst here
      simp only [Function.update_self, if_true]
      rw [strip_eq_erase alone, strip_eq_erase (by simp [eq]), erase_insert_self]
    · simp only [Function.update_of_ne here]
  · intro q
    rw [run.workers]
    by_cases here : q = h.partID
    · subst here
      rw [Function.update_self]
      rcases rel.workers h.partID with same | ⟨eq, none, running, idle⟩
      · cases known : s.workers h.partID with
        | none =>
          rw [known] at same
          refine .inr ⟨rfl, same, rfl, ?_⟩
          by_contra used
          exact rel.started _ used same
        | some w =>
          rw [same, known]
          exact .inl rfl
      · rw [running]
        exact .inr ⟨eq, none, rfl, idle⟩
    · rw [Function.update_of_ne here]
      exact rel.workers q

theorem unregisters_of_found {d : DKey} {q : UInt64} {value : Finset (UInt64 × Bytes)} (m : Bytes)
    (used : (s.oplogs q).entries ≠ []) (found : s.db.dmaps d = .ok value) :
    s.Unregisters d q m (s.unregisterDMap d q m).1 := by
  rcases unregisterDMap_cases s d q m with ⟨_, none | ⟨e, failed⟩⟩ | run
  · exact absurd none used
  · simp [Badger.unregisterOnBadger, found] at failed
  · exact run

theorem Unregisters.read {d : DKey} {q : UInt64} {m : Bytes} (run : s.Unregisters d q m s') (read : s.db.NamesRead) :
    s'.db.NamesRead := by
  obtain ⟨value, _, same⟩ := Badger.unregisterOnBadger_ok run.db
  rw [same]
  exact read.set_dmaps _

/-- A dmap that is unregistered in both, where it is the last one in both or in none. -/
theorem Without.unregister {d : DKey} {q : UInt64} {m : Bytes} {t' : Snapshot} (rel : Without dkey p n s t)
    (emptied : ((t.oplogs q).erase m).entries = [] ↔ ((s.oplogs q).erase m).entries = [])
    (run : s.Unregisters d q m s') (run' : t.Unregisters d q m t') : Without dkey p n s' t' := by
  have oplogs : ∀ q', t'.oplogs q' = if q' = p then strip dkey.other n (s'.oplogs q') else s'.oplogs q' := by
    intro q'
    rw [run.oplogs, run'.oplogs]
    by_cases here : q' = q
    · subst here
      simp only [Function.update_self, rel.oplogs q']
      split
      · exact (strip_erase m).symm
      · rfl
    · simp only [Function.update_of_ne here, rel.oplogs q']
  refine ⟨rel.db.unregisterOnBadger run.db run'.db, ?_, ⟨run.read rel.read.1, run'.read rel.read.2⟩, ?_, oplogs,
    run.placed rel.placed, ?_, ?_⟩
  · intro q' m' other
    rw [Badger.registered_unregisterOnBadger run.db, Badger.registered_unregisterOnBadger run'.db,
      rel.names q' m' other]
  · rw [run.logs, run'.logs]
    exact rel.logs
  · intro q'
    rw [run.workers, run'.workers]
    simp only [emptied]
    split
    · by_cases here : q' = q
      · subst here
        simp
      · simp only [Function.update_of_ne here, run'.oplogs]
        exact rel.workers q'
    · rcases rel.workers q' with same | ⟨eq, none, running, idle⟩
      · exact .inl same
      · have elsewhere : q' ≠ q := by
          rintro rfl
          exact run'.nonempty idle
        rw [run'.oplogs, Function.update_of_ne elsewhere]
        exact .inr ⟨eq, none, running, idle⟩
  · intro q' used
    have before : (t.oplogs q').entries ≠ [] := by
      rw [run'.oplogs] at used
      by_cases here : q' = q
      · subst here
        exact run'.nonempty
      · rwa [Function.update_of_ne here] at used
    rw [run'.workers]
    split
    · by_cases here : q' = q
      · subst here
        simp
      · rw [Function.update_of_ne here]
        exact rel.started q' before
    · exact rel.started q' before

/-- The dmap of the other dkey is unregistered, and is not the last one. -/
theorem Without.unregister_other (rel : Without dkey p n s t)
    (alone : ∀ h, (s.oplogs p).lookup n = some h → h.dkey = dkey.other)
    (stays : ((s.oplogs p).erase n).entries ≠ []) (run : s.Unregisters dkey.other p n s') :
    Without dkey p n s' t := by
  obtain ⟨value, _, same⟩ := Badger.unregisterOnBadger_ok run.db
  refine ⟨?_, ?_, ⟨run.read rel.read.1, rel.read.2⟩, ?_, ?_, run.placed rel.placed, ?_, rel.started⟩
  · rw [same]
    exact rel.db.set_left _
  · intro q m ne
    rw [Badger.registered_unregisterOnBadger run.db, rel.names q m ne]
    exact (and_iff_left fun same => ne same.2).symm
  · rw [run.logs]
    exact rel.logs
  · intro q
    rw [run.oplogs, rel.oplogs q]
    by_cases here : q = p
    · subst here
      simp only [Function.update_self, if_true]
      rw [strip_eq_erase alone, strip_eq_self (by simp)]
    · simp only [Function.update_of_ne here]
  · rw [run.workers, if_neg stays]
    exact rel.workers

/-- Conditions under which an unregistration is the same with and without the other dkey's dmap:
that dmap does not take this dkey's oplog away and is not the last one, with or without the dmap
that is unregistered; the other dkey has the name that is unregistered. -/
structure UnregistersApart (dkey : DKey) (p : UInt64) (n : Bytes) (s : Snapshot) (d : DKey) (q : UInt64) (m : Bytes) :
    Prop where
  alone : d = dkey.other → q = p → m = n → ∀ h, (s.oplogs p).lookup n = some h → h.dkey = dkey.other
  known : d = dkey.other → ¬ (q = p ∧ m = n) → s.db.Registered dkey.other q m
  stays : q = p → ∀ h, (s.oplogs p).lookup n = some h → h.dkey = dkey.other →
    (((s.oplogs p).erase n).erase m).entries ≠ []

theorem entries_ne_nil_of_erase {l : Oplogs} {m : Bytes} (used : (l.erase m).entries ≠ []) : l.entries ≠ [] := by
  intro none
  apply used
  simp [AList.erase, none]

/-- The partition is in use in both or in none, before and after. -/
theorem Without.used_iff {d : DKey} {q : UInt64} {m : Bytes} (rel : Without dkey p n s t)
    (apart : UnregistersApart dkey p n s d q m) : ((t.oplogs q).entries = [] ↔ (s.oplogs q).entries = []) ∧
      (((t.oplogs q).erase m).entries = [] ↔ ((s.oplogs q).erase m).entries = []) := by
  rw [rel.oplogs q]
  split
  · rename_i here
    subst here
    rcases strip_cases dkey.other n (s.oplogs q) with ⟨h, found, other, stripped⟩ | ⟨_, stripped⟩
    · rw [stripped]
      have stays := apart.stays rfl h found other
      have stays' := stays
      rw [AList.erase_erase] at stays'
      exact ⟨iff_of_false (entries_ne_nil_of_erase stays) (entries_ne_nil_of_erase (entries_ne_nil_of_erase stays)),
        iff_of_false stays (entries_ne_nil_of_erase stays')⟩
    · rw [stripped]
      exact ⟨Iff.rfl, Iff.rfl⟩
  · exact ⟨Iff.rfl, Iff.rfl⟩

theorem Without.unregisterDMap {d : DKey} {q : UInt64} {m : Bytes} (rel : Without dkey p n s t)
    (kept : ¬ (d = dkey.other ∧ q = p ∧ m = n)) (apart : UnregistersApart dkey p n s d q m) :
    Without dkey p n (s.unregisterDMap d q m).1 (t.unregisterDMap d q m).1 := by
  obtain ⟨usedIff, emptied⟩ := rel.used_iff apart
  have sameDMaps : (∃ value, s.db.dmaps d = .ok value ∧ ∃ value', t.db.dmaps d = .ok value') ∨
      ∃ e, s.db.dmaps d = .error e ∧ t.db.dmaps d = .error e := by
    by_cases other : d = dkey.other
    · subst other
      have here : s.db.Registered dkey.other q m := apart.known rfl fun same => kept ⟨rfl, same⟩
      obtain ⟨value', found', _⟩ := (rel.names q m fun same => kept ⟨rfl, same⟩).2 here
      obtain ⟨value, found, _⟩ := here
      exact .inl ⟨value, found, value', found'⟩
    · rw [rel.db.dmaps other]
      cases s.db.dmaps d with
      | ok value => exact .inl ⟨value, rfl, value, rfl⟩
      | error e => exact .inr ⟨e, rfl, rfl⟩
  by_cases used : (s.oplogs q).entries = []
  · have used' := usedIff.2 used
    simpa [Snapshot.unregisterDMap, used, used'] using rel
  · have used' := mt usedIff.1 used
    rcases sameDMaps with ⟨value, found, value', found'⟩ | ⟨e, failed, failed'⟩
    · exact rel.unregister emptied (unregisters_of_found m used found) (unregisters_of_found m used' found')
    · simpa [Snapshot.unregisterDMap, used, used', Badger.unregisterOnBadger, failed, failed'] using rel

theorem Without.unregisterDMap_other (rel : Without dkey p n s t)
    (apart : UnregistersApart dkey p n s dkey.other p n) :
    Without dkey p n (s.unregisterDMap dkey.other p n).1 t := by
  rcases unregisterDMap_cases s dkey.other p n with ⟨same, _⟩ | run
  · rwa [same]
  · have alone := apart.alone rfl rfl rfl
    refine rel.unregister_other alone ?_ run
    cases found : (s.oplogs p).lookup n with
    | none =>
      rw [erase_of_lookup_none found]
      exact run.nonempty
    | some h => exact entries_ne_nil_of_erase (apart.stays rfl h found (alone h found))

theorem Without.deleteValues (rel : Without dkey p n s t) (hkeys : Finset UInt64) :
    Without dkey p n { s with db := s.db.deleteValues hkeys } { t with db := t.db.deleteValues hkeys } := by
  refine ⟨rel.db.deleteValues hkeys, ?_, ⟨?_, ?_⟩, rel.logs, rel.oplogs, rel.placed, rel.workers, rel.started⟩
  · intro q m other
    simp only [Badger.Registered, Badger.deleteValues_dmaps]
    exact rel.names q m other
  · exact rel.read.1.congr fun d => Badger.deleteValues_of_ne fun hkey => (bkey_ne_dkey hkey d).symm
  · exact rel.read.2.congr fun d => Badger.deleteValues_of_ne fun hkey => (bkey_ne_dkey hkey d).symm

theorem UnregistersApart.deleteValues {d : DKey} {q : UInt64} {m : Bytes} (apart : UnregistersApart dkey p n s d q m)
    (hkeys : Finset UInt64) : UnregistersApart dkey p n { s with db := s.db.deleteValues hkeys } d q m where
  alone := apart.alone
  known other ne := by
    simp only [Badger.Registered, Badger.deleteValues_dmaps]
    exact apart.known other ne
  stays := apart.stays

theorem Without.destroyDMap {d : DKey} {q : UInt64} {m : Bytes} (rel : Without dkey p n s t)
    (kept : ¬ (d = dkey.other ∧ q = p ∧ m = n)) (apart : UnregistersApart dkey p n s d q m) :
    Without dkey p n (s.destroyDMap d q m).1 (t.destroyDMap d q m).1 := by
  unfold Snapshot.destroyDMap
  rw [rel.db.hkeys]
  split
  · exact rel
  · rename_i hkeys _
    exact (rel.deleteValues hkeys).unregisterDMap kept (apart.deleteValues hkeys)

theorem Without.destroyDMap_other (rel : Without dkey p n s t) (apart : UnregistersApart dkey p n s dkey.other p n)
    (none : ∀ hkeys, s.db.hkeys p n = .ok hkeys → hkeys = ∅) :
    Without dkey p n (s.destroyDMap dkey.other p n).1 t := by
  rcases destroyDMap_cases s dkey.other p n with same | ⟨hkeys, found, same⟩
  · rwa [same]
  · have kept : s.db.deleteValues ∅ = s.db := funext fun _ => by simp [Badger.deleteValues]
    rw [same, none hkeys found, kept]
    exact rel.unregisterDMap_other apart

theorem Without.setLog (rel : Without dkey p n s t) (h : Handle) (log : OpLog) :
    Without dkey p n (s.setLog h log) (t.setLog h log) where
  __ := rel
  logs h' other := by
    dsimp only [Snapshot.setLog]
    by_cases same : h' = h
    · subst same
      simp
    · simp [same, rel.logs h' other]

theorem Without.setLog_other {h : Handle} (rel : Without dkey p n s t)
    (other : h.dkey = dkey.other ∧ h.partID = p ∧ h.name = n) (log : OpLog) :
    Without dkey p n (s.setLog h log) t where
  __ := rel
  logs h' ne := by
    have apart : h' ≠ h := by
      rintro rfl
      exact ne other
    dsimp only [Snapshot.setLog]
    rw [Function.update_of_ne apart]
    exact rel.logs h' ne

/-- A sync of one oplog that both have. -/
theorem Without.syncEntry {q : UInt64} {m : Bytes} {h : Handle} {out : Bytes → SyncOutcome}
    (rel : Without dkey p n s t) (kept : ¬ (h.dkey = dkey.other ∧ h.partID = p ∧ h.name = n))
    (run : s.syncEntry q out m h = .ok s') :
    ∃ t', t.syncEntry q out m h = .ok t' ∧ Without dkey p n s' t' := by
  unfold Snapshot.syncEntry
  rw [rel.logs h kept]
  rcases syncEntry_cases run with ⟨absent, rfl⟩ | ⟨log, db, failed, found, synced, rfl⟩
  · rw [absent]
    exact ⟨t, rfl, rel⟩
  · obtain ⟨db', synced', agree⟩ := syncDMap_agree rel.db synced
    rw [found]
    dsimp only
    rw [synced']
    have registry {db db' : Badger} (run : syncDMap db q m log (out m) = .ok (db', failed)) (d : DKey) :
        db' d.bytes = db d.bytes :=
      syncDMap_frame run (dmapKey_ne_dkey q m d).symm fun hkey _ => (bkey_ne_dkey hkey d).symm
    have synced₁ : Without dkey p n { s with db := db } { t with db := db' } := by
      refine { rel with db := agree, names := ?_, read := ⟨?_, ?_⟩ }
      · intro q' m' other
        have names := rel.names q' m' other
        simp only [Badger.Registered, Badger.dmaps] at names ⊢
        rwa [registry synced, registry synced']
      · exact rel.read.1.congr (registry synced)
      · exact rel.read.2.congr (registry synced')
    exact ⟨_, rfl, synced₁.setLog h _⟩

/-- A sync of an oplog of the other dkey without operations. -/
theorem Without.syncEntry_other {q : UInt64} {m : Bytes} {h : Handle} {out : Bytes → SyncOutcome}
    (rel : Without dkey p n s t) (other : h.dkey = dkey.other ∧ h.partID = p ∧ h.name = n)
    (idle : ∀ log, s.logs h = some log → log.m.entries = []) (run : s.syncEntry q out m h = .ok s') :
    Without dkey p n s' t := by
  rcases syncEntry_cases run with ⟨_, rfl⟩ | ⟨log, db, failed, found, synced, rfl⟩
  · exact rel
  · simp only [syncDMap, idle log found, true_or, if_true] at synced
    cases synced
    exact rel.setLog_other other _

/-- A sync of one oplog leaves the others without operations as they are. -/
theorem syncEntry_idle {q : UInt64} {m : Bytes} {h h' : Handle} {out : Bytes → SyncOutcome}
    (idle : ∀ log, s.logs h' = some log → log.m.entries = []) (run : s.syncEntry q out m h = .ok s') :
    ∀ log, s'.logs h' = some log → log.m.entries = [] := by
  rcases syncEntry_cases run with ⟨_, rfl⟩ | ⟨log, db, failed, found, synced, rfl⟩
  · exact idle
  · intro log' found'
    rcases setLog_found.1 found' with ⟨rfl, rfl⟩ | ⟨_, found'⟩
    · simp only [syncDMap, idle log found, true_or, if_true] at synced
      cases synced
      rfl
    · exact idle log' found'

/-- The round over the oplogs of the one is the round over the oplogs of the other. -/
theorem Without.syncEach {q : UInt64} {out : Bytes → SyncOutcome} {entries : List (Sigma fun _ : Bytes => Handle)}
    (rel : Without dkey p n s t) (idle : ∀ e ∈ entries, e.2.dkey = dkey.other ∧ e.2.partID = p ∧ e.2.name = n →
      ∀ log, s.logs e.2 = some log → log.m.entries = [])
    (run : s.syncEach q out entries = .ok s') :
    ∃ t', t.syncEach q out (entries.filter fun e => ¬ (e.2.dkey = dkey.other ∧ e.2.partID = p ∧ e.2.name = n)) =
      .ok t' ∧
      Without dkey p n s' t' := by
  induction entries generalizing s t with
  | nil =>
    cases run
    exact ⟨t, rfl, rel⟩
  | cons e entries ih =>
    obtain ⟨mid, first, rest⟩ := syncEach_cons run
    have idle' : ∀ e ∈ entries, e.2.dkey = dkey.other ∧ e.2.partID = p ∧ e.2.name = n →
        ∀ log, mid.logs e.2 = some log → log.m.entries = [] :=
      fun e mem other => syncEntry_idle (idle e (.tail _ mem) other) first
    by_cases other : e.2.dkey = dkey.other ∧ e.2.partID = p ∧ e.2.name = n
    · rw [List.filter_cons_of_neg (by simpa using other)]
      exact ih (rel.syncEntry_other other (idle e (.head _) other) first) idle' rest
    · rw [List.filter_cons_of_pos (by exact decide_eq_true other)]
      obtain ⟨mid', first', rel'⟩ := rel.syncEntry other first
      obtain ⟨t', rest', last⟩ := ih rel' idle' rest
      refine ⟨t', ?_, last⟩
      rw [Snapshot.syncEach, first']
      exact rest'

theorem kerase_eq_filter {l : List (Sigma fun _ : Bytes => Handle)} (nodup : l.NodupKeys) (m : Bytes) :
    l.kerase m = l.filter fun e => e.1 ≠ m := by
  induction l with
  | nil => rfl
  | cons e l ih =>
    rw [List.nodupKeys_cons] at nodup
    by_cases same : m = e.1
    · rw [List.kerase_cons_eq same, List.filter_cons_of_neg (by simp [same]), eq_comm, List.filter_eq_self]
      intro e' mem
      have other : e'.1 ≠ e.1 := fun eq => nodup.1 (eq ▸ List.mem_keys_of_mem mem)
      simpa [same] using other
    · rw [List.kerase_cons_ne same, ih nodup.2, List.filter_cons_of_pos (by exact decide_eq_true (Ne.symm same))]

/-- The oplogs of the one are the oplogs of the other that do not belong to the dmap. -/
theorem Without.entries (rel : Without dkey p n s t) (q : UInt64) : (t.oplogs q).entries =
    (s.oplogs q).entries.filter fun e => ¬ (e.2.dkey = dkey.other ∧ e.2.partID = p ∧ e.2.name = n) := by
  have at_ : ∀ e ∈ (s.oplogs q).entries, (s.oplogs q).lookup e.1 = some e.2 ∧ e.2.partID = q ∧ e.2.name = e.1 := by
    intro e mem
    have found : (s.oplogs q).lookup e.1 = some e.2 := AList.mem_lookup_iff.2 mem
    exact ⟨found, rel.placed q e.1 e.2 found⟩
  rw [rel.oplogs q]
  split
  · rename_i here
    subst here
    rcases strip_cases dkey.other n (s.oplogs q) with ⟨h, found, other, stripped⟩ | ⟨theirs, stripped⟩
    · rw [stripped]
      refine (kerase_eq_filter (s.oplogs q).nodupKeys n).trans (List.filter_congr ?_)
      intro e mem
      obtain ⟨found', placed, named⟩ := at_ e mem
      by_cases same : e.1 = n
      · subst same
        cases found.symm.trans found'
        simp [other, placed, named]
      · simp [same, named]
    · rw [stripped, eq_comm, List.filter_eq_self]
      intro e mem
      obtain ⟨found', _, named⟩ := at_ e mem
      apply decide_eq_true
      rintro ⟨other, _, same⟩
      rw [← named, same] at found'
      exact theirs e.2 found' other
  · rename_i elsewhere
    rw [eq_comm, List.filter_eq_self]
    intro e mem
    apply decide_eq_true
    rintro ⟨_, here, _⟩
    exact elsewhere ((at_ e mem).2.1.symm.trans here)

theorem Without.sync {q : UInt64} {out : Bytes → SyncOutcome} (rel : Without dkey p n s t)
    (idle : q = p → ∀ h log, (s.oplogs p).lookup n = some h → h.dkey = dkey.other → s.logs h = some log →
      log.m.entries = [])
    (run : s.sync q out = .ok s') : ∃ t', t.sync q out = .ok t' ∧ Without dkey p n s' t' := by
  unfold Snapshot.sync at run ⊢
  split at run
  · rename_i running
    have idle' : ∀ e ∈ (s.oplogs q).entries, e.2.dkey = dkey.other ∧ e.2.partID = p ∧ e.2.name = n →
        ∀ log, s.logs e.2 = some log → log.m.entries = [] := by
      rintro e mem ⟨other, inside, same⟩ log logged
      have found : (s.oplogs q).lookup e.1 = some e.2 := AList.mem_lookup_iff.2 mem
      obtain ⟨placed, named⟩ := rel.placed q e.1 e.2 found
      have here : q = p := placed.symm.trans inside
      rw [here, ← named, same] at found
      exact idle here e.2 log found other logged
    obtain ⟨t', run', rel'⟩ := rel.syncEach idle' run
    rw [← rel.entries] at run'
    rcases rel.workers q with same | ⟨_, none, _, unused⟩
    · rw [if_pos (same.trans running)]
      exact ⟨t', run', rel'⟩
    · -- without the other dkey's dmap the partition has had no worker and has no oplog
      rw [unused] at run'
      cases run'
      rw [none]
      exact ⟨t, rfl, rel'⟩
  · rename_i stopped
    cases run
    refine ⟨t, if_neg ?_, rel⟩
    rcases rel.workers q with same | ⟨_, none, _⟩
    · rwa [same]
    · simp [none]

end Snapshot

end Olric
