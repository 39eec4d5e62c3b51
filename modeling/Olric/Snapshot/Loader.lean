import Olric.Snapshot.Badger
import Olric.Storage.Refinement

namespace Olric

inductive LoadError
  | firstRun
  | badger (e : BadgerError)
  | storage (e : StorageError)
  | halt (h : Halt)

/-- The dmaps that the loader has to restore. -/
def newLoader (db : Badger) (dkey : DKey) : Except LoadError (Finset (UInt64 × Bytes)) :=
  match db.dmaps dkey with
  | .ok dmaps => .ok dmaps
  | .error .keyNotFound => .error .firstRun
  | .error e => .error (.badger e)

/-- The loop over the hkeys of a dmap. `mmaps` are the outcomes of mmap during one `PutRaw`. -/
def loadFromBadger (db : Badger) (mmaps : List Bool) (o : Storage) : List UInt64 → Except LoadError Storage
  | [] => .ok o
  | hkey :: hkeys =>
    match db (bkey hkey) with
    | none => .error (.badger .keyNotFound)
    | some (.raw val) =>
      match o.putRaw mmaps hkey val with
      | .ok (o, none) => loadFromBadger db mmaps o hkeys
      | .ok (_, some e) => .error (.storage e)
      | .error halt => .error (.halt halt)
    | some _ => .error (.badger .unmarshal)

/-- `Next`, for the dmap that the map of the loader gives it and with the order of the hkeys. -/
def loadDMap (db : Badger) (mmaps : List Bool) (partID : UInt64) (name : Bytes) (order : List UInt64) :
    Except LoadError Storage :=
  match db.hkeys partID name with
  | .error e => .error (.badger e)
  | .ok _ =>
    match Storage.new true 0 with
    | .error e => .error (.storage e)
    | .ok o => loadFromBadger db mmaps o order

/-- A dmap of the loader with an order of its hkeys. -/
structure Visit where
  partID : UInt64
  name : Bytes
  order : List UInt64

/-- `Next` until there is no dmap left. -/
def loadAll (db : Badger) (mmaps : List Bool) : List Visit → Except LoadError (List Storage)
  | [] => .ok []
  | visit :: visits =>
    match loadDMap db mmaps visit.partID visit.name visit.order with
    | .error e => .error e
    | .ok str =>
      match loadAll db mmaps visits with
      | .error e => .error e
      | .ok strs => .ok (str :: strs)

/-- A possible order of the dmaps and of their hkeys. -/
structure Visits (db : Badger) (dmaps : Finset (UInt64 × Bytes)) (visits : List Visit) : Prop where
  nodup : (visits.map fun visit => (visit.partID, visit.name)).Nodup
  complete : ∀ entry, entry ∈ visits.map (fun visit => (visit.partID, visit.name)) ↔ entry ∈ dmaps
  orders : ∀ visit ∈ visits, ∀ hkeys, db.hkeys visit.partID visit.name = .ok hkeys →
    visit.order.Nodup ∧ ∀ hkey, hkey ∈ visit.order ↔ hkey ∈ hkeys

/-- The loader ends with `ErrFirstRun` or `ErrLoaderDone`, when one mmap call a value succeeds. -/
def LoaderEnds (db : Badger) (dkey : DKey) : Prop :=
  newLoader db dkey = .error .firstRun ∨ ∃ dmaps, newLoader db dkey = .ok dmaps ∧
    ∀ visits, Visits db dmaps visits → ∃ strs, loadAll db [true] visits = .ok strs

/-- Every registered dmap has its record of hkeys, and each of them a value. -/
def Badger.Complete (db : Badger) (dkey : DKey) : Prop :=
  ∀ partID name, db.Registered dkey partID name → ∃ hkeys, db.hkeys partID name = .ok hkeys ∧
    ∀ hkey ∈ hkeys, ∃ val, db (bkey hkey) = some (.raw val)

theorem Storage.putRaw_returns {s : Storage} (nonempty : s.tables ≠ []) (hkey : UInt64) {value : Bytes}
    (small : value.length < 2 ^ 20) : ∃ s', s.putRaw [true] hkey value = .ok (s', none) ∧ s'.tables ≠ [] := by
  obtain ⟨t, last⟩ := Option.isSome_iff_exists.1 (List.getLast?_isSome.2 nonempty)
  by_cases full : t.allocated ≤ value.length + t.offset
  · obtain ⟨nt, fresh, offset, allocated⟩ := Table.newTable_returns (t.inuse * 2)
    have fits : ¬ nt.allocated ≤ value.length + nt.offset := by omega
    simp [putRaw, retry, last, Table.putRaw, full, fresh, fits]
  · simp [putRaw, retry, last, Table.putRaw, full]

section

variable {db : Badger} {dkey : DKey}

theorem loadFromBadger_returns {order : List UInt64} {o : Storage} (nonempty : o.tables ≠ [])
    (values : ∀ hkey ∈ order, ∃ val, db (bkey hkey) = some (.raw val) ∧ val.length < 2 ^ 20) :
    ∃ o', loadFromBadger db [true] o order = .ok o' := by
  induction order generalizing o with
  | nil => exact ⟨o, rfl⟩
  | cons hkey order ih =>
    obtain ⟨val, stored, small⟩ := values hkey (.head _)
    obtain ⟨o', put, nonempty⟩ := Storage.putRaw_returns nonempty hkey small
    obtain ⟨last, rest⟩ := ih nonempty fun other mem => values other (.tail _ mem)
    exact ⟨last, by simp [loadFromBadger, stored, put, rest]⟩

theorem loadDMap_returns {partID : UInt64} {name : Bytes} {hkeys : Finset UInt64} {order : List UInt64}
    (found : db.hkeys partID name = .ok hkeys)
    (values : ∀ hkey ∈ order, ∃ val, db (bkey hkey) = some (.raw val) ∧ val.length < 2 ^ 20) :
    ∃ str, loadDMap db [true] partID name order = .ok str := by
  obtain ⟨t, fresh, _⟩ := Table.newTable_returns 0
  have made : Storage.new true 0 = .ok ⟨[t], false, false⟩ := by simp [Storage.new, fresh, Except.map]
  simp only [loadDMap, found, made]
  exact loadFromBadger_returns (by simp) values

/-- The loaded values are what the entries say. -/
theorem loadFromBadger_spec {view : UInt64 → Option VData} {mmaps : List Bool} {order : List UInt64} {o str : Storage}
    (valid : o.Valid)
    (values : ∀ hkey ∈ order, ∃ raw v, db (bkey hkey) = some (.raw raw) ∧ decodeRaw raw = .ok v ∧ view hkey = some v)
    (run : loadFromBadger db mmaps o order = .ok str) :
    str.Valid ∧ ∀ hkey, str.layers.lookup hkey = if hkey ∈ order then view hkey else o.layers.lookup hkey := by
  induction order generalizing o with
  | nil =>
    cases Except.ok.inj run
    exact ⟨valid, fun _ => rfl⟩
  | cons first order ih =>
    obtain ⟨raw, v, stored, decoded, shown⟩ := values first (.head _)
    obtain ⟨fits, rest, rfl⟩ := decodeRaw_eq_ok decoded
    simp only [loadFromBadger, stored] at run
    split at run
    · rename_i o' put
      obtain ⟨valid', lookup⟩ := Storage.putRaw_spec valid fits put
      obtain ⟨last, shows'⟩ := ih valid' (fun hkey mem => values hkey (.tail _ mem)) run
      refine ⟨last, fun hkey => ?_⟩
      rw [shows', lookup]
      by_cases later : hkey ∈ order
      · simp [later]
      · by_cases same : hkey = first
        · subst same
          simp [later, shown]
        · simp [later, same]
    · cases run
    · cases run

theorem loadDMap_spec {view : UInt64 → Option VData} {mmaps : List Bool} {partID : UInt64} {name : Bytes}
    {order : List UInt64} {str : Storage} (complete : ∀ hkey, hkey ∈ order ↔ view hkey ≠ none)
    (values : ∀ hkey v, view hkey = some v → ∃ raw, db (bkey hkey) = some (.raw raw) ∧ decodeRaw raw = .ok v)
    (run : loadDMap db mmaps partID name order = .ok str) (hkey : UInt64) :
    str.get hkey = .ok (Storage.answer (view hkey)) := by
  unfold loadDMap at run
  split at run
  · cases run
  split at run
  · cases run
  rename_i o made
  obtain ⟨valid, none⟩ := Storage.new_spec made
  obtain ⟨valid', lookup⟩ := loadFromBadger_spec valid (fun hkey mem => by
    obtain ⟨v, found⟩ := Option.ne_none_iff_exists'.1 ((complete hkey).1 mem)
    obtain ⟨raw, stored, decoded⟩ := values hkey v found
    exact ⟨raw, v, stored, decoded, found⟩) run
  rw [Storage.get_eq valid'.nonempty, lookup, none]
  by_cases mem : hkey ∈ order
  · rw [if_pos mem]
  · rw [if_neg mem, not_not.1 (mt (complete hkey).2 mem)]

theorem loadAll_returns {visits : List Visit}
    (loads : ∀ visit ∈ visits, ∃ str, loadDMap db [true] visit.partID visit.name visit.order = .ok str) :
    ∃ strs, loadAll db [true] visits = .ok strs := by
  induction visits with
  | nil => exact ⟨[], rfl⟩
  | cons visit visits ih =>
    obtain ⟨str, first⟩ := loads visit (.head _)
    obtain ⟨strs, rest⟩ := ih fun other mem => loads other (.tail _ mem)
    exact ⟨str :: strs, by simp [loadAll, first, rest]⟩

/-- A complete store with values below the size of a fresh table can be loaded. -/
theorem Badger.Complete.loaderEnds (complete : db.Complete dkey)
    (typed : ∀ e, db.dmaps dkey = .error e → e = .keyNotFound)
    (small : ∀ hkey val, db (bkey hkey) = some (.raw val) → val.length < 2 ^ 20) : LoaderEnds db dkey := by
  cases found : db.dmaps dkey with
  | error e =>
    cases typed e found
    exact .inl (by simp [newLoader, found])
  | ok dmaps =>
    refine .inr ⟨dmaps, by simp [newLoader, found], fun visits order => loadAll_returns fun visit mem => ?_⟩
    have listed : (visit.partID, visit.name) ∈ dmaps := (order.complete _).1 (List.mem_map.2 ⟨visit, mem, rfl⟩)
    obtain ⟨hkeys, known, values⟩ := complete visit.partID visit.name ⟨dmaps, found, listed⟩
    refine loadDMap_returns known fun hkey visited => ?_
    obtain ⟨val, stored⟩ := values hkey (((order.orders visit mem hkeys known).2 hkey).1 visited)
    exact ⟨val, stored, small hkey val stored⟩

end

end Olric
