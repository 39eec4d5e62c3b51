import Mathlib.Data.Finset.Image
import Mathlib.Data.Finset.Prod
import Mathlib.Logic.Function.Basic
import Olric.Basic
import Olric.Lib.BigEndian

namespace Olric

/-- `PrimaryDMapKey` and `BackupDMapKey`. -/
inductive DKey
  | primary
  | backup
deriving DecidableEq

def DKey.bytes : DKey → Bytes
  | .primary => "primary-dmap-key".toUTF8.data.toList
  | .backup => "backup-dmap-key".toUTF8.data.toList

/-- The partition ID is printed as a signed number. -/
def dmapKey (partID : UInt64) (name : Bytes) : Bytes :=
  "dmap-keys-".toUTF8.data.toList ++ name ++ "-".toUTF8.data.toList ++
    (toString partID.toInt64.toInt).toUTF8.data.toList

/-- The key of a value. -/
def bkey (hkey : UInt64) : Bytes := BigEndian.encode 8 hkey.toNat

/-- What the snapshot marshals into a value of the store. `onDiskDMaps` has no empty maps in it, so
it is a set of partition IDs and names. -/
inductive Record
  | dmaps (value : Finset (UInt64 × Bytes))
  | hkeys (value : Finset UInt64)
  | raw (value : Bytes)

inductive BadgerError
  | keyNotFound
  | unmarshal
deriving DecidableEq

/-- The contents of the store. -/
abbrev Badger := Bytes → Option Record

namespace Badger

def set (db : Badger) (key : Bytes) (record : Record) : Badger := Function.update db key (some record)

def delete (db : Badger) (key : Bytes) : Badger := Function.update db key none

def dmaps (db : Badger) (dkey : DKey) : Except BadgerError (Finset (UInt64 × Bytes)) :=
  match db dkey.bytes with
  | some (.dmaps value) => .ok value
  | some _ => .error .unmarshal
  | none => .error .keyNotFound

def hkeys (db : Badger) (partID : UInt64) (name : Bytes) : Except BadgerError (Finset UInt64) :=
  match db (dmapKey partID name) with
  | some (.hkeys value) => .ok value
  | some _ => .error .unmarshal
  | none => .error .keyNotFound

def registerOnBadger (db : Badger) (dkey : DKey) (partID : UInt64) (name : Bytes) : Except BadgerError Badger :=
  match db.dmaps dkey with
  | .ok value => .ok (db.set dkey.bytes (.dmaps (insert (partID, name) value)))
  | .error .keyNotFound => .ok (db.set dkey.bytes (.dmaps {(partID, name)}))
  | .error e => .error e

def unregisterOnBadger (db : Badger) (dkey : DKey) (partID : UInt64) (name : Bytes) : Except BadgerError Badger :=
  match db.dmaps dkey with
  | .ok value => .ok (db.set dkey.bytes (.dmaps (value.erase (partID, name))))
  | .error e => .error e

/-- A batch that deletes the values of hkeys. -/
def deleteValues (db : Badger) (hkeys : Finset UInt64) : Badger :=
  fun key => if key ∈ hkeys.image bkey then none else db key

/-- The name is registered on disk. -/
def Registered (db : Badger) (dkey : DKey) (partID : UInt64) (name : Bytes) : Prop :=
  ∃ dmaps, db.dmaps dkey = .ok dmaps ∧ (partID, name) ∈ dmaps

end Badger

theorem bkey_injective {hkey other : UInt64} (same : bkey hkey = bkey other) : hkey = other :=
  UInt64.toNat_inj.1 (BigEndian.encode_injective hkey.toNat_lt other.toNat_lt same)

theorem DKey.bytes_injective {dkey other : DKey} (same : dkey.bytes = other.bytes) : dkey = other := by
  cases dkey <;> cases other <;> first | rfl | (revert same; decide)

theorem dmapKey_ne_dkey (partID : UInt64) (name : Bytes) (dkey : DKey) : dmapKey partID name ≠ dkey.bytes := by
  intro same
  have first : (dmapKey partID name).head? = some 100 := rfl
  rw [same] at first
  cases dkey <;> revert first <;> decide

theorem bkey_length (hkey : UInt64) : (bkey hkey).length = 8 := BigEndian.encode_length 8 _

theorem bkey_ne_dkey (hkey : UInt64) (dkey : DKey) : bkey hkey ≠ dkey.bytes := by
  intro same
  have length := bkey_length hkey
  rw [same] at length
  cases dkey <;> revert length <;> decide

theorem bkey_ne_dmapKey (hkey partID : UInt64) (name : Bytes) : bkey hkey ≠ dmapKey partID name := by
  intro same
  have length := bkey_length hkey
  have text : ("dmap-keys-".toUTF8.data.toList).length = 10 := by decide
  rw [same, dmapKey, List.length_append, List.length_append, List.length_append, text] at length
  omega

namespace Badger

variable {db : Badger} {dkey : DKey} {partID : UInt64} {name : Bytes}

theorem deleteValues_bkey {hkeys : Finset UInt64} {hkey : UInt64} :
    db.deleteValues hkeys (bkey hkey) = if hkey ∈ hkeys then none else db (bkey hkey) := by
  have listed : bkey hkey ∈ hkeys.image bkey ↔ hkey ∈ hkeys := by
    rw [Finset.mem_image]
    constructor
    · rintro ⟨other, mem, same⟩
      rwa [← bkey_injective same]
    · exact fun mem => ⟨hkey, mem, rfl⟩
  simp only [deleteValues, listed]

theorem deleteValues_of_ne {hkeys : Finset UInt64} {key : Bytes} (ne : ∀ hkey, key ≠ bkey hkey) :
    db.deleteValues hkeys key = db key := by
  have unlisted : key ∉ hkeys.image bkey := by
    rw [Finset.mem_image]
    rintro ⟨hkey, _, rfl⟩
    exact ne hkey rfl
  simp [deleteValues, unlisted]

theorem dmaps_ok {value : Finset (UInt64 × Bytes)} :
    db.dmaps dkey = .ok value ↔ db dkey.bytes = some (.dmaps value) := by
  unfold dmaps
  cases db dkey.bytes with
  | none => simp
  | some record => cases record <;> simp

theorem hkeys_ok {value : Finset UInt64} :
    db.hkeys partID name = .ok value ↔ db (dmapKey partID name) = some (.hkeys value) := by
  unfold hkeys
  cases db (dmapKey partID name) with
  | none => simp
  | some record => cases record <;> simp

/-- A registration touches the record of its dkey only, which then has the name. -/
theorem registerOnBadger_ok {db' : Badger} (run : db.registerOnBadger dkey partID name = .ok db') :
    ∃ value, db' = db.set dkey.bytes (.dmaps (insert (partID, name) value)) ∧
      ∀ entry, entry ∈ value ↔ ∃ old, db.dmaps dkey = .ok old ∧ entry ∈ old := by
  unfold registerOnBadger at run
  split at run
  · rename_i value found
    cases run
    exact ⟨value, rfl, fun entry => by simp [found]⟩
  · rename_i absent
    cases run
    exact ⟨∅, by simp, by simp [absent]⟩
  · cases run

theorem unregisterOnBadger_ok {db' : Badger} (run : db.unregisterOnBadger dkey partID name = .ok db') :
    ∃ value, db.dmaps dkey = .ok value ∧ db' = db.set dkey.bytes (.dmaps (value.erase (partID, name))) := by
  unfold unregisterOnBadger at run
  split at run
  · rename_i value found
    cases run
    exact ⟨value, found, rfl⟩
  · cases run

theorem set_dkey_bkey (record : Record) (hkey : UInt64) : db.set dkey.bytes record (bkey hkey) = db (bkey hkey) :=
  Function.update_of_ne (bkey_ne_dkey hkey dkey) ..

theorem set_dkey_hkeys (record : Record) : (db.set dkey.bytes record).hkeys partID name = db.hkeys partID name := by
  have same : db.set dkey.bytes record (dmapKey partID name) = db (dmapKey partID name) :=
    Function.update_of_ne (dmapKey_ne_dkey partID name dkey) ..
  unfold Badger.hkeys
  rw [same]

theorem set_dkey_dmaps {value : Finset (UInt64 × Bytes)} (other : DKey) :
    (db.set dkey.bytes (.dmaps value)).dmaps other = if other = dkey then .ok value else db.dmaps other := by
  by_cases same : other = dkey
  · subst same
    simp [Badger.dmaps, Badger.set]
  · have ne : other.bytes ≠ dkey.bytes := fun eq => same (DKey.bytes_injective eq)
    simp [Badger.dmaps, Badger.set, ne, same]

theorem deleteValues_dmaps (hkeys : Finset UInt64) (dkey : DKey) :
    (db.deleteValues hkeys).dmaps dkey = db.dmaps dkey := by
  unfold Badger.dmaps
  rw [deleteValues_of_ne fun hkey => (bkey_ne_dkey hkey dkey).symm]

theorem deleteValues_hkeys (hkeys : Finset UInt64) (partID : UInt64) (name : Bytes) :
    (db.deleteValues hkeys).hkeys partID name = db.hkeys partID name := by
  unfold Badger.hkeys
  rw [deleteValues_of_ne fun hkey => (bkey_ne_dmapKey hkey partID name).symm]

theorem deleteValues_set_dkey (hkeys : Finset UInt64) (record : Record) :
    (db.deleteValues hkeys).set dkey.bytes record = (db.set dkey.bytes record).deleteValues hkeys := by
  funext key
  by_cases same : key = dkey.bytes
  · subst same
    rw [deleteValues_of_ne fun hkey => (bkey_ne_dkey hkey dkey).symm, Badger.set, Badger.set, Function.update_self,
      Function.update_self]
  · simp [Badger.set, Badger.deleteValues, same]

theorem deleteValues_empty : db.deleteValues ∅ = db := by
  funext key
  simp [Badger.deleteValues]

theorem registered_registerOnBadger {db' : Badger} (run : db.registerOnBadger dkey partID name = .ok db') {d : DKey}
    {q : UInt64} {m : Bytes} : db'.Registered d q m ↔ db.Registered d q m ∨ d = dkey ∧ q = partID ∧ m = name := by
  obtain ⟨value, rfl, old⟩ := registerOnBadger_ok run
  unfold Registered
  rw [set_dkey_dmaps]
  by_cases same : d = dkey
  · subst same
    simp [old, or_comm]
  · simp [same]

theorem registered_unregisterOnBadger {db' : Badger}
    (run : db.unregisterOnBadger dkey partID name = .ok db') {d : DKey}
    {q : UInt64} {m : Bytes} : db'.Registered d q m ↔ db.Registered d q m ∧ ¬ (d = dkey ∧ q = partID ∧ m = name) := by
  obtain ⟨value, found, rfl⟩ := unregisterOnBadger_ok run
  unfold Registered
  rw [set_dkey_dmaps]
  by_cases same : d = dkey
  · subst same
    simp [found, and_comm]
  · simp [same]

end Badger

end Olric
