import Olric.Storage.Table

namespace Olric

/-- `tables` is ordered as in the source, the newest table last. `merging` is the
atomic flag of the merge goroutine and `closed` says that the context is cancelled. -/
structure Storage where
  tables : List Table
  merging : Bool
  closed : Bool

/-- A possible iteration order of the hkeys map: every key once. -/
structure Table.Enumerates (t : Table) (order : List UInt64) : Prop where
  nodup : order.Nodup
  complete : ∀ hkey, hkey ∈ order ↔ hkey ∈ t.hkeys

namespace Storage

def new (mmapOk : Bool) (size : Int) : Except StorageError Storage :=
  (newTable mmapOk size).map fun t => { tables := [t], merging := false, closed := false }

/-- `munmapOk` is the common outcome of the munmap calls. After a failed one the
tables stay in place, but the context has been cancelled. -/
def close (s : Storage) (munmapOk : Bool) : Storage × Bool :=
  if s.closed then (s, true)
  else if munmapOk then ({ s with tables := [], closed := true }, true)
  else ({ s with closed := true }, false)

/-- The retry loop shared by `Put` and `PutRaw`: write to the last table, and add a
new one while there is not enough space. One mmap outcome is used for each new table. -/
def retry (write : Table → Except StorageError Table) (mmaps : List Bool) (s : Storage) :
    Except Halt (Storage × Option StorageError) :=
  match s.tables.getLast? with
  | none => .error .panic
  | some t =>
    match write t with
    | .ok t => .ok ({ s with tables := s.tables.dropLast ++ [t] }, none)
    | .error .notEnoughSpace =>
      match mmaps with
      | [] => .error .running
      | mmapOk :: mmaps =>
        match newTable mmapOk (t.inuse * 2) with
        | .error e => .ok (s, some e)
        | .ok nt => retry write mmaps { s with tables := s.tables ++ [nt], merging := true }
    | .error e => .ok (s, some e)

def putRaw (s : Storage) (mmaps : List Bool) (hkey : UInt64) (value : Bytes) :
    Except Halt (Storage × Option StorageError) :=
  retry (·.putRaw hkey value) mmaps s

def put (s : Storage) (mmaps : List Bool) (hkey : UInt64) (value : VData) :
    Except Halt (Storage × Option StorageError) :=
  retry (·.put hkey value) mmaps s

def getRaw (s : Storage) (hkey : UInt64) : Except Halt (Except StorageError Bytes) :=
  if s.tables.isEmpty then .error .panic
  else match s.tables.reverse.findSome? (·.getRaw hkey) with
    | some rawval => .ok (.ok rawval)
    | none => .ok (.error .keyNotFound)

def get (s : Storage) (hkey : UInt64) : Except Halt (Except StorageError VData) :=
  if s.tables.isEmpty then .error .panic
  else match s.tables.reverse.findSome? (·.get hkey) with
    | some res => .ok (.ok res)
    | none => .ok (.error .keyNotFound)

/-- The scan of `Delete`, over the tables newest first: it stops at the first table
that has the key. -/
def deleteScan (hkey : UInt64) : List Table → List Table
  | [] => []
  | t :: older =>
    match t.delete hkey with
    | (true, t) => t :: deleteScan hkey older
    | (false, t) => t :: older

/-- `float64(t.allocated)*maxGarbageRatio <= float64(t.garbage)` with the ratio 0.40;
for sizes below 2^53 the rounded product compares as the exact one does. -/
def tooMuchGarbage (t : Table) : Bool := 2 * (t.allocated : Int) ≤ 5 * t.garbage

def delete (s : Storage) (mmapOk : Bool) (hkey : UInt64) : Except Halt (Storage × Option StorageError) :=
  if s.tables.isEmpty then .error .panic
  else
    let s := { s with tables := (deleteScan hkey s.tables.reverse).reverse }
    match s.tables with
    | [t] =>
      if tooMuchGarbage t then
        if s.merging then .ok (s, none)
        else
          let newSize := t.inuse * 2
          let newSize : Int := if newSize > t.allocated then t.allocated else newSize
          match newTable mmapOk newSize with
          | .error e => .ok (s, some e)
          | .ok nt => .ok ({ s with tables := s.tables ++ [nt], merging := true }, none)
      else .ok (s, none)
    | _ => .ok (s, none)

def len (s : Storage) : Nat := (s.tables.map fun t => t.hkeys.keys.card).sum

def check (s : Storage) (hkey : UInt64) : Except Halt Bool :=
  if s.tables.isEmpty then .error .panic
  else .ok (s.tables.reverse.any fun t => hkey ∈ t.hkeys)

end Storage

end Olric
