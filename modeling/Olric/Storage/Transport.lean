import Olric.Storage.Store

namespace Olric

/-- The struct that `Export` serializes. -/
structure Transport where
  hkeys : Finmap fun _ : UInt64 => Nat
  memory : Bytes
  offset : Nat
  allocated : Nat
  inuse : Int
  garbage : Int

namespace Storage

/-- `Export`, before the struct is marshalled. A closed storage has no table and is fragmented, too. -/
def exportTable (s : Storage) : Except StorageError Transport :=
  match s.tables with
  | [t] =>
    .ok { hkeys := t.hkeys, memory := t.memory.slice 0 t.offset ++ [0], offset := t.offset,
          allocated := t.allocated, inuse := t.inuse, garbage := t.garbage }
  | _ => .error .fragmented

/-- `Import`, after the struct is unmarshalled. -/
def importTable (mmapOk : Bool) (tr : Transport) : Except StorageError Storage :=
  (newTable mmapOk tr.allocated).map fun t =>
    { tables := [{ t with hkeys := tr.hkeys, offset := tr.offset, inuse := tr.inuse, garbage := tr.garbage,
                          memory := t.memory.copy 0 tr.memory }],
      merging := false, closed := false }

/-- The entries that `Range` goes through, table by table from the newest on, each table in an
order that its map gives. -/
def Visits (s : Storage) (visits : List (List (UInt64 × VData))) : Prop :=
  List.Forall₂ (fun t visit => t.Enumerates (visit.map Prod.fst) ∧ ∀ e ∈ visit, t.get e.1 = some e.2)
    s.tables.reverse visits

end Storage

end Olric
