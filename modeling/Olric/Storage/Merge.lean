import Olric.Storage.Store

namespace Olric

/-- Why a merge step stopped before all older tables were empty: the target
table is full, or 1001 entries have been moved. -/
inductive MergeStop
  | full
  | enough

/-- The loop over the hkeys of one older table. The first argument is what is left of the
iteration order of its map; the tables are the older one and the target. -/
def mergeTable : List UInt64 → Table → Table → Nat → (Table × Table × Nat) × Option MergeStop
  | [], old, fresh, total => ((old, fresh, total), none)
  | hkey :: order, old, fresh, total =>
    match fresh.putRaw hkey ((old.getRaw hkey).getD []) with
    | .error _ => ((old, fresh, total), some .full)
    | .ok fresh =>
      let old := (old.delete hkey).2
      let total := total + 1
      if total > 1000 then ((old, fresh, total), some .enough)
      else mergeTable order old fresh total

/-- The loop over the older tables, each given with the iteration order of its map. -/
def mergeOlder : List (Table × List UInt64) → Table → Nat → (List Table × Table) × Option MergeStop
  | [], fresh, _ => (([], fresh), none)
  | (old, order) :: rest, fresh, total =>
    match mergeTable order old fresh total with
    | ((old, fresh, _), some stop) => ((old :: rest.map Prod.fst, fresh), some stop)
    | ((old, fresh, total), none) =>
      match mergeOlder rest fresh total with
      | ((olds, fresh), stop) => ((old :: olds, fresh), stop)

/-- One step of the background merge. `order i` is the iteration order of the map of the
`i`-th table and `mmapOk` the outcome of the one mmap call a step can make. -/
def Storage.chunkedMergeTables (s : Storage) (order : Nat → List UInt64) (mmapOk : Bool) :
    Except Halt (Bool × Storage) :=
  match s.tables.getLast? with
  | none => .error .panic
  | some fresh =>
    if s.tables.length = 1 then .ok (true, s)
    else
      match mergeOlder (s.tables.dropLast.mapIdx fun i old => (old, order i)) fresh 0 with
      | ((olds, fresh), some .full) =>
        let s := { s with tables := olds ++ [fresh] }
        match newTable mmapOk (fresh.allocated * 2) with
        | .error _ => .ok (false, s)
        | .ok nt => .ok (false, { s with tables := s.tables ++ [nt] })
      | ((olds, fresh), some .enough) => .ok (false, { s with tables := olds ++ [fresh] })
      | ((olds, fresh), none) =>
        .ok (true, { s with tables := fresh :: olds.filter fun t => t.hkeys.keys.card ≠ 0 })

end Olric
