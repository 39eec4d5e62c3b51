import Olric.Storage.Merge
import Olric.Storage.StoreSpec

namespace Olric

/-- All that the loops of a merge step do: `n` times an entry of an older table is copied into the
newest one and then deleted where it was. -/
inductive Moves : Nat → List Table → Table → List Table → Table → Prop
  | refl {olds fresh} : Moves 0 olds fresh olds fresh
  | move {n before old after fresh hkey fresh' olds fresh''} : hkey ∈ old.hkeys →
      fresh.putRaw hkey ((old.getRaw hkey).getD []) = .ok fresh' →
      Moves n (before ++ (old.delete hkey).2 :: after) fresh' olds fresh'' →
      Moves (n + 1) (before ++ old :: after) fresh olds fresh''

theorem Moves.trans {m n : Nat} {olds olds' olds'' : List Table} {fresh fresh' fresh'' : Table}
    (first : Moves m olds fresh olds' fresh') (second : Moves n olds' fresh' olds'' fresh'') :
    Moves (m + n) olds fresh olds'' fresh'' := by
  induction first with
  | refl => rwa [Nat.zero_add]
  | move mem done _ ih =>
    rw [Nat.add_right_comm]
    exact .move mem done (ih second)

/-- What each move keeps, all moves keep. The number counts the moves made. -/
theorem Moves.keeps {P : Nat → List Table → Table → Prop} {n : Nat} {olds olds' : List Table} {fresh fresh' : Table}
    (moves : Moves n olds fresh olds' fresh')
    (step : ∀ {k before old after fresh hkey fresh'}, hkey ∈ old.hkeys →
      fresh.putRaw hkey ((old.getRaw hkey).getD []) = .ok fresh' →
      P k (before ++ old :: after) fresh → P (k + 1) (before ++ (old.delete hkey).2 :: after) fresh')
    (start : P 0 olds fresh) : P n olds' fresh' := by
  suffices later : ∀ k, P k olds fresh → P (k + n) olds' fresh' by
    have result := later 0 start
    rwa [Nat.zero_add] at result
  clear start
  induction moves with
  | refl => exact fun k start => start
  | @move n _ _ _ _ _ _ _ _ mem done _ ih =>
    intro k start
    have result := ih (k + 1) (step mem done start)
    rwa [Nat.add_right_comm] at result

/-- The bytes that the raw copy of an entry takes. -/
def Table.rawSize (v : VData) : Nat := v.encode.length + 1

/-- What one move does to the two tables. -/
structure Moved (hkey : UInt64) (v : VData) (old fresh fresh' : Table) : Prop where
  found : old.get hkey = some v
  valid : fresh'.Valid
  get : fresh'.get = Function.update fresh.get hkey (some v)
  offset : fresh'.offset = fresh.offset + Table.rawSize v
  allocated : fresh'.allocated = fresh.allocated

theorem moved {old fresh fresh' : Table} {hkey : UInt64} (oldValid : old.Valid) (freshValid : fresh.Valid)
    (mem : hkey ∈ old.hkeys) (done : fresh.putRaw hkey ((old.getRaw hkey).getD []) = .ok fresh') :
    ∃ v, Moved hkey v old fresh fresh' := by
  obtain ⟨v, found⟩ := Option.isSome_iff_exists.1 (Table.isSome_get.2 mem)
  obtain ⟨_, _, entry⟩ := oldValid.entry_of_get found
  rw [oldValid.getRaw_eq, found] at done
  obtain ⟨valid, get⟩ := Table.putRaw_spec freshValid entry.fits done
  obtain ⟨_, rfl⟩ := Table.putRaw_ok done
  exact ⟨v, found, valid, get, by simp [Table.append, Table.rawSize], rfl⟩

/-- Why a loop was left: something has been moved, or the next entry does not fit. -/
def Stopped (n : Nat) (olds : List Table) (fresh : Table) : Option MergeStop → Prop
  | none => True
  | some .enough => 0 < n
  | some .full => ∃ old ∈ olds, ∃ hkey ∈ old.hkeys,
      fresh.allocated ≤ ((old.getRaw hkey).getD []).length + fresh.offset

theorem Stopped.mono {m n : Nat} {olds : List Table} {fresh : Table} {stop : Option MergeStop} (le : m ≤ n)
    (stopped : Stopped m olds fresh stop) : Stopped n olds fresh stop := by
  match stop with
  | none => trivial
  | some .enough => exact Nat.lt_of_lt_of_le stopped le
  | some .full => exact stopped

theorem mergeTable_moves (before after : List Table) (order : List UInt64) (old fresh : Table) (total : Nat)
    (nodup : order.Nodup) (present : ∀ hkey ∈ order, hkey ∈ old.hkeys) :
    let result := mergeTable order old fresh total
    ∃ n, Moves n (before ++ old :: after) fresh (before ++ result.1.1 :: after) result.1.2.1 ∧
      Stopped n (before ++ result.1.1 :: after) result.1.2.1 result.2 := by
  induction order generalizing old fresh total with
  | nil => exact ⟨0, .refl, trivial⟩
  | cons hkey order ih =>
    obtain ⟨notLater, nodup⟩ := List.nodup_cons.1 nodup
    have here := present hkey List.mem_cons_self
    unfold mergeTable
    split
    · next e full =>
      refine ⟨0, .refl, old, by simp, hkey, here, ?_⟩
      unfold Table.putRaw at full
      dsimp only at full
      split at full
      · assumption
      · cases full
    · next fresh' done =>
      dsimp only
      split
      · exact ⟨1, .move here done .refl, Nat.one_pos⟩
      · have later (other : UInt64) (mem : other ∈ order) : other ∈ (old.delete hkey).2.hkeys := by
          have ne : other ≠ hkey := fun same => notLater (same ▸ mem)
          rw [← Table.isSome_get, Table.delete_get, Function.update_of_ne ne, Table.isSome_get]
          exact present other (List.mem_cons_of_mem _ mem)
        obtain ⟨n, moves, stopped⟩ := ih (old.delete hkey).2 fresh' (total + 1) nodup later
        exact ⟨n + 1, .move here done moves, stopped.mono (Nat.le_succ n)⟩

theorem mergeOlder_moves (before : List Table) (older : List (Table × List UInt64)) (fresh : Table) (total : Nat)
    (orders : ∀ entry ∈ older, entry.1.Enumerates entry.2) :
    let result := mergeOlder older fresh total
    ∃ n, Moves n (before ++ older.map Prod.fst) fresh (before ++ result.1.1) result.1.2 ∧
      Stopped n (before ++ result.1.1) result.1.2 result.2 := by
  induction older generalizing before fresh total with
  | nil => exact ⟨0, .refl, trivial⟩
  | cons entry rest ih =>
    obtain ⟨old, order⟩ := entry
    have enumerates : old.Enumerates order := orders (old, order) List.mem_cons_self
    obtain ⟨m, moves, stopped⟩ := mergeTable_moves before (rest.map Prod.fst) order old fresh total
      enumerates.nodup fun hkey => (enumerates.complete hkey).1
    unfold mergeOlder
    split
    · next old' fresh' total' stop run =>
      rw [run] at moves stopped
      exact ⟨m, moves, stopped⟩
    · next old' fresh' total' run =>
      rw [run] at moves
      obtain ⟨n, moves', stopped'⟩ := ih (before ++ [old']) fresh' total' fun entry mem =>
        orders entry (List.mem_cons_of_mem _ mem)
      rw [List.append_assoc, List.append_assoc, List.singleton_append, List.singleton_append] at moves'
      rw [List.append_assoc, List.singleton_append] at stopped'
      exact ⟨m + n, moves.trans moves', stopped'.mono (Nat.le_add_left n m)⟩

/-- A loop over one older table that is not stopped leaves nothing of what it goes through. -/
theorem mergeTable_empties {order : List UInt64} {old fresh old' fresh' : Table} {total total' : Nat}
    (run : mergeTable order old fresh total = ((old', fresh', total'), none)) {hkey : UInt64}
    (gone : old.get hkey = none ∨ hkey ∈ order) : old'.get hkey = none := by
  induction order generalizing old fresh total with
  | nil =>
    cases run
    exact gone.resolve_right (List.not_mem_nil)
  | cons next order ih =>
    unfold mergeTable at run
    split at run
    · cases run
    · dsimp only at run
      split at run
      · cases run
      · refine ih run ?_
        rw [Table.delete_get]
        by_cases same : hkey = next
        · exact .inl (by rw [same, Function.update_self])
        · rw [Function.update_of_ne same]
          exact gone.imp id fun mem => (List.mem_cons.1 mem).resolve_left same

theorem mergeOlder_empties {older : List (Table × List UInt64)} {fresh fresh' : Table} {total : Nat}
    {olds : List Table} (run : mergeOlder older fresh total = ((olds, fresh'), none))
    (orders : ∀ entry ∈ older, entry.1.Enumerates entry.2) :
    ∀ t ∈ olds, t.get = fun _ => none := by
  induction older generalizing fresh total olds with
  | nil =>
    cases run
    nofun
  | cons entry rest ih =>
    obtain ⟨old, order⟩ := entry
    have enumerates : old.Enumerates order := orders (old, order) List.mem_cons_self
    unfold mergeOlder at run
    split at run
    · cases run
    next old' fresh' total' merged =>
      dsimp only at run
      cases tail : mergeOlder rest fresh' total' with
      | mk result stop =>
        rw [tail] at run
        cases run
        refine List.forall_mem_cons.2 ⟨funext fun hkey => mergeTable_empties merged ?_,
          ih tail fun entry member => orders entry (List.mem_cons_of_mem _ member)⟩
        rw [Table.get_eq_none_iff, ← enumerates.complete]
        exact (em (hkey ∈ order)).symm

namespace Storage

/-- The older tables, each with the iteration order of its map. -/
def mergeInput (s : Storage) (order : Nat → List UInt64) : List (Table × List UInt64) :=
  s.tables.dropLast.mapIdx fun i old => (old, order i)

/-- `order i` is a possible iteration order of the `i`-th table, for every table but the last. -/
def MergeOrder (s : Storage) (order : Nat → List UInt64) : Prop :=
  ∀ (i : Nat) (t : Table), s.tables.dropLast[i]? = some t → t.Enumerates (order i)

theorem mergeInput_mem {s : Storage} {order : Nat → List UInt64} (orders : s.MergeOrder order)
    {entry : Table × List UInt64} (member : entry ∈ s.mergeInput order) :
    entry.1 ∈ s.tables ∧ entry.1.Enumerates entry.2 := by
  obtain ⟨i, bound, rfl⟩ := List.mem_iff_getElem.mp member
  simp only [mergeInput, List.length_mapIdx] at bound
  simp only [mergeInput, List.getElem_mapIdx]
  exact ⟨List.mem_of_mem_dropLast (List.getElem_mem bound), orders i _ (List.getElem?_eq_getElem bound)⟩

/-- The exits of one merge step: nothing to do, stopped early (with or without a new table
after the target), or all older tables merged and the empty ones dropped. -/
theorem chunkedMergeTables_cases {s s' : Storage} {order : Nat → List UInt64} {mmapOk done : Bool}
    (run : s.chunkedMergeTables order mmapOk = .ok (done, s')) :
    (done = true ∧ s.tables.length = 1 ∧ s' = s) ∨
      ∃ fresh olds fresh' stop, s.tables.getLast? = some fresh ∧
        mergeOlder (s.mergeInput order) fresh 0 = ((olds, fresh'), stop) ∧
        (((done = false ∧ (stop = some .enough ∨ mmapOk = false)) ∧ s' = { s with tables := olds ++ [fresh'] }) ∨
          ((done = false ∧ stop = some .full) ∧ ∃ nt, newTable mmapOk (fresh'.allocated * 2) = .ok nt ∧
            s' = { s with tables := olds ++ [fresh'] ++ [nt] }) ∨
          (done = true ∧ stop = none ∧
            s' = { s with tables := fresh' :: olds.filter fun t => t.hkeys.keys.card ≠ 0 })) := by
  unfold chunkedMergeTables at run
  split at run
  · cases run
  · rename_i fresh last
    split at run
    · rename_i single
      cases run
      exact Or.inl ⟨rfl, single, rfl⟩
    · right
      split at run
      · rename_i olds fresh' merged
        refine ⟨fresh, olds, fresh', _, last, merged, ?_⟩
        dsimp only at run
        split at run
        · rename_i e failed
          cases run
          have noMap : mmapOk = false := by
            cases mmapOk with
            | false => rfl
            | true => cases failed
          exact Or.inl ⟨⟨rfl, Or.inr noMap⟩, rfl⟩
        · rename_i nt new
          cases run
          exact Or.inr (Or.inl ⟨⟨rfl, rfl⟩, nt, new, rfl⟩)
      · rename_i olds fresh' merged
        cases run
        exact ⟨fresh, olds, fresh', _, last, merged, Or.inl ⟨⟨rfl, Or.inl rfl⟩, rfl⟩⟩
      · rename_i olds fresh' merged
        cases run
        exact ⟨fresh, olds, fresh', _, last, merged, Or.inr (Or.inr ⟨rfl, rfl, rfl⟩)⟩

theorem filter_nonempty_eq_nil {olds : List Table} (empty : ∀ t ∈ olds, t.get = fun _ => none) :
    olds.filter (fun t => t.hkeys.keys.card ≠ 0) = [] := by
  rw [List.filter_eq_nil_iff]
  intro t member
  have noKey : t.hkeys.keys = ∅ := by
    rw [Finset.eq_empty_iff_forall_notMem]
    intro hkey inKeys
    exact Table.get_eq_none_iff.mp (congrFun (empty t member) hkey) (Finmap.mem_keys.mp inKeys)
  simp [noKey]

/-- A merge step as moves of entries, with its exits: nothing to do; stopped, with a move made if mmap works;
a new table because an entry does not fit; or nothing left in the older tables. -/
theorem chunkedMergeTables_moves {s s' : Storage} {order : Nat → List UInt64} {mmapOk done : Bool}
    (orders : s.MergeOrder order) (run : s.chunkedMergeTables order mmapOk = .ok (done, s')) :
    (done = true ∧ s.tables.length = 1 ∧ s' = s) ∨
      ∃ n fresh olds fresh', s.tables = s.tables.dropLast ++ [fresh] ∧ Moves n s.tables.dropLast fresh olds fresh' ∧
        ((done = false ∧ s'.tables = olds ++ [fresh'] ∧ (0 < n ∨ mmapOk = false)) ∨
          (done = false ∧ ∃ nt, newTable mmapOk (fresh'.allocated * 2) = .ok nt ∧
            s'.tables = olds ++ [fresh'] ++ [nt] ∧ Stopped n olds fresh' (some .full)) ∨
          (done = true ∧ s'.tables = [fresh'] ∧ ∀ t ∈ olds, t.get = fun _ => none)) := by
  rcases chunkedMergeTables_cases run with same | ⟨fresh, olds, fresh', stop, last, merged, exits⟩
  · exact .inl same
  · have enumerated : ∀ entry ∈ s.mergeInput order, entry.1.Enumerates entry.2 :=
      fun entry mem => (mergeInput_mem orders mem).2
    have input : (s.mergeInput order).map Prod.fst = s.tables.dropLast := by
      simp [mergeInput, List.mapIdx_eq_zipIdx_map, Function.comp_def]
    obtain ⟨n, moves, stopped⟩ := mergeOlder_moves [] (s.mergeInput order) fresh 0 enumerated
    rw [merged, List.nil_append, List.nil_append, input] at moves
    rw [merged, List.nil_append] at stopped
    refine .inr ⟨n, fresh, olds, fresh', tables_eq_of_getLast? last, moves, ?_⟩
    rcases exits with ⟨⟨rfl, why⟩, rfl⟩ | ⟨⟨rfl, rfl⟩, nt, made, rfl⟩ | ⟨rfl, rfl, rfl⟩
    · refine .inl ⟨rfl, rfl, why.imp_left ?_⟩
      rintro rfl
      exact stopped
    · exact .inr (.inl ⟨rfl, nt, made, rfl, stopped⟩)
    · have empty := mergeOlder_empties merged enumerated
      exact .inr (.inr ⟨rfl, by rw [filter_nonempty_eq_nil empty], empty⟩)

/-- What a move keeps, and also a new table and the end of older tables that are empty, is kept by a
merge step. -/
theorem chunkedMergeTables_rule {P : List Table → Prop} {s s' : Storage} {order : Nat → List UInt64}
    {mmapOk done : Bool} (orders : s.MergeOrder order) (run : s.chunkedMergeTables order mmapOk = .ok (done, s'))
    (start : P s.tables) (move : ∀ {before old after fresh hkey fresh'}, hkey ∈ old.hkeys →
      fresh.putRaw hkey ((old.getRaw hkey).getD []) = .ok fresh' →
      P (before ++ old :: after ++ [fresh]) → P (before ++ (old.delete hkey).2 :: after ++ [fresh']))
    (push : ∀ {tables mmapOk size nt}, newTable mmapOk size = .ok nt → P tables → P (tables ++ [nt]))
    (drop : ∀ {olds fresh}, (∀ t ∈ olds, t.get = fun _ => none) → P (olds ++ [fresh]) → P [fresh]) : P s'.tables := by
  rcases chunkedMergeTables_moves orders run with ⟨_, _, rfl⟩ | ⟨n, fresh, olds, fresh', split, moves, exits⟩
  · exact start
  · rw [split] at start
    have moved := moves.keeps (P := fun _ olds fresh => P (olds ++ [fresh])) move start
    rcases exits with ⟨_, tables, _⟩ | ⟨_, nt, made, tables, _⟩ | ⟨_, tables, empty⟩
    · rwa [tables]
    · rw [tables]
      exact push made moved
    · rw [tables]
      exact drop empty moved

/-- The rule for tables in which all entries can be read. -/
theorem chunkedMergeTables_rule_valid {P : List Table → Prop} {s s' : Storage} {order : Nat → List UInt64}
    {mmapOk done : Bool} (orders : s.MergeOrder order) (run : s.chunkedMergeTables order mmapOk = .ok (done, s'))
    (valid : s.Valid) (start : P s.tables)
    (move : ∀ {before old after fresh hkey v fresh'}, old.Valid → Moved hkey v old fresh fresh' →
      P (before ++ old :: after ++ [fresh]) → P (before ++ (old.delete hkey).2 :: after ++ [fresh']))
    (push : ∀ {tables nt}, nt.get = (fun _ => none) → P tables → P (tables ++ [nt]))
    (drop : ∀ {olds fresh}, (∀ t ∈ olds, t.get = fun _ => none) → P (olds ++ [fresh]) → P [fresh]) :
    s'.Valid ∧ P s'.tables := by
  suffices kept : Storage.Valid ⟨s'.tables, s.merging, s.closed⟩ ∧ P s'.tables from
    kept.imp_left fun valid' => ⟨valid'.nonempty, valid'.tables⟩
  refine chunkedMergeTables_rule (P := fun tables => Storage.Valid ⟨tables, s.merging, s.closed⟩ ∧
    P tables) orders run
    ⟨⟨valid.nonempty, valid.tables⟩, start⟩ ?_ ?_ ?_
  · rintro before old after fresh hkey fresh' mem done ⟨valid, start⟩
    have all := valid.tables
    simp only [List.forall_mem_append, List.forall_mem_cons] at all
    obtain ⟨⟨beforeValid, oldValid, afterValid⟩, freshValid, none⟩ := all
    obtain ⟨v, moved⟩ := moved oldValid freshValid mem done
    refine ⟨⟨by simp, ?_⟩, move oldValid moved start⟩
    simp only [List.forall_mem_append, List.forall_mem_cons]
    exact ⟨⟨beforeValid, oldValid.delete hkey, afterValid⟩, moved.valid, none⟩
  · rintro tables _ _ nt made ⟨valid, start⟩
    obtain ⟨newValid, empty⟩ := Table.newTable_spec made
    exact ⟨valid.push newValid s.merging, push empty start⟩
  · rintro olds fresh empty ⟨valid, start⟩
    exact ⟨⟨by simp, List.forall_mem_singleton.2 (valid.tables fresh (by simp))⟩, drop empty start⟩

end Storage

end Olric
