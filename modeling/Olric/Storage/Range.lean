import Olric.Storage.Used

namespace Olric

/-- A function that is given to `Range`, with the variables it has captured. It cannot change the storage,
whose mutex `Range` holds. -/
abbrev Visitor (σ : Type) := σ → UInt64 → VData → Bool × σ

/-- A call of the function, and what it has returned. -/
structure RangeCall where
  hkey : UInt64
  vdata : VData
  more : Bool

namespace Visitor

variable {σ : Type} (f : Visitor σ)

/-- The variables after calls for all the entries. -/
def after : σ → List (UInt64 × VData) → σ
  | st, [] => st
  | st, e :: entries => after (f st e.1 e.2).2 entries

/-- The function returns true for all the entries. -/
def Accepts : σ → List (UInt64 × VData) → Prop
  | _, [] => True
  | st, e :: entries => (f st e.1 e.2).1 = true ∧ Accepts (f st e.1 e.2).2 entries

theorem accepts_append (st : σ) (entries more : List (UInt64 × VData)) :
    f.Accepts st (entries ++ more) ↔ f.Accepts st entries ∧ f.Accepts (f.after st entries) more := by
  induction entries generalizing st with
  | nil => simp [Accepts, after]
  | cons e entries ih => simp [Accepts, after, ih, and_assoc]

end Visitor

theorem Table.Visited.eq_nil_iff {t : Table} {entries : List (UInt64 × VData)} (visited : t.Visited entries) :
    entries = [] ↔ t.hkeys.keys = ∅ := by
  rw [Finset.eq_empty_iff_forall_notMem, ← List.map_eq_nil_iff (f := Prod.fst), List.eq_nil_iff_forall_not_mem]
  exact forall_congr' fun hkey => not_congr ((visited.1.complete hkey).trans Finmap.mem_keys.symm)

namespace Storage

section Range

variable {σ : Type} (f : Visitor σ)

/-- The loop over the keys of a table. -/
def rangeTable : σ → List (UInt64 × VData) → List RangeCall × σ
  | st, [] => ([], st)
  | st, (hkey, vdata) :: entries =>
    let answer := f st hkey vdata
    if !answer.1 then ([⟨hkey, vdata, false⟩], answer.2)
    else
      let rest := rangeTable answer.2 entries
      (⟨hkey, vdata, true⟩ :: rest.1, rest.2)

/-- The loop over the tables. A `break` in the loop over the keys does not leave it. -/
def rangeTables : σ → List (List (UInt64 × VData)) → List RangeCall × σ
  | st, [] => ([], st)
  | st, entries :: tables =>
    let newer := rangeTable f st entries
    let older := rangeTables newer.2 tables
    (newer.1 ++ older.1, older.2)

def range (s : Storage) (visits : List (List (UInt64 × VData))) (st : σ) : Except Halt (List RangeCall × σ) :=
  if s.tables.isEmpty then .error .panic else .ok (rangeTables f st visits)

end Range

/-- No call comes after one that has returned false. -/
def Stops (calls : List RangeCall) : Prop := calls.Pairwise fun call _ => call.more = true

/-- At most one table has keys. -/
def SingleSource (s : Storage) : Prop := s.tables.countP (fun t => t.hkeys.keys ≠ ∅) ≤ 1

section Loops

variable {σ : Type} {f : Visitor σ}

theorem rangeTable_false {st : σ} {e : UInt64 × VData} (stop : (f st e.1 e.2).1 = false)
    (entries : List (UInt64 × VData)) :
    rangeTable f st (e :: entries) = ([⟨e.1, e.2, false⟩], (f st e.1 e.2).2) := by
  simp [rangeTable, stop]

theorem rangeTable_true {st : σ} {e : UInt64 × VData} (go : (f st e.1 e.2).1 = true)
    (entries : List (UInt64 × VData)) :
    rangeTable f st (e :: entries) =
      (⟨e.1, e.2, true⟩ :: (rangeTable f (f st e.1 e.2).2 entries).1, (rangeTable f (f st e.1 e.2).2 entries).2) := by
  simp [rangeTable, go]

/-- The loop over a table stops at the first false. If there is none, it goes through all entries. -/
theorem rangeTable_spec (st : σ) (entries : List (UInt64 × VData)) :
    Stops (rangeTable f st entries).1 ∧
      ((∀ call ∈ (rangeTable f st entries).1, call.more = true) ↔ f.Accepts st entries) ∧
      (f.Accepts st entries → (rangeTable f st entries).2 = f.after st entries) := by
  induction entries generalizing st with
  | nil => simp [rangeTable, Stops, Visitor.Accepts, Visitor.after]
  | cons e entries ih =>
    obtain ⟨stops, all, after⟩ := ih (f st e.1 e.2).2
    cases more : (f st e.1 e.2).1 with
    | false => simp [rangeTable_false more, Stops, Visitor.Accepts, more]
    | true =>
      rw [rangeTable_true more]
      refine ⟨List.pairwise_cons.2 ⟨fun _ _ => rfl, stops⟩, ?_, fun accepts => ?_⟩
      · simpa [Visitor.Accepts, more] using all
      · exact after accepts.2

theorem rangeTable_eq_nil (st : σ) (entries : List (UInt64 × VData)) :
    (rangeTable f st entries).1 = [] ↔ entries = [] := by
  cases entries with
  | nil => simp [rangeTable]
  | cons e entries =>
    cases more : (f st e.1 e.2).1 with
    | false => simp [rangeTable_false more]
    | true => simp [rangeTable_true more]

theorem rangeTables_eq_nil (st : σ) (tables : List (List (UInt64 × VData))) :
    (rangeTables f st tables).1 = [] ↔ tables.filter (fun entries => !entries.isEmpty) = [] := by
  induction tables generalizing st with
  | nil => simp [rangeTables]
  | cons entries tables ih =>
    rw [rangeTables, List.append_eq_nil_iff, rangeTable_eq_nil, ih]
    cases entries <;> simp

/-- Only in the last table with entries may the function return false. -/
theorem rangeTables_stops (st : σ) (tables : List (List (UInt64 × VData))) :
    Stops (rangeTables f st tables).1 ↔
      f.Accepts st (tables.filter fun entries => !entries.isEmpty).dropLast.flatten := by
  induction tables generalizing st with
  | nil => simp [rangeTables, Stops, Visitor.Accepts]
  | cons entries tables ih =>
    obtain ⟨stops, all, after⟩ := rangeTable_spec (f := f) st entries
    have split : Stops (rangeTables f st (entries :: tables)).1 ↔
      Stops (rangeTables f (rangeTable f st entries).2 tables).1 ∧
        ∀ call ∈ (rangeTable f st entries).1, ∀ later ∈ (rangeTables f (rangeTable f st entries).2 tables).1,
            call.more = true := by
      rw [rangeTables, Stops, List.pairwise_append]
      exact and_iff_right stops
    rw [split]
    by_cases last : tables.filter (fun entries => !entries.isEmpty) = []
    · -- There are no more entries, so the other tables get no call.
      have silent := (rangeTables_eq_nil (f := f) (rangeTable f st entries).2 tables).2 last
      rw [silent]
      cases entries <;> simp [last, Stops, Visitor.Accepts]
    · have calls : (rangeTables f (rangeTable f st entries).2 tables).1 ≠ [] :=
        fun none => last ((rangeTables_eq_nil _ _).1 none)
      obtain ⟨later, mem⟩ := List.exists_mem_of_ne_nil _ calls
      have accepted : (∀ call ∈ (rangeTable f st entries).1,
        ∀ later ∈ (rangeTables f (rangeTable f st entries).2 tables).1, call.more = true) ↔ f.Accepts st entries := by
        rw [← all]
        exact ⟨fun both call here => both call here later mem, fun each call here _ _ => each call here⟩
      have flat : ((entries :: tables).filter fun entries => !entries.isEmpty).dropLast.flatten =
          entries ++ (tables.filter fun entries => !entries.isEmpty).dropLast.flatten := by
        cases entries with
        | nil => simp
        | cons e entries => simp [List.dropLast_cons_of_ne_nil last]
      rw [accepted, flat, Visitor.accepts_append, ih, and_comm]
      exact and_congr_right fun accepts => by rw [after accepts]

end Loops

variable {s : Storage} {visits : List (List (UInt64 × VData))}

/-- The tables that have keys are those that have something to visit. -/
theorem Visits.filter_length (visited : s.Visits visits) :
    (visits.filter fun entries => !entries.isEmpty).length = s.tables.countP fun t => t.hkeys.keys ≠ ∅ := by
  have each {tables : List Table} {visits : List (List (UInt64 × VData))}
      (visited : List.Forall₂ Table.Visited tables visits) :
      visits.countP (fun entries => !entries.isEmpty) = tables.countP fun t => t.hkeys.keys ≠ ∅ := by
    induction visited with
    | nil => rfl
    | @cons t entries tables visits here _ ih =>
      rw [List.countP_cons, List.countP_cons, ih]
      simp [here.eq_nil_iff]
  rw [← List.countP_eq_length_filter, ← s.tables.countP_reverse]
  exact each visited

/-- `Range` stops when the function returns false if no older table has keys: for all functions if at
most one table has any. -/
theorem range_stops_iff (used : s.Used) :
    (∀ (σ : Type) (f : Visitor σ) (visits : List (List (UInt64 × VData))) (st : σ), s.Visits visits →
      ∃ calls st', s.range f visits st = .ok (calls, st') ∧
        (Stops calls ↔ f.Accepts st (visits.filter fun entries => !entries.isEmpty).dropLast.flatten)) ∧
    ((∀ (σ : Type) (f : Visitor σ) (visits : List (List (UInt64 × VData))) (st : σ)
      (calls : List RangeCall) (st' : σ),
      s.Visits visits → s.range f visits st = .ok (calls, st') → Stops calls) ↔ s.SingleSource) := by
  have run {σ : Type} (f : Visitor σ) (visits : List (List (UInt64 × VData))) (st : σ) :
      s.range f visits st = .ok (rangeTables f st visits) := if_neg (by simpa using used.valid.nonempty)
  refine ⟨fun σ f visits st _ => ⟨_, _, run f visits st, rangeTables_stops st visits⟩, fun all => ?_,
    fun single => ?_⟩
  · obtain ⟨visits, visited⟩ := s.exists_visits
    have never :=
      (rangeTables_stops () visits).1 (all Unit (fun _ _ _ => (false, ())) visits () _ _ visited (run _ visits ()))
    -- The function that always returns false accepts nothing, and the tables in front are not empty.
    have none : (visits.filter fun entries => !entries.isEmpty).dropLast.flatten = [] := by
      generalize (visits.filter fun entries => !entries.isEmpty).dropLast.flatten = front at never
      cases front with
      | nil => rfl
      | cons e front => cases never.1
    have front : (visits.filter fun entries => !entries.isEmpty).dropLast = [] := by
      rw [List.eq_nil_iff_forall_not_mem]
      intro entries mem
      have filled := (List.mem_filter.1 (List.mem_of_mem_dropLast mem)).2
      rw [List.flatten_eq_nil_iff.1 none entries mem] at filled
      cases filled
    have length := congrArg List.length front
    rw [List.length_dropLast, visited.filter_length] at length
    exact Nat.sub_eq_zero_iff_le.1 length
  · intro σ f visits st calls st' visited done
    have same : rangeTables f st visits = (calls, st') := Except.ok.inj ((run f visits st).symm.trans done)
    have short : (visits.filter fun entries => !entries.isEmpty).dropLast = [] := by
      rw [← List.length_eq_zero_iff, List.length_dropLast, visited.filter_length]
      exact Nat.sub_eq_zero_of_le single
    have stops : Stops (rangeTables f st visits).1 := by
      rw [rangeTables_stops, short]
      trivial
    rwa [same] at stops

/-- A storage with one entry. -/
theorem range_stops_single : ∃ (s : Storage) (t : Table), s.Used ∧ s.tables = [t] ∧ (7 : UInt64) ∈ t.hkeys ∧
    ∀ (σ : Type) (f : Visitor σ) (visits : List (List (UInt64 × VData))) (st : σ) (calls : List RangeCall) (st' : σ),
      s.Visits visits → s.range f visits st = .ok (calls, st') → Stops calls := by
  obtain ⟨_, t, _, _, _, _, used, entry⟩ :=
    used_single 7 (v := ⟨[107], 0, [1]⟩) (by decide) (by rw [VData.encode_length]; decide)
  refine ⟨_, t, used, rfl, ?_, (range_stops_iff used).2.2 List.countP_le_length⟩
  rw [← Table.isSome_get, entry]
  rfl

/-- The function returns false for the first key, and is called for a key of the older table, too. -/
theorem range_goes_on : ∃ (s : Storage) (visits : List (List (UInt64 × VData))) (first second : RangeCall),
    s.Used ∧ s.Visits visits ∧
    s.range (fun _ _ _ => (false, ())) visits () = .ok ([first, second], ()) ∧ first.more = false := by
  obtain ⟨old, new, run, _, getOld, _, getNew⟩ := versions_after_switch (a := ⟨[97], 0, [1]⟩) (d := ⟨[97], 0, [2]⟩)
    (by decide) (by decide) (by decide) (by decide)
  obtain ⟨visits, visited⟩ := exists_visits ⟨[old, new], true, false⟩
  have filled {t : Table} {entries : List (UInt64 × VData)} (here : t.Visited entries) (entry : (t.get 1).isSome) :
      entries ≠ [] := by
    intro none
    have keys := here.eq_nil_iff.1 none
    have mem := Finmap.mem_keys.2 (Table.isSome_get.1 entry)
    rw [keys] at mem
    exact absurd mem (Finset.notMem_empty _)
  have both : List.Forall₂ Table.Visited [new, old] visits := visited
  cases both with
  | @cons _ newer _ _ here rest =>
    cases rest with
    | @cons _ older _ _ there none =>
      cases none
      obtain ⟨e, newer, rfl⟩ := List.exists_cons_of_ne_nil (filled here (by rw [getNew]; rfl))
      obtain ⟨e', older, rfl⟩ := List.exists_cons_of_ne_nil (filled there (by rw [getOld]; rfl))
      exact ⟨_, _, ⟨e.1, e.2, false⟩, ⟨e'.1, e'.2, false⟩, used_of_run run, visited, rfl, rfl⟩

end Storage

end Olric
