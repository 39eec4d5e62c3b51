import Mathlib.Data.List.Basic
import Mathlib.Logic.Function.Basic
import Mathlib.Tactic.Common

/-- A map kept as a stack of partial maps, the oldest layer first. -/
abbrev LayeredMap (K V : Type*) := List (K → Option V)

namespace LayeredMap

variable {K V : Type*}

/-- The newest layer that has the key decides its value. -/
def lookup (layers : LayeredMap K V) (k : K) : Option V :=
  layers.reverse.findSome? (· k)

/-- The number of layers that have the key, shadowed ones included. -/
def holders (layers : LayeredMap K V) (k : K) : Nat :=
  layers.countP fun layer => (layer k).isSome

/-- All values of a key, the visible one first. -/
def versions (layers : LayeredMap K V) (k : K) : List V :=
  layers.reverse.filterMap (· k)

@[simp] theorem lookup_nil (k : K) : lookup ([] : LayeredMap K V) k = none := rfl

@[simp] theorem lookup_singleton (layer : K → Option V) (k : K) : lookup [layer] k = layer k := by
  simp [lookup]

theorem lookup_append (older newer : LayeredMap K V) (k : K) :
    lookup (older ++ newer) k = (lookup newer k).or (lookup older k) := by
  simp [lookup, List.findSome?_append]

theorem lookup_cons (layer : K → Option V) (newer : LayeredMap K V) (k : K) :
    lookup (layer :: newer) k = (lookup newer k).or (layer k) := by
  rw [← List.singleton_append, lookup_append, lookup_singleton]

@[simp] theorem lookup_snoc (older : LayeredMap K V) (layer : K → Option V) (k : K) :
    lookup (older ++ [layer]) k = (layer k).or (lookup older k) := by
  rw [lookup_append, lookup_singleton]

theorem holders_append (older newer : LayeredMap K V) (k : K) :
    holders (older ++ newer) k = holders older k + holders newer k := by
  simp [holders]

theorem holders_cons (layer : K → Option V) (newer : LayeredMap K V) (k : K) :
    holders (layer :: newer) k = holders newer k + if (layer k).isSome then 1 else 0 := by
  simp [holders, List.countP_cons]

@[simp] theorem holders_nil (k : K) : holders ([] : LayeredMap K V) k = 0 := rfl

theorem lookup_eq_none_iff (layers : LayeredMap K V) (k : K) : lookup layers k = none ↔ holders layers k = 0 := by
  simp [lookup, holders, List.countP_eq_zero]

/-- With one layer for each key, the visible value is the one that some layer has. -/
theorem lookup_eq_some_iff {layers : LayeredMap K V} {k : K} {v : V} (once : holders layers k ≤ 1) :
    lookup layers k = some v ↔ ∃ layer ∈ layers, layer k = some v := by
  induction layers with
  | nil => simp
  | cons layer newer ih =>
    rw [holders_cons] at once
    rw [lookup_cons, List.exists_mem_cons_iff, ← ih (by omega)]
    cases here : layer k with
    | none => simp
    | some w =>
      have hidden : lookup newer k = none := by
        rw [lookup_eq_none_iff]
        rw [here] at once
        exact Nat.le_zero.1 (Nat.le_of_succ_le_succ once)
      simp [hidden]

theorem head?_versions (layers : LayeredMap K V) (k : K) : (versions layers k).head? = lookup layers k :=
  List.head?_filterMap ..

theorem versions_append (older newer : LayeredMap K V) (k : K) :
    versions (older ++ newer) k = versions newer k ++ versions older k := by
  simp [versions]

theorem versions_cons (layer : K → Option V) (newer : LayeredMap K V) (k : K) :
    versions (layer :: newer) k = versions newer k ++ (layer k).toList := by
  rw [← List.singleton_append, versions_append]
  cases found : layer k <;> simp [versions, found]

theorem length_versions (layers : LayeredMap K V) (k : K) : (versions layers k).length = holders layers k := by
  rw [versions, List.length_filterMap_eq_countP, holders, List.countP_reverse]

theorem versions_push_empty (layers : LayeredMap K V) : versions (layers ++ [fun _ => none]) = versions layers := by
  funext k
  simp [versions]

theorem lookup_push_empty (layers : LayeredMap K V) : lookup (layers ++ [fun _ => none]) = lookup layers := by
  funext k
  simp

theorem holders_push_empty (layers : LayeredMap K V) : holders (layers ++ [fun _ => none]) = holders layers := by
  funext k
  simp [holders_append, holders_cons]

variable [DecidableEq K]

/-- Writing to the newest layer sets the visible value. -/
theorem lookup_update_newest (older : LayeredMap K V) (layer : K → Option V) (k : K) (v : V) :
    lookup (older ++ [Function.update layer k (some v)]) = Function.update (lookup (older ++ [layer])) k
      (some v) := by
  funext other
  by_cases same : other = k
  · subst other
    simp
  · simp [same]

theorem lookup_erase_of_ne (older newer : LayeredMap K V) (layer : K → Option V) {k other : K} (ne : other ≠ k) :
    lookup (older ++ Function.update layer k none :: newer) other = lookup (older ++ layer :: newer) other := by
  simp [lookup_append, lookup_cons, ne]

/-- Erasing a key from one layer leaves its copies in all the others. -/
theorem holders_erase (older newer : LayeredMap K V) {layer : K → Option V} {k : K} (found : (layer k).isSome) :
    holders (older ++ Function.update layer k none :: newer) k + 1 = holders (older ++ layer :: newer) k := by
  simp [holders_append, holders_cons, found, Nat.add_assoc]

/-- Erasing a key from the newest layer that has it brings the value before to light. -/
theorem versions_erase (older newer : LayeredMap K V) {layer : K → Option V} {k : K} (found : (layer k).isSome)
    (newest : ∀ later ∈ newer, later k = none) : versions (older ++ Function.update layer k none :: newer) =
      Function.update (versions (older ++ layer :: newer)) k (versions (older ++ layer :: newer) k).tail := by
  obtain ⟨v, found⟩ := Option.isSome_iff_exists.1 found
  have none : versions newer k = [] :=
    List.filterMap_eq_nil_iff.2 fun later member => newest later (List.mem_reverse.1 member)
  funext other
  by_cases same : other = k
  · subst other
    simp [versions_append, versions_cons, none, found]
  · simp [versions_append, versions_cons, same]

/-- No key is in two layers. -/
def Separate (layers : LayeredMap K V) : Prop := ∀ k, holders layers k ≤ 1

section Move

variable {before after : LayeredMap K V} {source target : K → Option V} {k : K} {v : V}

/-- Moving the only copy of a key to the newest layer changes no visible value. -/
theorem lookup_move (separate : Separate (before ++ source :: after ++ [target])) (found : source k = some v) :
    lookup (before ++ Function.update source k none :: after ++ [Function.update target k (some v)]) =
      lookup (before ++ source :: after ++ [target]) := by
  funext other
  by_cases same : other = k
  · subst other
    have once := separate k
    simp only [holders_append, holders_cons, holders_nil, found, Option.isSome_some, if_true] at once
    have noTarget : target k = none := by
      cases value : target k with
      | none => rfl
      | some w => simp only [value, Option.isSome_some, if_true] at once; omega
    have noAfter : lookup after k = none := by
      rw [lookup_eq_none_iff]
      omega
    simp [lookup_append, lookup_cons, noTarget, noAfter, found]
  · simp [lookup_append, lookup_cons, same]

/-- The only value of a key stays the only one, whichever key is moved. -/
theorem versions_move (found : source k = some v) {other : K} {w : V}
    (only : versions (before ++ source :: after ++ [target]) other = [w]) :
    versions (before ++ Function.update source k none :: after ++ [Function.update target k (some v)]) other =
      [w] := by
  simp only [versions_append, versions_cons] at only ⊢
  by_cases same : other = k
  · subst other
    rw [found] at only
    have length := congrArg List.length only
    simp only [List.length_append, Option.toList_some, List.length_singleton] at length
    have noTarget : versions [] k ++ (target k).toList = [] :=
      List.eq_nil_of_length_eq_zero (by rw [List.length_append]; omega)
    have noAfter : versions after k = [] := List.eq_nil_of_length_eq_zero (by omega)
    have noBefore : versions before k = [] := List.eq_nil_of_length_eq_zero (by omega)
    rw [noTarget, noAfter, noBefore] at only
    simp only [Function.update_self, noAfter, noBefore]
    exact only
  · simpa only [Function.update_of_ne same] using only

theorem separate_move (separate : Separate (before ++ source :: after ++ [target])) (found : source k = some v) :
    Separate (before ++ Function.update source k none :: after ++ [Function.update target k (some v)]) := by
  intro other
  have once := separate other
  simp only [holders_append, holders_cons, holders_nil] at once ⊢
  by_cases same : other = k
  · subst other
    simp only [found, Option.isSome_some, if_true] at once
    simp only [Function.update_self, Option.isSome_none, Option.isSome_some, Bool.false_eq_true, if_true, if_false]
    omega
  · simpa only [Function.update_of_ne same] using once

end Move

end LayeredMap
