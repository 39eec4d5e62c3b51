import Mathlib.Algebra.Group.Int.Defs
import Mathlib.Data.List.DropRight
import Mathlib.Data.List.Infix

/-- A text as the runes that it consists of. -/
abbrev Text := List Char

namespace Text

/-- The white space of Unicode. -/
def isSpace (c : Char) : Bool :=
  let n := c.toNat
  (9 ≤ n && n ≤ 13) || n == 0x20 || n == 0x85 || n == 0xA0 || n == 0x1680 || (0x2000 ≤ n && n ≤ 0x200A) ||
    n == 0x2028 || n == 0x2029 || n == 0x202F || n == 0x205F || n == 0x3000

def hasPrefix (s start : Text) : Bool := start.isPrefixOf s

/-- The runes of the cutset are taken off, in whatever order they stand there. -/
def trimLeft (s cutset : Text) : Text := s.dropWhile fun c => decide (c ∈ cutset)

def trim (s cutset : Text) : Text := (s.trimLeft cutset).rdropWhile fun c => decide (c ∈ cutset)

def trimSpace (s : Text) : Text := (s.dropWhile isSpace).rdropWhile isSpace

/-- What is before and what is after the first place where the separator stands. -/
def cut (sep : Text) : Text → Text × Option Text
  | [] => ([], if sep = [] then some [] else none)
  | c :: s =>
    if hasPrefix (c :: s) sep then ([], some ((c :: s).drop sep.length))
    else (c :: (cut sep s).1, (cut sep s).2)

def isDigit (c : Char) : Bool := 48 ≤ c.toNat && c.toNat ≤ 57

def digits (s : Text) : Option Nat :=
  if s ≠ [] ∧ s.all isDigit then some (s.foldl (fun n c => 10 * n + (c.toNat - 48)) 0) else none

/-- The number that the decimal digits denote, with an optional sign. -/
def decimal : Text → Option Int
  | '+' :: s => (digits s).map Int.ofNat
  | '-' :: s => (digits s).map fun n => -Int.ofNat n
  | s => (digits s).map Int.ofNat

/-- An `int` has 64 bits. -/
def atoi (s : Text) : Option Int := (decimal s).filter fun n => -2 ^ 63 ≤ n ∧ n < 2 ^ 63

variable {s w x : Text} {c : Char}

theorem hasPrefix_iff : hasPrefix s w = true ↔ ∃ x, s = w ++ x := by
  rw [hasPrefix, List.isPrefixOf_iff_prefix]
  exact ⟨fun ⟨x, eq⟩ => ⟨x, eq.symm⟩, fun ⟨x, eq⟩ => ⟨x, eq.symm⟩⟩

theorem hasPrefix_append (w x : Text) : hasPrefix (w ++ x) w = true := hasPrefix_iff.2 ⟨x, rfl⟩

/-- A text begins with one of two words at most, unless one of them begins with the other. -/
theorem hasPrefix_other {v : Text} (starts : hasPrefix s w = true)
    (apart : hasPrefix v w = false ∧ hasPrefix w v = false) : hasPrefix s v = false := by
  rw [Bool.eq_false_iff]
  intro also
  obtain ⟨x, rfl⟩ := hasPrefix_iff.1 starts
  obtain ⟨y, eq⟩ := hasPrefix_iff.1 also
  rcases List.append_eq_append_iff.1 eq with ⟨more, rfl, _⟩ | ⟨more, rfl, _⟩
  · exact absurd (hasPrefix_append w more) (by simp [apart.1])
  · exact absurd (hasPrefix_append v more) (by simp [apart.2])

theorem trimLeft_suffix (s cutset : Text) : trimLeft s cutset <:+ s := s.dropWhile_suffix _

theorem trimSpace_within (s : Text) : trimSpace s <:+: s := by
  have front := List.rdropWhile_prefix isSpace (s.dropWhile isSpace)
  exact front.isInfix.trans (s.dropWhile_suffix isSpace).isInfix

theorem dropWhile_eq_self_iff {p : Char → Bool} : s.dropWhile p = s ↔ ∀ c ∈ s.head?, p c = false := by
  cases s with
  | nil => simp
  | cons c s =>
    rw [List.dropWhile_cons]
    cases here : p c with
    | false => simp [here]
    | true =>
      have shorter := (s.dropWhile_suffix p).length_le
      simp only [if_true, List.head?_cons, Option.mem_some_iff, forall_eq', here, Bool.true_eq_false, iff_false]
      intro same
      rw [same, List.length_cons] at shorter
      omega

theorem rdropWhile_eq_self_iff {p : Char → Bool} : s.rdropWhile p = s ↔ ∀ c ∈ s.getLast?, p c = false := by
  rw [List.rdropWhile, List.reverse_eq_iff, dropWhile_eq_self_iff, List.head?_reverse]

/-- What is trimmed is what has no white space at its ends. -/
theorem trimSpace_eq_self_iff :
    trimSpace s = s ↔ (∀ c ∈ s.head?, isSpace c = false) ∧ ∀ c ∈ s.getLast?, isSpace c = false := by
  rw [← dropWhile_eq_self_iff, ← rdropWhile_eq_self_iff]
  constructor
  · intro whole
    have front := List.rdropWhile_prefix isSpace (s.dropWhile isSpace)
    have back := s.dropWhile_suffix isSpace
    have length := congrArg List.length whole
    have left : s.dropWhile isSpace = s := by
      refine back.eq_of_length ?_
      have := front.length_le
      have := back.length_le
      rw [trimSpace] at length
      omega
    refine ⟨left, ?_⟩
    rw [trimSpace, left] at whole
    exact whole
  · rintro ⟨left, right⟩
    rw [trimSpace, left, right]

theorem trimSpace_trimSpace (s : Text) : trimSpace (trimSpace s) = trimSpace s := by
  refine trimSpace_eq_self_iff.2 ⟨fun c first => ?_, rdropWhile_eq_self_iff.1 (List.rdropWhile_idempotent _ _)⟩
  have front := List.rdropWhile_prefix isSpace (s.dropWhile isSpace)
  obtain ⟨rest, eq⟩ := List.head?_eq_some_iff.1 first
  refine dropWhile_eq_self_iff.1 (List.dropWhile_idempotent isSpace s) c ?_
  obtain ⟨more, whole⟩ := front
  rw [← whole, show List.rdropWhile isSpace (s.dropWhile isSpace) = c :: rest from eq]
  rfl

/-- The ends of a trimmed text cannot be told from those of the whole, where they are no white space. -/
theorem trimSpace_append {front : Text} (first : ∀ c ∈ front.head?, isSpace c = false) (nonempty : front ≠ [])
    (x : Text) : trimSpace (front ++ x) <+: front ++ x := by
  obtain ⟨c, rest, rfl⟩ := List.exists_cons_of_ne_nil nonempty
  have left : ((c :: rest) ++ x).dropWhile isSpace = (c :: rest) ++ x := dropWhile_eq_self_iff.2 first
  rw [trimSpace, left]
  exact List.rdropWhile_prefix isSpace _

theorem trimSpace_head (first : ∀ c ∈ s.head?, isSpace c = false) : (trimSpace s).head? = s.head? := by
  rw [trimSpace, dropWhile_eq_self_iff.2 first]
  cases s with
  | nil => rfl
  | cons c s =>
    have stays : isSpace c = false := first c rfl
    rw [List.rdropWhile, List.reverse_cons, List.dropWhile_append]
    split <;> simp [stays]

theorem getLast?_of_suffix (back : x <:+ s) (final : c ∈ x.getLast?) : c ∈ s.getLast? := by
  obtain ⟨front, rfl⟩ := back
  have nonempty : x ≠ [] := by
    rintro rfl
    cases final
  rwa [List.getLast?_append_of_ne_nil front nonempty]

/-- A text that does not end in white space is trimmed in front only. -/
theorem trimSpace_suffix (last : ∀ c ∈ s.getLast?, isSpace c = false) : trimSpace s <:+ s := by
  have back := s.dropWhile_suffix isSpace
  have right : (s.dropWhile isSpace).rdropWhile isSpace = s.dropWhile isSpace :=
    rdropWhile_eq_self_iff.2 fun c final => last c (getLast?_of_suffix back final)
  rw [trimSpace, right]
  exact back

theorem trimLeft_word (w x : Text) : trimLeft (w ++ x) w = trimLeft x w := by
  rw [trimLeft, List.dropWhile_append_of_pos]
  · rfl
  · simp

theorem trimLeft_eq_self_iff {cutset : Text} : trimLeft s cutset = s ↔ ∀ c ∈ s.head?, c ∉ cutset := by
  rw [trimLeft, dropWhile_eq_self_iff]
  simp only [decide_eq_false_iff_not]

theorem cut_some {sep before after : Text} (found : cut sep s = (before, some after)) :
    s = before ++ sep ++ after := by
  induction s generalizing before with
  | nil =>
    unfold cut at found
    split at found
    next empty => cases found; rw [empty]; rfl
    · cases found
  | cons c s ih =>
    unfold cut at found
    split at found
    next here =>
      cases found
      obtain ⟨x, eq⟩ := hasPrefix_iff.1 here
      rw [eq, List.drop_left, List.nil_append]
    · obtain ⟨rfl, later⟩ := Prod.mk.inj found
      rw [List.cons_append, List.cons_append, ← ih (Prod.ext rfl later)]

theorem cut_word (w x : Text) : (cut w (w ++ x)).1 = [] := by
  cases whole : w ++ x with
  | nil => rfl
  | cons c s => rw [cut, if_pos (hasPrefix_iff.2 ⟨x, whole.symm⟩)]

theorem cut_char {before : Text} (absent : c ∉ before) (after : Text) :
    cut [c] (before ++ c :: after) = (before, some after) := by
  induction before with
  | nil => simp [cut, hasPrefix]
  | cons b before ih =>
    obtain ⟨differs, rest⟩ := not_or.1 (absent ∘ List.mem_cons.2)
    simp [cut, hasPrefix, differs, ih rest]

theorem isSpace_of_isDigit (digit : isDigit c = true) : isSpace c = false := by
  simp only [isDigit, Bool.and_eq_true, decide_eq_true_eq] at digit
  simp only [isSpace, Bool.or_eq_false_iff, Bool.and_eq_false_iff, decide_eq_false_iff_not, beq_eq_false_iff_ne]
  omega

theorem digits_eq_some {n : Nat} (number : digits s = some n) : s ≠ [] ∧ ∀ c ∈ s, isSpace c = false := by
  unfold digits at number
  split at number
  next ok => exact ⟨ok.1, fun c mem => isSpace_of_isDigit (List.all_eq_true.1 ok.2 c mem)⟩
  · cases number

theorem decimal_eq_some {n : Int} (number : decimal s = some n) : s ≠ [] ∧ ∀ c ∈ s, isSpace c = false := by
  unfold decimal at number
  split at number
  · obtain ⟨m, unsigned, _⟩ := Option.map_eq_some_iff.1 number
    have spaceless := (digits_eq_some unsigned).2
    exact ⟨List.cons_ne_nil _ _, List.forall_mem_cons.2 ⟨by decide, spaceless⟩⟩
  · obtain ⟨m, unsigned, _⟩ := Option.map_eq_some_iff.1 number
    have spaceless := (digits_eq_some unsigned).2
    exact ⟨List.cons_ne_nil _ _, List.forall_mem_cons.2 ⟨by decide, spaceless⟩⟩
  · obtain ⟨m, unsigned, _⟩ := Option.map_eq_some_iff.1 number
    exact digits_eq_some unsigned

theorem atoi_eq_some {n : Int} : atoi s = some n ↔ decimal s = some n ∧ -2 ^ 63 ≤ n ∧ n < 2 ^ 63 := by
  rw [atoi, Option.filter_eq_some_iff, decide_eq_true_iff]

end Text
