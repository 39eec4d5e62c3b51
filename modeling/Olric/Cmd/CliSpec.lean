import Olric.Cmd.Cli

namespace Olric

open Text

namespace Cli

variable {parseDuration : Text → Except String Int64} {dmap line word key value tmp : Text} {op : CliOp}

theorem extractKey_quote (plain : '"' ∉ key) : extractKey (quote key) = .ok key := by
  have inner : cut ['"'] (key ++ ['"']) = (key, some []) := cut_char plain []
  have outer : (cut ['"'] (quote key)).2 = some (key ++ ['"']) := by simp [quote, cut, hasPrefix]
  rw [extractKey, outer]
  dsimp only
  rw [inner]

/-- What begins with a quote begins with the key in quotes. -/
theorem extractKey_ok {rest : Text}
    (found : extractKey ('"' :: rest) = .ok key) : ∃ more, '"' :: rest = quote key ++ more := by
  have outer : (cut ['"'] ('"' :: rest)).2 = some rest := by simp [cut, hasPrefix]
  rw [extractKey, outer] at found
  dsimp only at found
  split at found
  · cases found
  next _ more inner =>
    cases found
    exact ⟨more, by rw [cut_some inner]; simp [quote]⟩

theorem hasPrefix_quote : hasPrefix tmp ['"'] = true ↔ ∃ rest, tmp = '"' :: rest := hasPrefix_iff

/-- With a quote in front nothing is left of the key and the value. -/
theorem parseLine_ok (parsed : parseLine tmp = .ok (key, value)) :
    key = [] ∧ value = [] ∨ hasPrefix (trimSpace tmp) ['"'] = false ∧ trimSpace tmp = key ++ ' ' :: value := by
  unfold parseLine at parsed
  dsimp only at parsed
  split at parsed
  next quoted =>
    split at parsed
    · cases parsed
    next found =>
      obtain ⟨rest, eq⟩ := hasPrefix_quote.1 quoted
      rw [eq] at found
      obtain ⟨more, whole⟩ := extractKey_ok found
      obtain ⟨rfl, rfl⟩ := Prod.mk.inj (Except.ok.inj parsed)
      rw [eq, whole, cut_word]
      exact .inl ⟨rfl, rfl⟩
  next plain =>
    split at parsed
    · cases parsed
    next found =>
      cases parsed
      exact .inr ⟨by simpa using plain, by simpa using cut_some found⟩

theorem parseLine_trimSpace (tmp : Text) : parseLine (trimSpace tmp) = parseLine tmp := by
  unfold parseLine
  rw [trimSpace_trimSpace]

/-- Without white space around it, a line is parsed as it is. -/
theorem parseLine_plain (trimmed : trimSpace (key ++ ' ' :: value) = key ++ ' ' :: value) (space : ' ' ∉ key)
    (mark : '"' ∉ key) : parseLine (key ++ ' ' :: value) = .ok (key, value) := by
  have plain : hasPrefix (key ++ ' ' :: value) ['"'] = false := by
    rw [Bool.eq_false_iff]
    intro quoted
    obtain ⟨rest, eq⟩ := hasPrefix_quote.1 quoted
    cases key with
    | nil => simp at eq
    | cons c key => exact mark (by simp [(List.cons.inj eq).1])
  unfold parseLine
  dsimp only
  rw [trimmed, plain, cut_char space]
  rfl

section Words

/-- A word that nothing is trimmed from. -/
structure Word (word : Text) : Prop where
  nonempty : word ≠ []
  first : ∀ c ∈ word.head?, isSpace c = false

theorem Word.line_eq (ok : Word word) (x : Text) (starts : hasPrefix (trimSpace (word ++ x)) word = true) :
    ∃ y, trimSpace (word ++ x) = word ++ y ∧ y <+: x := by
  obtain ⟨y, eq⟩ := hasPrefix_iff.1 starts
  have front := trimSpace_append ok.first ok.nonempty x
  rw [eq] at front
  exact ⟨y, eq, (List.prefix_append_right_inj word).1 front⟩

theorem Word.trimmed (ok : Word word) {x : Text} (nonempty : x ≠ []) :
    trimSpace (word ++ x) = word ++ x ↔ ∀ c ∈ x.getLast?, isSpace c = false := by
  obtain ⟨w, rest, rfl⟩ := List.exists_cons_of_ne_nil ok.nonempty
  rw [trimSpace_eq_self_iff, List.getLast?_append_of_ne_nil _ nonempty]
  exact and_iff_right ok.first

/-- The key and the value come through exactly if nothing is trimmed. -/
theorem Word.parsed_iff (ok : Word word) (nonempty : key ≠ []) (space : ' ' ∉ key)
    (mark : '"' ∉ key) (filled : value ≠ []) :
    hasPrefix (trimSpace (word ++ (key ++ ' ' :: value))) word = true ∧
        parseLine (trimLeft (trimSpace (word ++ (key ++ ' ' :: value))) word) = .ok (key, value) ↔
      (∀ c ∈ key.head?, c ∉ word ∧ isSpace c = false) ∧ ∀ c ∈ value.getLast?, isSpace c = false := by
  have head : (key ++ ' ' :: value).head? = key.head? := by
    obtain ⟨c, rest, rfl⟩ := List.exists_cons_of_ne_nil nonempty
    rfl
  have last : (key ++ ' ' :: value).getLast? = value.getLast? := by
    rw [List.getLast?_append_of_ne_nil _ (List.cons_ne_nil _ _), List.getLast?_cons_of_ne_nil filled]
  have whole : key ++ ' ' :: value ≠ [] := by simp
  rw [← last, ← head]
  constructor
  · rintro ⟨starts, parsed⟩
    obtain ⟨x, line, front⟩ := ok.line_eq _ starts
    rw [line, trimLeft_word] at parsed
    rcases parseLine_ok parsed with ⟨empty, _⟩ | ⟨_, eq⟩
    · exact absurd empty nonempty
    · -- The lengths leave no room for anything that has been trimmed.
      have inner := (trimSpace_within (trimLeft x word)).length_le
      have middle := (trimLeft_suffix x word).length_le
      have outer := front.length_le
      rw [eq] at inner
      obtain rfl : x = key ++ ' ' :: value := front.eq_of_length (by omega)
      have left : trimLeft (key ++ ' ' :: value) word = key ++ ' ' :: value :=
        (trimLeft_suffix _ word).eq_of_length (by omega)
      rw [left] at eq
      obtain ⟨first, final⟩ := trimSpace_eq_self_iff.1 eq
      exact ⟨fun c here => ⟨trimLeft_eq_self_iff.1 left c here, first c here⟩, final⟩
  · rintro ⟨first, final⟩
    have line := (ok.trimmed whole).2 final
    have left : trimLeft (key ++ ' ' :: value) word = key ++ ' ' :: value :=
      trimLeft_eq_self_iff.2 fun c here => (first c here).1
    have trimmed := trimSpace_eq_self_iff.2 ⟨fun c here => (first c here).2, final⟩
    rw [line, trimLeft_word, left]
    exact ⟨hasPrefix_append _ _, parseLine_plain trimmed space mark⟩

/-- What is parsed of a line without white space at its end stands at its end. -/
theorem Word.parsed_suffix (ok : Word word) {x : Text} (filled : x ≠ []) (final : ∀ c ∈ x.getLast?, isSpace c = false)
    (nonempty : key ≠ []) (parsed : parseLine (trimLeft (trimSpace (word ++ x)) word) = .ok (key, value)) :
    key ++ ' ' :: value <:+ x := by
  rw [(ok.trimmed filled).2 final, trimLeft_word] at parsed
  have back := trimLeft_suffix x word
  rcases parseLine_ok parsed with ⟨empty, _⟩ | ⟨_, eq⟩
  · exact absurd empty nonempty
  · rw [← eq]
    exact (trimSpace_suffix fun c last => final c (getLast?_of_suffix back last)).trans back

theorem unquoted_plain (mark : '"' ∉ key) : unquoted key = .ok key := by
  refine if_neg fun quoted => ?_
  obtain ⟨rest, rfl⟩ := hasPrefix_quote.1 quoted
  exact mark List.mem_cons_self

theorem Word.key_iff (ok : Word word) (nonempty : key ≠ []) (mark : '"' ∉ key) :
    hasPrefix (trimSpace (word ++ key)) word = true ∧ unquoted (trimLeft (trimSpace (word ++ key)) word) = .ok key ↔
      (∀ c ∈ key.head?, c ∉ word) ∧ ∀ c ∈ key.getLast?, isSpace c = false := by
  constructor
  · rintro ⟨starts, found⟩
    obtain ⟨x, line, front⟩ := ok.line_eq _ starts
    have back := trimLeft_suffix x word
    rw [line, trimLeft_word, unquoted_plain fun here => mark (front.subset (back.subset here))] at found
    have same : trimLeft x word = key := Except.ok.inj found
    have outer := front.length_le
    have middle := back.length_le
    rw [same] at middle
    obtain rfl : x = key := front.eq_of_length (by omega)
    exact ⟨trimLeft_eq_self_iff.1 same, (ok.trimmed nonempty).1 line⟩
  · rintro ⟨first, final⟩
    rw [(ok.trimmed nonempty).2 final, trimLeft_word, trimLeft_eq_self_iff.2 first]
    exact ⟨hasPrefix_append _ _, unquoted_plain mark⟩

/-- A key in quotes comes through. -/
theorem Word.quoted_key (ok : Word word) (clear : '"' ∉ word) (mark : '"' ∉ key) :
    hasPrefix (trimSpace (word ++ quote key)) word = true ∧
      unquoted (trimLeft (trimSpace (word ++ quote key)) word) = .ok key := by
  have final : ∀ c ∈ (quote key).getLast?, isSpace c = false := by
    simp only [quote, List.getLast?_append, List.getLast?_singleton, Option.some_or, Option.mem_some_iff, forall_eq']
    decide
  have first : trimLeft (quote key) word = quote key := trimLeft_eq_self_iff.2 fun c here => by
    cases here
    exact clear
  have filled : quote key ≠ [] := List.cons_ne_nil _ _
  rw [(ok.trimmed filled).2 final, trimLeft_word, first]
  refine ⟨hasPrefix_append _ _, ?_⟩
  have quoted : hasPrefix (quote key) ['"'] = true := hasPrefix_quote.2 ⟨_, rfl⟩
  rw [unquoted, if_pos quoted, extractKey_quote mark]

/-- With a quote in front of the key, an empty key and an empty value come through. -/
theorem Word.quoted_parsed (ok : Word word) (clear : '"' ∉ word) {rest : Text}
    (starts : hasPrefix (trimSpace (word ++ '"' :: rest)) word = true)
    (parsed : parseLine (trimLeft (trimSpace
      (word ++ '"' :: rest)) word) = .ok (key, value)) : key = [] ∧ value = [] := by
  obtain ⟨x, line, front⟩ := ok.line_eq _ starts
  rw [line, trimLeft_word] at parsed
  rcases parseLine_ok parsed with empty | ⟨plain, eq⟩
  · exact empty
  · cases x with
    | nil => simp [trimLeft, trimSpace] at eq
    | cons c x =>
      obtain ⟨rfl, _⟩ := List.cons_prefix_cons.1 front
      have left : trimLeft ('"' :: x) word = '"' :: x := trimLeft_eq_self_iff.2 fun c here => by
        cases here
        exact clear
      have head := trimSpace_head (s := '"' :: x) fun c here => by
        cases here
        decide
      obtain ⟨more, starts⟩ := List.head?_eq_some_iff.1 head
      rw [left, starts] at plain
      cases plain

end Words

section Switch

variable (parseDuration dmap line)

/-- The lines that lead to an operation. -/
def Obeys : CliOp → Prop
  | .put d key value =>
    d = dmap ∧ hasPrefix line putWord = true ∧ parseLine (trimLeft line putWord) = .ok (key, value)
  | .putEx d key value ttl =>
    hasPrefix line putExWord = true ∧ putExCommand parseDuration dmap line = .call (.putEx d key value ttl)
  | .get d key => d = dmap ∧ hasPrefix line getWord = true ∧ unquoted (trimLeft line getWord) = .ok key
  | .delete d key => d = dmap ∧ hasPrefix line deleteWord = true ∧ unquoted (trimLeft line deleteWord) = .ok key
  | .destroy d => d = dmap ∧ hasPrefix line destroyWord = true
  | .incr d key delta => d = dmap ∧ hasPrefix line incrWord = true ∧
      ∃ value, parseLine (trimLeft line incrWord) = .ok (key, value) ∧ atoi value = some delta
  | .decr d key delta => d = dmap ∧ hasPrefix line decrWord = true ∧
      ∃ value, parseLine (trimLeft line decrWord) = .ok (key, value) ∧ atoi value = some delta

variable {parseDuration dmap line}

theorem putCommand_call : putCommand dmap line = .call op ↔
    ∃ key value, parseLine (trimLeft line putWord) = .ok (key, value) ∧ op = .put dmap key value := by
  unfold putCommand
  dsimp only
  rw [parseLine_trimSpace]
  cases parseLine (trimLeft line putWord) with
  | error err => simp [invalid]
  | ok parsed => simp [Prod.ext_iff, eq_comm]

theorem keyCommand_call {f : Text → Text → CliOp} : keyCommand dmap line word f = .call op ↔
    ∃ key, unquoted (trimLeft line word) = .ok key ∧ op = f dmap key := by
  unfold keyCommand
  cases unquoted (trimLeft line word) with
  | error err => simp [invalid]
  | ok key => simp [eq_comm]

theorem counterCommand_call {f : Text → Text → Int → CliOp} : counterCommand dmap line word f = .call op ↔
    ∃ key value delta, parseLine (trimLeft line word) = .ok (key, value) ∧ atoi value = some delta ∧
      op = f dmap key delta := by
  unfold counterCommand
  cases parseLine (trimLeft line word) with
  | error err => simp [invalid]
  | ok parsed =>
    obtain ⟨key, value⟩ := parsed
    cases parsed : atoi value with
    | none => simp [parsed]
    | some delta => simp [parsed, eq_comm]

theorem putExCommand_call (called : putExCommand parseDuration dmap line = .call op) :
    ∃ key value ttl, op = .putEx dmap key value ttl := by
  unfold putExCommand invalid at called
  dsimp only at called
  split at called
  · cases called
  · split at called
    · cases called
    · split at called
      · cases called
      · cases called
        exact ⟨_, _, _, rfl⟩

theorem command_call : command parseDuration dmap line = .call op ↔ Obeys parseDuration dmap line op := by
  constructor
  · intro called
    unfold command at called
    split at called
    next starts =>
      obtain ⟨key, value, parsed, rfl⟩ := putCommand_call.1 called
      exact ⟨rfl, starts, parsed⟩
    split at called
    next starts =>
      obtain ⟨key, value, ttl, rfl⟩ := putExCommand_call called
      exact ⟨starts, called⟩
    split at called
    next starts =>
      obtain ⟨key, found, rfl⟩ := keyCommand_call.1 called
      exact ⟨rfl, starts, found⟩
    split at called
    next starts =>
      obtain ⟨key, found, rfl⟩ := keyCommand_call.1 called
      exact ⟨rfl, starts, found⟩
    split at called
    next starts =>
      cases called
      exact ⟨rfl, starts⟩
    split at called
    next starts =>
      obtain ⟨key, value, delta, parsed, number, rfl⟩ := counterCommand_call.1 called
      exact ⟨rfl, starts, value, parsed, number⟩
    split at called
    next starts =>
      obtain ⟨key, value, delta, parsed, number, rfl⟩ := counterCommand_call.1 called
      exact ⟨rfl, starts, value, parsed, number⟩
    · cases called
  · intro obeys
    -- A line that begins with one word begins with no other.
    cases op with
    | put d key value =>
      obtain ⟨rfl, starts, parsed⟩ := obeys
      rw [command, if_pos starts]
      exact putCommand_call.2 ⟨key, value, parsed, rfl⟩
    | putEx d key value ttl =>
      obtain ⟨starts, called⟩ := obeys
      simpa (disch := decide) only [command, hasPrefix_other starts, starts, if_true, if_false, Bool.false_eq_true]
        using called
    | get d key =>
      obtain ⟨rfl, starts, found⟩ := obeys
      simp (disch := decide) only [command, hasPrefix_other starts, starts, if_true, if_false, Bool.false_eq_true]
      exact keyCommand_call.2 ⟨key, found, rfl⟩
    | delete d key =>
      obtain ⟨rfl, starts, found⟩ := obeys
      simp (disch := decide) only [command, hasPrefix_other starts, starts, if_true, if_false, Bool.false_eq_true]
      exact keyCommand_call.2 ⟨key, found, rfl⟩
    | destroy d =>
      obtain ⟨rfl, starts⟩ := obeys
      simp (disch := decide) only [command, hasPrefix_other starts, starts, if_true, if_false, Bool.false_eq_true]
    | incr d key delta =>
      obtain ⟨rfl, starts, value, parsed, number⟩ := obeys
      simp (disch := decide) only [command, hasPrefix_other starts, starts, if_true, if_false, Bool.false_eq_true]
      exact counterCommand_call.2 ⟨key, value, delta, parsed, number, rfl⟩
    | decr d key delta =>
      obtain ⟨rfl, starts, value, parsed, number⟩ := obeys
      simp (disch := decide) only [command, hasPrefix_other starts, starts, if_true, if_false, Bool.false_eq_true]
      exact counterCommand_call.2 ⟨key, value, delta, parsed, number, rfl⟩

def words : List Text := [putWord, putExWord, getWord, deleteWord, destroyWord, incrWord, decrWord]

theorem Obeys.starts (obeys : Obeys parseDuration dmap line op) : ∃ word ∈ words, hasPrefix line word = true := by
  cases op with
  | put | get | delete | incr | decr => exact ⟨_, by simp [words], obeys.2.1⟩
  | putEx => exact ⟨_, by simp [words], obeys.1⟩
  | destroy => exact ⟨_, by simp [words], obeys.2⟩

/-- No command begins with `exit` or `use`. -/
theorem words_apart : ∀ word ∈ words, (hasPrefix exitWord word = false ∧ hasPrefix word exitWord = false) ∧
    hasPrefix (useWord ++ [' ']) word = false ∧ hasPrefix word (useWord ++ [' ']) = false := by
  decide

theorem words_ok : ∀ word ∈ words, Word word ∧ '"' ∉ word := by
  intro word listed
  simp only [words, List.mem_cons, List.not_mem_nil, or_false] at listed
  obtain rfl | rfl | rfl | rfl | rfl | rfl | rfl := listed
  all_goals
    refine ⟨⟨List.cons_ne_nil _ _, fun c here => ?_⟩, ?_⟩
    · cases here
      rfl
    · simp [putWord, putExWord, getWord, deleteWord, destroyWord, incrWord, decrWord]

theorem useCommand_prints (line : Text) : ∃ msg, (useCommand line).2 = .print msg := by
  unfold useCommand invalid
  dsimp only
  split
  · split <;> exact ⟨_, rfl⟩
  · exact ⟨_, rfl⟩

theorem start_call : (start parseDuration dmap line).2 = .call op ↔ dmap ≠ [] ∧
    Obeys parseDuration dmap (trimSpace line) op := by
  rw [← command_call]
  constructor
  · intro called
    unfold start at called
    dsimp only at called
    split at called
    · cases called
    split at called
    · obtain ⟨msg, printed⟩ := useCommand_prints (trimSpace line)
      cases printed.symm.trans called
    split at called
    · cases called
    next used => exact ⟨by simpa using used, called⟩
  · rintro ⟨used, called⟩
    obtain ⟨word, listed, starts⟩ := (command_call.1 called).starts
    have exits := hasPrefix_other starts (words_apart word listed).1
    have uses := hasPrefix_other starts (words_apart word listed).2
    simp [start, exits, uses, used, called]

end Switch

end Cli

/-- A key as it is typed: in quotes, or a word. -/
structure CliKey where
  quoted : Bool
  text : Text
  mark : '"' ∉ text
  word : quoted = false → text ≠ [] ∧ ' ' ∉ text

structure CliValue where
  text : Text
  nonempty : text ≠ []
  front : text.head? ≠ some ' '
  back : text.getLast? ≠ some ' '

/-- A decimal integer. -/
structure CliDelta where
  text : Text
  value : Int
  denotes : decimal text = some value

inductive CliCommand
  | put (key : CliKey) (value : CliValue)
  | get (key : CliKey)
  | delete (key : CliKey)
  | incr (key : CliKey) (delta : CliDelta)
  | decr (key : CliKey) (delta : CliDelta)

def CliKey.typed (key : CliKey) : Text := if key.quoted then Cli.quote key.text else key.text

namespace CliCommand

open Cli

def line : CliCommand → Text
  | .put key value => putWord ++ (key.typed ++ ' ' :: value.text)
  | .get key => getWord ++ key.typed
  | .delete key => deleteWord ++ key.typed
  | .incr key delta => incrWord ++ (key.typed ++ ' ' :: delta.text)
  | .decr key delta => decrWord ++ (key.typed ++ ' ' :: delta.text)

def op (dmap : Text) : CliCommand → CliOp
  | .put key value => .put dmap key.text value.text
  | .get key => .get dmap key.text
  | .delete key => .delete dmap key.text
  | .incr key delta => .incr dmap key.text delta.value
  | .decr key delta => .decr dmap key.text delta.value

/-- A key that stands alone: in quotes, or without a rune of the command in front and white space behind. -/
def KeyAlone (word : Text) (key : CliKey) : Prop :=
  key.quoted = true ∨ (∀ c ∈ key.text.head?, c ∉ word) ∧ ∀ c ∈ key.text.getLast?, isSpace c = false

/-- A key that something follows: without quotes, and neither a rune of the command nor white space in
front. -/
def KeyFirst (word : Text) (key : CliKey) : Prop :=
  key.quoted = false ∧ ∀ c ∈ key.text.head?, c ∉ word ∧ isSpace c = false

/-- The commands that lead to their operation. -/
def ComesThrough : CliCommand → Prop
  | .put key value => KeyFirst putWord key ∧ ∀ c ∈ value.text.getLast?, isSpace c = false
  | .get key => KeyAlone getWord key
  | .delete key => KeyAlone deleteWord key
  | .incr key delta => KeyFirst incrWord key ∧ -2 ^ 63 ≤ delta.value ∧ delta.value < 2 ^ 63
  | .decr key delta => KeyFirst decrWord key ∧ -2 ^ 63 ≤ delta.value ∧ delta.value < 2 ^ 63

variable {word : Text}

theorem key_alone_iff (ok : Word word) (clear : '"' ∉ word) (key : CliKey) :
    hasPrefix (trimSpace (word ++ key.typed)) word = true ∧ unquoted (trimLeft (trimSpace (word ++ key.typed)) word) =
      .ok key.text ↔
      KeyAlone word key := by
  unfold KeyAlone CliKey.typed
  cases quoted : key.quoted with
  | true => simpa using ok.quoted_key clear key.mark
  | false => simpa using ok.key_iff (key.word quoted).1 key.mark

theorem key_first_iff (ok : Word word) (clear : '"' ∉ word) (key : CliKey) {value : Text} (filled : value ≠ []) :
    hasPrefix (trimSpace (word ++ (key.typed ++ ' ' :: value))) word = true ∧
        parseLine (trimLeft (trimSpace (word ++ (key.typed ++ ' ' :: value))) word) = .ok (key.text, value) ↔
      KeyFirst word key ∧ ∀ c ∈ value.getLast?, isSpace c = false := by
  unfold KeyFirst CliKey.typed
  cases quoted : key.quoted with
  | true =>
    simp only [if_true, Bool.true_eq_false, false_and, iff_false]
    rintro ⟨starts, parsed⟩
    exact filled (ok.quoted_parsed clear starts parsed).2
  | false => simpa using ok.parsed_iff (key.word quoted).1 (key.word quoted).2 key.mark filled

/-- Only the whole number can follow the whole key. -/
theorem delta_eq {key value delta : Text} (space : ' ' ∉ key) (spaceless : ' ' ∉ delta)
    (back : key ++ ' ' :: value <:+ key ++ ' ' :: delta) : value = delta := by
  obtain ⟨front, eq⟩ := back
  have counted := congrArg (List.count ' ') eq
  have none : ' ' ∉ front := by
    rw [← List.count_eq_zero]
    simp only [List.count_append, List.count_cons_self, List.count_eq_zero.2 space,
      List.count_eq_zero.2 spaceless] at counted
    omega
  have once : cut [' '] (front ++ key ++ ' ' :: value) = (front ++ key, some value) :=
    Text.cut_char (by simp [none, space]) value
  rw [List.append_assoc, eq, Text.cut_char space] at once
  exact (Option.some.inj (Prod.mk.inj once).2).symm

theorem counter_iff (ok : Word word) (clear : '"' ∉ word) (key : CliKey) (delta : CliDelta) :
    (hasPrefix (trimSpace (word ++ (key.typed ++ ' ' :: delta.text))) word = true ∧
        ∃ value, parseLine (trimLeft (trimSpace (word ++ (key.typed ++ ' ' :: delta.text))) word) =
          .ok (key.text, value) ∧ atoi value = some delta.value) ↔
      KeyFirst word key ∧ -2 ^ 63 ≤ delta.value ∧ delta.value < 2 ^ 63 := by
  obtain ⟨filled, spaceless⟩ := decimal_eq_some delta.denotes
  have final : ∀ c ∈ delta.text.getLast?, isSpace c = false := fun c here => spaceless c (List.mem_of_getLast? here)
  have first := key_first_iff ok clear key filled
  constructor
  · rintro ⟨starts, value, parsed, number⟩
    cases quoted : key.quoted with
    | true =>
      -- Nothing is parsed, which is no number.
      simp only [CliKey.typed, quoted, if_true] at starts parsed
      rw [(ok.quoted_parsed clear starts parsed).2] at number
      cases number
    | false =>
      obtain ⟨nonempty, space⟩ := key.word quoted
      have same : value = delta.text := by
        refine delta_eq space (fun here => absurd (spaceless _ here) (by decide)) ?_
        rw [CliKey.typed, quoted] at parsed
        refine ok.parsed_suffix (by simp) (fun c last => ?_) nonempty parsed
        rw [List.getLast?_append_of_ne_nil _ (List.cons_ne_nil _ _), List.getLast?_cons_of_ne_nil filled] at last
        exact final c last
      rw [same] at parsed number
      exact ⟨(first.1 ⟨starts, parsed⟩).1, (atoi_eq_some.1 number).2⟩
  · rintro ⟨clearly, range⟩
    obtain ⟨starts, parsed⟩ := first.2 ⟨clearly, final⟩
    exact ⟨starts, delta.text, parsed, atoi_eq_some.2 ⟨delta.denotes, range⟩⟩

end CliCommand

/-- Which lines of the command line client lead to the operation that they stand for. -/
theorem cli_issues_iff (parseDuration : Text → Except String Int64) (dmap : Text) (c : CliCommand) :
    (Cli.start parseDuration dmap c.line).2 = .call (c.op dmap) ↔ dmap ≠ [] ∧ c.ComesThrough := by
  rw [Cli.start_call]
  refine and_congr_right fun _ => ?_
  cases c with
  | put key value =>
    have plain := Cli.words_ok Cli.putWord (by simp [Cli.words])
    rw [CliCommand.ComesThrough, ← CliCommand.key_first_iff plain.1 plain.2 key value.nonempty]
    exact and_iff_right rfl
  | get key =>
    have plain := Cli.words_ok Cli.getWord (by simp [Cli.words])
    rw [CliCommand.ComesThrough, ← CliCommand.key_alone_iff plain.1 plain.2]
    exact and_iff_right rfl
  | delete key =>
    have plain := Cli.words_ok Cli.deleteWord (by simp [Cli.words])
    rw [CliCommand.ComesThrough, ← CliCommand.key_alone_iff plain.1 plain.2]
    exact and_iff_right rfl
  | incr key delta =>
    have plain := Cli.words_ok Cli.incrWord (by simp [Cli.words])
    rw [CliCommand.ComesThrough, ← CliCommand.counter_iff plain.1 plain.2]
    exact and_iff_right rfl
  | decr key delta =>
    have plain := Cli.words_ok Cli.decrWord (by simp [Cli.words])
    rw [CliCommand.ComesThrough, ← CliCommand.counter_iff plain.1 plain.2]
    exact and_iff_right rfl

/-- The first letter of the key is trimmed with the command, and nothing is left of what stands in quotes. -/
theorem cli_issues_other :
    ∃ user quoted : CliCommand, user.line = ['p', 'u', 't', ' ', 'u', 's', 'e', 'r', ' ', '1'] ∧
      quoted.line = ['p', 'u', 't', ' ', '"', 'k', '"', ' ', '1'] ∧ ∀ parseDuration,
        (Cli.start parseDuration ['m'] user.line).2 = .call (.put ['m'] ['s', 'e', 'r'] ['1']) ∧
        (Cli.start parseDuration ['m'] quoted.line).2 = .call (.put ['m'] [] []) := by
  refine ⟨.put ⟨false, ['u', 's', 'e', 'r'], by decide, by decide⟩ ⟨['1'], by decide, by decide, by decide⟩,
    .put ⟨true, ['k'], by decide, by decide⟩ ⟨['1'], by decide, by decide, by decide⟩, rfl, rfl,
      fun parseDuration => ⟨?_, ?_⟩⟩
  · exact Cli.start_call.2 ⟨by decide, rfl, by decide +kernel, by decide +kernel⟩
  · exact Cli.start_call.2 ⟨by decide, rfl, by decide +kernel, by decide +kernel⟩

end Olric
