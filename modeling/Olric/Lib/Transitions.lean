import Mathlib.Data.Finset.Card
import Mathlib.Data.List.Basic
import Mathlib.Logic.Function.Basic

/-- What a function that is changed in one place has in another. -/
theorem Function.update_cases {α β : Type*} [DecidableEq α] (f : α → β) (a : α) (b : β) (x : α) :
    x = a ∧ Function.update f a b x = b ∨ x ≠ a ∧ Function.update f a b x = f x := by
  by_cases same : x = a
  · subst same
    exact .inl ⟨rfl, Function.update_self ..⟩
  · exact .inr ⟨same, Function.update_of_ne same ..⟩

/-- How many places have a value with a property, after a change in one place. -/
theorem Function.exists_card_update {α β : Type*} [DecidableEq α] (f : α → β) (p : β → Prop) {W : Finset α}
    (mem : ∀ x, x ∈ W ↔ p (f x)) (a : α) (b : β) :
    ∃ W' : Finset α, (∀ x, x ∈ W' ↔ p (Function.update f a b x)) ∧ ((p b ↔ p (f a)) → W'.card = W.card) ∧
      (p b → ¬ p (f a) → W'.card = W.card + 1) ∧ (¬ p b → p (f a) → W'.card + 1 = W.card) := by
  by_cases new : p b
  · refine ⟨insert a W, fun x => ?_, fun same => ?_, fun _ old => ?_, fun absent => absurd new absent⟩
    · by_cases same : x = a
      · subst same
        simp [new]
      · simp [same, mem]
    · rw [Finset.insert_eq_of_mem ((mem a).2 (same.1 new))]
    · exact Finset.card_insert_of_notMem fun there => old ((mem a).1 there)
  · refine ⟨W.erase a, fun x => ?_, fun same => ?_, fun present => absurd present new, fun _ old => ?_⟩
    · by_cases same : x = a
      · subst same
        simp [new]
      · simp [same, mem]
    · rw [Finset.erase_eq_of_notMem fun there => new (same.2 ((mem a).1 there))]
    · exact Finset.card_erase_add_one ((mem a).2 old)

/-- A labelled transition system. -/
structure Transitions (State Label : Type*) where
  init : State → Prop
  step : State → Label → State → Prop

namespace Transitions

variable {State Label : Type*} {T : Transitions State Label}

/-- The finite runs all of whose steps are allowed in the state they are taken in, with the
labels of the steps in order. -/
inductive Run (T : Transitions State Label) (allow : State → Label → Prop) : List Label → State → Prop
  | start {s} : T.init s → Run T allow [] s
  | next {labels s label s'} : Run T allow labels s → allow s label → T.step s label s' →
      Run T allow (labels ++ [label]) s'

/-- Every run: no step is excluded. -/
abbrev AnyRun (T : Transitions State Label) : List Label → State → Prop := T.Run fun _ _ => True

theorem Run.andThen {labels : List Label} {s s' : State} (run : T.AnyRun labels s) (label : Label)
    (step : T.step s label s') : T.AnyRun (labels ++ [label]) s' :=
  run.next trivial step

theorem Run.andThenAllowed {allow : State → Label → Prop} {labels : List Label} {s s' : State}
    (run : T.Run allow labels s)
    (label : Label) (allowed : allow s label) (step : T.step s label s') : T.Run allow (labels ++ [label]) s' :=
  run.next allowed step

/-- An invariant that relates the state to the labels so far holds along every run. -/
theorem Run.history_invariant {allow : State → Label → Prop} (Inv : List Label → State → Prop)
    (initial : ∀ s, T.init s → Inv [] s)
    (preserved : ∀ labels s label s', Inv labels s → allow s label → T.step s label s' → Inv (labels ++ [label]) s')
    {labels : List Label} {s : State} (run : T.Run allow labels s) : Inv labels s := by
  induction run with
  | start started => exact initial _ started
  | next _ allowed step ih => exact preserved _ _ _ _ ih allowed step

theorem Run.invariant {allow : State → Label → Prop} (Inv : State → Prop)
    (initial : ∀ s, T.init s → Inv s)
    (preserved : ∀ s label s', Inv s → allow s label → T.step s label s' → Inv s')
    {labels : List Label} {s : State} (run : T.Run allow labels s) : Inv s :=
  run.history_invariant (fun _ => Inv) initial (fun _ _ _ _ => preserved _ _ _)

theorem Run.mono {allow allow' : State → Label → Prop} (weaker : ∀ s label, allow s label → allow' s label)
    {labels : List Label} {s : State} (run : T.Run allow labels s) : T.Run allow' labels s := by
  induction run with
  | start started => exact .start started
  | next _ allowed step ih => exact .next ih (weaker _ _ allowed) step

/-- A run of one system is a run of another that has its steps, under other labels. -/
theorem Run.map {Label' : Type*} {T' : Transitions State Label'} {allow : State → Label → Prop} (f : Label → Label')
    (initial : ∀ s, T.init s → T'.init s) (steps : ∀ s label s', T.step s label s' → T'.step s (f label) s')
    {labels : List Label} {s : State} (run : T.Run allow labels s) : T'.AnyRun (labels.map f) s := by
  induction run with
  | start started => exact .start (initial _ started)
  | next _ _ step ih =>
    rw [List.map_append]
    exact ih.next trivial (steps _ _ _ step)

/-- With one initial state and at most one outcome of each step, the labels determine the state. -/
theorem Run.unique {allow : State → Label → Prop} (initial : ∀ s s', T.init s → T.init s' → s = s')
    (functional : ∀ s label s₁ s₂, T.step s label s₁ → T.step s label s₂ → s₁ = s₂) {labels : List Label}
    {s s' : State} (run : T.Run allow labels s) (run' : T.Run allow labels s') : s = s' := by
  induction run generalizing s' with
  | start started =>
    generalize eq : [] = labels at run'
    cases run' with
    | start started' => exact initial _ _ started started'
    | next => simp at eq
  | @next labels mid label s _ _ step ih =>
    generalize eq : labels ++ [label] = labels' at run'
    cases run' with
    | start => simp at eq
    | next before _ step' =>
      obtain ⟨rfl, last⟩ := List.append_inj' eq rfl
      cases last
      cases ih before
      exact functional _ _ _ _ step step'

/-- A run without some of its steps: if a relation survives the steps that are taken out and is
simulated along the others, what is left is a run, too. -/
theorem Run.filter_simulates {allow : State → Label → Prop} (keep : Label → Bool) (Rel : State → State → Prop)
    (initial : ∀ s, T.init s → ∃ t, T.init t ∧ Rel s t)
    (kept : ∀ s s' t label, Rel s t → allow s label → keep label = true → T.step s label s' →
      ∃ t', T.step t label t' ∧ Rel s' t')
    (removed : ∀ s s' t label, Rel s t → allow s label → keep label = false → T.step s label s' → Rel s' t)
    {labels : List Label} {s : State} (run : T.Run allow labels s) :
    ∃ t, T.AnyRun (labels.filter keep) t ∧ Rel s t := by
  induction run with
  | start started =>
    obtain ⟨t, started', rel⟩ := initial _ started
    exact ⟨t, .start started', rel⟩
  | @next labels s label s' _ allowed step ih =>
    obtain ⟨t, run, rel⟩ := ih
    cases stays : keep label with
    | true =>
      obtain ⟨t', step', rel'⟩ := kept s s' t label rel allowed stays step
      refine ⟨t', ?_, rel'⟩
      rw [List.filter_append, List.filter_cons_of_pos stays]
      exact run.next trivial step'
    | false =>
      refine ⟨t, ?_, removed s s' t label rel allowed stays step⟩
      rw [List.filter_append, List.filter_cons_of_neg (by simp [stays]), List.filter_nil, List.append_nil]
      exact run

/-- Some run leads to the state. -/
def Reachable (T : Transitions State Label) (s : State) : Prop := ∃ labels, T.AnyRun labels s

theorem Reachable.start {s : State} (started : T.init s) : T.Reachable s := ⟨[], .start started⟩

theorem Reachable.next {s s' : State} {label : Label} (reach : T.Reachable s) (step : T.step s label s') :
    T.Reachable s' := by
  obtain ⟨labels, run⟩ := reach
  exact ⟨labels ++ [label], run.next trivial step⟩

theorem Reachable.andThen {s s' : State} (reach : T.Reachable s) (label : Label) (step : T.step s label s') :
    T.Reachable s' :=
  reach.next step

/-- Some run of allowed steps, one of which is the given one, leads to the state. -/
def ReachableAfter (T : Transitions State Label) (allow : State → Label → Prop) (label : Label) (s : State) : Prop :=
  ∃ labels, T.Run allow labels s ∧ label ∈ labels

theorem ReachableAfter.next {allow : State → Label → Prop} {label next : Label} {s s' : State}
    (reach : T.ReachableAfter allow label s) (allowed : allow s next) (step : T.step s next s') :
    T.ReachableAfter allow label s' := by
  obtain ⟨labels, run, mem⟩ := reach
  exact ⟨labels ++ [next], run.next allowed step, List.mem_append_left _ mem⟩

end Transitions
