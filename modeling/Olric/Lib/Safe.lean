import Olric.Lib.Program

namespace Program

variable {Cmd : Type} {Reply : Cmd → Type} {α β ι σ State : Type} {exec : State → (c : Cmd) → Reply c → State → Prop}
  {ok : State → Cmd → Prop}

/-- Run alone from the state, the program issues only commands that are fine where it issues them,
and if it ends, then with a result and in a state that satisfy `Q`. -/
def Safe (exec : State → (c : Cmd) → Reply c → State → Prop) (ok : State → Cmd → Prop) :
    Program Cmd Reply α → State → (α → State → Prop) → Prop
  | .ret a, s, Q => Q a s
  | .call c next, s, Q => ok s c ∧ ∀ reply mid, exec s c reply mid → (next reply).Safe exec ok mid Q

theorem safe_bind {p : Program Cmd Reply α} {f : α → Program Cmd Reply β} {s : State} {Q : β → State → Prop} :
    (p.bind f).Safe exec ok s Q ↔ p.Safe exec ok s fun a s' => (f a).Safe exec ok s' Q := by
  induction p generalizing s with
  | ret a => rfl
  | call c next ih =>
    exact and_congr_right fun _ => forall_congr' fun r => forall_congr' fun _ => imp_congr_right fun _ => ih r

theorem Safe.mono {p : Program Cmd Reply α} {s : State} {Q Q' : α → State → Prop} (safe : p.Safe exec ok s Q)
    (weaker : ∀ a s', Q a s' → Q' a s') : p.Safe exec ok s Q' := by
  induction p generalizing s with
  | ret a => exact weaker _ _ safe
  | call c next ih => exact ⟨safe.1, fun r mid now => ih r (safe.2 r mid now)⟩

theorem Safe.bind {p : Program Cmd Reply α} {f : α → Program Cmd Reply β} {s : State} {Q : α → State → Prop}
    {Q' : β → State → Prop} (first : p.Safe exec ok s Q) (rest : ∀ a s', Q a s' → (f a).Safe exec ok s' Q') :
    (p.bind f).Safe exec ok s Q' :=
  safe_bind.2 (first.mono rest)

/-- Every command that the program gets to is fine. -/
theorem Safe.reaches {p : Program Cmd Reply α} {s s' : State} {c : Cmd} {next : Reply c → Program Cmd Reply α}
    {Q : α → State → Prop} (safe : p.Safe exec ok s Q) (reaches : p.Reaches exec s (.call c next) s') : ok s' c := by
  generalize call : Program.call c next = q at reaches
  induction reaches with
  | refl =>
    subst call
    exact safe.1
  | step reply now _ ih => exact ih (safe.2 reply _ now) call

theorem safe_of_reaches {p : Program Cmd Reply α} {s : State} (fine : ∀ c (next : Reply c → Program Cmd Reply α) s',
    p.Reaches exec s (.call c next) s' → ok s' c) : p.Safe exec ok s fun _ _ => True := by
  induction p generalizing s with
  | ret a => trivial
  | call c next ih =>
    exact ⟨fine c next s .refl, fun reply mid now => ih reply fun c' next' s' later =>
      fine c' next' s' (.step reply now later)⟩

/-- The rule for a program all of whose commands are fine under an assertion and keep it. -/
theorem Safe.only {kind : Cmd → Prop} (P : State → Prop) (fine : ∀ s c, kind c → P s → ok s c)
    (keeps : ∀ s c reply s', kind c → P s → exec s c reply s' → P s') {p : Program Cmd Reply α} (only : p.Only kind)
    {s : State} (start : P s) : p.Safe exec ok s fun _ => P := by
  induction p generalizing s with
  | ret a => exact start
  | call c next ih =>
    exact ⟨fine s c only.1 start, fun reply s' now => ih reply (only.2 reply) (keeps s c reply s' only.1 start now)⟩

/-- A loop over a list that carries something along and stops when its body says so. -/
def iterate (body : σ → ι → Program Cmd Reply (σ × Bool)) (x : σ) : List ι → Program Cmd Reply σ
  | [] => .ret x
  | i :: rest => (body x i).bind fun r => if r.2 then iterate body r.1 rest else .ret r.1

/-- The rule for such a loop, with an invariant over what is carried along and what is left to go
through. Where the body stops the loop, it does not matter what is left. -/
theorem Safe.iterate (Inv : σ → List ι → State → Prop) {body : σ → ι → Program Cmd Reply (σ × Bool)}
    (round : ∀ x i rest s, Inv x (i :: rest) s → (body x i).Safe exec ok s fun r s' =>
      if r.2 then Inv r.1 rest s' else ∀ rest, Inv r.1 rest s') {x : σ} {list : List ι}
    (later : List ι) {s : State} (start : Inv x (list ++ later) s) :
    (iterate body x list).Safe exec ok s fun x => Inv x later := by
  induction list generalizing x s with
  | nil => exact start
  | cons i rest ih =>
    refine (round x i (rest ++ later) s start).bind fun r s' now => ?_
    split at now
    next go =>
      rw [if_pos go]
      exact ih now
    next stop =>
      rw [if_neg stop]
      exact now later

end Program
