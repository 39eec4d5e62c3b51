import Olric.Lib.Program

namespace Program

variable {Cmd : Type} {Reply : Cmd → Type} {α β ι State State' : Type}
  {exec : State → (c : Cmd) → Reply c → State → Prop} {exec' : State' → (c : Cmd) → Reply c → State' → Prop}

/-- Run alone from the state the program never waits in vain, and however it runs, it ends with a
result and in a state that satisfy `Q`. -/
def Total (exec : State → (c : Cmd) → Reply c → State → Prop) :
    Program Cmd Reply α → State → (α → State → Prop) → Prop
  | .ret a, s, Q => Q a s
  | .call c next, s, Q =>
    (∃ reply mid, exec s c reply mid) ∧ ∀ reply mid, exec s c reply mid → (next reply).Total exec mid Q

@[simp] theorem total_ret {a : α} {s : State} {Q : α → State → Prop} : (ret a).Total exec s Q ↔ Q a s := Iff.rfl

/-- The rule for a command, from what it does. -/
theorem Total.call {c : Cmd} {next : Reply c → Program Cmd Reply α} {s : State} {Q : α → State → Prop}
    (possible : ∃ reply mid, exec s c reply mid)
    (rest : ∀ reply mid, exec s c reply mid → (next reply).Total exec mid Q) :
    (Program.call c next).Total exec s Q := ⟨possible, rest⟩

theorem total_bind {p : Program Cmd Reply α} {f : α → Program Cmd Reply β} {s : State} {Q : β → State → Prop} :
    (p.bind f).Total exec s Q ↔ p.Total exec s fun a s' => (f a).Total exec s' Q := by
  induction p generalizing s with
  | ret a => rfl
  | call c next ih =>
    exact and_congr_right fun _ => forall_congr' fun r => forall_congr' fun _ => imp_congr_right fun _ => ih r

theorem Total.mono {p : Program Cmd Reply α} {s : State} {Q Q' : α → State → Prop} (total : p.Total exec s Q)
    (weaker : ∀ a s', Q a s' → Q' a s') : p.Total exec s Q' := by
  induction p generalizing s with
  | ret a => exact weaker _ _ total
  | call c next ih => exact ⟨total.1, fun r mid now => ih r (total.2 r mid now)⟩

theorem Total.bind {p : Program Cmd Reply α} {f : α → Program Cmd Reply β} {s : State} {Q : α → State → Prop}
    {Q' : β → State → Prop} (first : p.Total exec s Q) (rest : ∀ a s', Q a s' → (f a).Total exec s' Q') :
    (p.bind f).Total exec s Q' :=
  total_bind.2 (first.mono rest)

theorem Total.runs {p : Program Cmd Reply α} {s s' : State} {a : α} {Q : α → State → Prop} (total : p.Total exec s Q)
    (run : p.Runs exec s a s') : Q a s' := by
  induction p generalizing s with
  | ret b =>
    obtain ⟨rfl, rfl⟩ := run
    exact total
  | call c next ih =>
    obtain ⟨reply, mid, now, rest⟩ := run
    exact ih reply (total.2 reply mid now) rest

theorem Total.returns {p : Program Cmd Reply α} {s : State} {Q : α → State → Prop} (total : p.Total exec s Q) :
    ∃ a s', p.Runs exec s a s' ∧ Q a s' := by
  induction p generalizing s with
  | ret b => exact ⟨b, s, ⟨rfl, rfl⟩, total⟩
  | call c next ih =>
    obtain ⟨⟨reply, mid, now⟩, rest⟩ := total
    obtain ⟨a, s', run, ends⟩ := ih reply (rest reply mid now)
    exact ⟨a, s', ⟨reply, mid, now, run⟩, ends⟩

/-- What holds of a program on a part of the state, or on another view of it, holds on the whole. -/
theorem Total.transfer {ok : Cmd → Prop} (R : State → State' → Prop)
    (possible : ∀ {s t c}, ok c → R s t → (∃ reply mid, exec s c reply mid) → ∃ reply mid, exec' t c reply mid)
    (back : ∀ {s t c reply t'}, ok c → R s t → exec' t c reply t' → ∃ s', exec s c reply s' ∧ R s' t')
    {p : Program Cmd Reply α} (only : p.Only ok) {s : State} {t : State'} {Q : α → State → Prop} (rel : R s t)
    (total : p.Total exec s Q) : p.Total exec' t fun a t' => ∃ s', Q a s' ∧ R s' t' := by
  induction p generalizing s t with
  | ret a => exact ⟨s, total, rel⟩
  | call c next ih =>
    refine ⟨possible only.1 rel total.1, fun reply t' now => ?_⟩
    obtain ⟨s', now', rel'⟩ := back only.1 rel now
    exact ih reply (only.2 reply) rel' (total.2 reply s' now')

/-- The rule for a loop, with an invariant that says which rounds are done. -/
theorem Total.forEach (Inv : List ι → State → Prop) {body : ι → Program Cmd Reply Unit} {xs done : List ι}
    (round : ∀ x ∈ xs, ∀ done s, Inv done s → (body x).Total exec s fun _ => Inv (done ++ [x])) {s : State}
    (start : Inv done s) : (forEach body xs).Total exec s fun _ => Inv (done ++ xs) := by
  induction xs generalizing done s with
  | nil =>
    rw [List.append_nil]
    exact start
  | cons x xs ih =>
    refine (round x List.mem_cons_self done s start).bind fun _ s' now => ?_
    have rest := ih (fun y mem => round y (List.mem_cons_of_mem _ mem)) now
    rwa [List.append_assoc] at rest

end Program
