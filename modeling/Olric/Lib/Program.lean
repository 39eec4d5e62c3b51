import Mathlib.Data.List.Basic

/-- A sequential program that acts by commands and continues with the reply to each of them. -/
inductive Program (Cmd : Type) (Reply : Cmd → Type) (α : Type)
  | ret (a : α)
  | call (c : Cmd) (next : Reply c → Program Cmd Reply α)

namespace Program

variable {Cmd : Type} {Reply : Cmd → Type} {α β ι State Ghost : Type}

def bind (p : Program Cmd Reply α) (f : α → Program Cmd Reply β) : Program Cmd Reply β :=
  match p with
  | .ret a => f a
  | .call c next => .call c fun r => (next r).bind f

instance : Monad (Program Cmd Reply) where
  pure := .ret
  bind := bind

@[simp] theorem pure_eq (a : α) : (pure a : Program Cmd Reply α) = .ret a := rfl
@[simp] theorem bind_eq (p : Program Cmd Reply α) (f : α → Program Cmd Reply β) : (p >>= f) = p.bind f := rfl
@[simp] theorem ret_bind (a : α) (f : α → Program Cmd Reply β) : (Program.ret a).bind f = f a := rfl
@[simp] theorem call_bind (c : Cmd) (next : Reply c → Program Cmd Reply α) (f : α → Program Cmd Reply β) :
    (Program.call c next).bind f = .call c fun r => (next r).bind f := rfl

def forEach (body : ι → Program Cmd Reply Unit) : List ι → Program Cmd Reply Unit
  | [] => .ret ()
  | x :: xs => (body x).bind fun _ => forEach body xs

/-- What a program does when it runs alone, given what each command does. -/
def Runs (exec : State → (c : Cmd) → Reply c → State → Prop) :
    Program Cmd Reply α → State → α → State → Prop
  | .ret b, s, a, s' => a = b ∧ s' = s
  | .call c next, s, a, s' => ∃ r mid, exec s c r mid ∧ (next r).Runs exec mid a s'

section Runs

variable {exec : State → (c : Cmd) → Reply c → State → Prop}

@[simp] theorem runs_ret {a b : α} {s s' : State} : (ret b).Runs exec s a s' ↔ a = b ∧ s' = s := Iff.rfl

@[simp] theorem runs_call {c : Cmd} {next : Reply c → Program Cmd Reply α} {s s' : State} {a : α} :
    (call c next).Runs exec s a s' ↔ ∃ r mid, exec s c r mid ∧ (next r).Runs exec mid a s' := Iff.rfl

theorem runs_bind {p : Program Cmd Reply α} {f : α → Program Cmd Reply β} {s s' : State} {b : β} :
    (p.bind f).Runs exec s b s' ↔ ∃ a mid, p.Runs exec s a mid ∧ (f a).Runs exec mid b s' := by
  induction p generalizing s with
  | ret a => simp
  | call c next ih =>
    constructor
    · rintro ⟨r, mid, first, rest⟩
      obtain ⟨a, mid', inner, outer⟩ := ih r |>.1 rest
      exact ⟨a, mid', ⟨r, mid, first, inner⟩, outer⟩
    · rintro ⟨a, mid', ⟨r, mid, first, inner⟩, outer⟩
      exact ⟨r, mid, first, (ih r).2 ⟨a, mid', inner, outer⟩⟩

theorem Runs.mono {exec' : State → (c : Cmd) → Reply c → State → Prop} {p : Program Cmd Reply α}
    {s s' : State} {a : α} (run : p.Runs exec s a s')
    (weaker : ∀ {s c reply s'}, exec s c reply s' → exec' s c reply s') : p.Runs exec' s a s' := by
  induction p generalizing s with
  | ret b => exact run
  | call c next ih =>
    obtain ⟨reply, mid, now, rest⟩ := run
    exact ⟨reply, mid, weaker now, ih reply rest⟩

/-- A relation that composes and relates the states around each round of a loop relates the states
around the loop. -/
theorem Runs.forEach_rel (R : State → State → Prop) (refl : ∀ s, R s s) (trans : ∀ {a b c}, R a b → R b c → R a c)
    {body : ι → Program Cmd Reply Unit} {xs : List ι}
    (round : ∀ x ∈ xs, ∀ {s s'}, (body x).Runs exec s () s' → R s s') {s s' : State}
    (run : (forEach body xs).Runs exec s () s') : R s s' := by
  induction xs generalizing s with
  | nil =>
    obtain ⟨_, rfl⟩ := run
    exact refl _
  | cons x xs ih =>
    obtain ⟨_, mid, first, rest⟩ := runs_bind.1 run
    exact trans (round x List.mem_cons_self first) (ih (fun y mem => round y (List.mem_cons_of_mem _ mem)) rest)

/-- A loop with an invariant over what is left to go through. -/
theorem Runs.forEach_invariant (Inv : List ι → State → Prop) {body : ι → Program Cmd Reply Unit}
    (round : ∀ x rest s s', Inv (x :: rest) s → (body x).Runs exec s () s' → Inv rest s') {xs : List ι} {s s' : State}
    (start : Inv xs s) (run : (forEach body xs).Runs exec s () s') : Inv [] s' := by
  induction xs generalizing s with
  | nil =>
    obtain ⟨_, rfl⟩ := run
    exact start
  | cons x xs ih =>
    obtain ⟨_, mid, first, rest⟩ := runs_bind.1 run
    exact ih (round x xs s mid start first) rest

/-- A program that runs alone gets from one point and state to another. -/
inductive Reaches (exec : State → (c : Cmd) → Reply c → State → Prop) :
    Program Cmd Reply α → State → Program Cmd Reply α → State → Prop
  | refl {p s} : Reaches exec p s p s
  | step {c next s mid q s'} (reply : Reply c) (now : exec s c reply mid)
      (rest : Reaches exec (next reply) mid q s') :
      Reaches exec (.call c next) s q s'

theorem Reaches.bind {p q : Program Cmd Reply α} {f : α → Program Cmd Reply β} {s s' : State}
    (reaches : p.Reaches exec s q s') : (p.bind f).Reaches exec s (q.bind f) s' := by
  induction reaches with
  | refl => exact .refl
  | step reply now _ ih => exact .step reply now ih

theorem Reaches.andThen {p : Program Cmd Reply α} {c : Cmd} {next : Reply c → Program Cmd Reply α} {s mid s' : State}
    (reaches : p.Reaches exec s (.call c next) mid) (reply : Reply c) (now : exec mid c reply s') :
    p.Reaches exec s (next reply) s' := by
  generalize point : call c next = q at reaches
  induction reaches with
  | refl =>
    subst point
    exact .step reply now .refl
  | step earlier before _ ih => exact .step earlier before (ih now point)

theorem Reaches.runs {p : Program Cmd Reply α} {s s' : State} {a : α} (reaches : p.Reaches exec s (.ret a) s') :
    p.Runs exec s a s' := by
  generalize point : ret a = q at reaches
  induction reaches with
  | refl =>
    subst point
    exact ⟨rfl, rfl⟩
  | step reply now _ ih => exact ⟨reply, _, now, ih point⟩

theorem Reaches.mono {exec' : State → (c : Cmd) → Reply c → State → Prop} {p q : Program Cmd Reply α} {s s' : State}
    (reaches : p.Reaches exec s q s') (weaker : ∀ {s c reply s'}, exec s c reply s' → exec' s c reply s') :
    p.Reaches exec' s q s' := by
  induction reaches with
  | refl => exact .refl
  | step reply now _ ih => exact .step reply (weaker now) ih

end Runs

end Program

/-- A rule on the order of commands: what is allowed at each point and where a reply leads. -/
structure Discipline (Cmd : Type) (Reply : Cmd → Type) (Ghost : Type) where
  allows : Ghost → Cmd → Prop
  after : Ghost → (c : Cmd) → Reply c → Ghost

namespace Program

variable {Cmd : Type} {Reply : Cmd → Type} {α β ι Ghost : Type} {D : Discipline Cmd Reply Ghost}

/-- Every command of the program is allowed where it is issued, whatever the replies are, and the
program ends with a result and at a point that satisfy `Q`. -/
def Follows (D : Discipline Cmd Reply Ghost) : Program Cmd Reply α → Ghost → (α → Ghost → Prop) → Prop
  | .ret a, g, Q => Q a g
  | .call c next, g, Q => D.allows g c ∧ ∀ r, (next r).Follows D (D.after g c r) Q

@[simp] theorem follows_ret {a : α} {g : Ghost} {Q : α → Ghost → Prop} : (ret a).Follows D g Q ↔ Q a g := Iff.rfl

@[simp] theorem follows_call {c : Cmd} {next : Reply c → Program Cmd Reply α} {g : Ghost} {Q : α → Ghost → Prop} :
    (call c next).Follows D g Q ↔ D.allows g c ∧ ∀ r, (next r).Follows D (D.after g c r) Q := Iff.rfl

theorem follows_bind {p : Program Cmd Reply α} {f : α → Program Cmd Reply β} {g : Ghost} {Q : β → Ghost → Prop} :
    (p.bind f).Follows D g Q ↔ p.Follows D g fun a g' => (f a).Follows D g' Q := by
  induction p generalizing g with
  | ret a => simp
  | call c next ih => exact and_congr_right fun _ => forall_congr' fun r => ih r

theorem Follows.mono {p : Program Cmd Reply α} {g : Ghost} {Q Q' : α → Ghost → Prop} (follows : p.Follows D g Q)
    (weaker : ∀ a g', Q a g' → Q' a g') : p.Follows D g Q' := by
  induction p generalizing g with
  | ret a => exact weaker _ _ follows
  | call c next ih => exact ⟨follows.1, fun r => ih r (follows.2 r)⟩

theorem Follows.bind {p : Program Cmd Reply α} {f : α → Program Cmd Reply β} {g : Ghost} {Q : α → Ghost → Prop}
    {Q' : β → Ghost → Prop} (first : p.Follows D g Q) (rest : ∀ a g', Q a g' → (f a).Follows D g' Q') :
    (p.bind f).Follows D g Q' :=
  follows_bind.2 (first.mono rest)

/-- A relation that every allowed command establishes, and that composes, holds around a run of a
program that follows the rule. -/
theorem Follows.runs_rel {State : Type} {exec : State → (c : Cmd) → Reply c → State → Prop} (R : State → State → Prop)
    (refl : ∀ s, R s s) (trans : ∀ {a b c}, R a b → R b c → R a c)
    (each : ∀ {g c reply s s'}, D.allows g c → exec s c reply s' → R s s')
    {p : Program Cmd Reply α} {g : Ghost} {Q : α → Ghost → Prop} (follows : p.Follows D g Q)
    {s s' : State} {a : α} (run : p.Runs exec s a s') : R s s' := by
  induction p generalizing g s with
  | ret b =>
    obtain ⟨_, rfl⟩ := run
    exact refl _
  | call c next ih =>
    obtain ⟨reply, mid, now, rest⟩ := run
    exact trans (each follows.1 now) (ih reply (follows.2 reply) rest)

/-- An assertion for every point that the allowed commands carry on holds where a run ends. -/
theorem Follows.runs {State : Type} {exec : State → (c : Cmd) → Reply c → State → Prop} (A : Ghost → State → Prop)
    (each : ∀ {g c reply s s'}, D.allows g c → A g s → exec s c reply s' → A (D.after g c reply) s')
    {p : Program Cmd Reply α} {g : Ghost} {Q : α → Ghost → Prop} (follows : p.Follows D g Q)
    {s s' : State} {a : α} (start : A g s) (run : p.Runs exec s a s') : ∃ g', Q a g' ∧ A g' s' := by
  induction p generalizing g s with
  | ret b =>
    obtain ⟨rfl, rfl⟩ := run
    exact ⟨g, follows, start⟩
  | call c next ih =>
    obtain ⟨reply, mid, now, rest⟩ := run
    exact ih reply (follows.2 reply) (each follows.1 start now) rest

/-- The program issues the command, for some replies to the commands before it. -/
def Issues (c : Cmd) : Program Cmd Reply α → Prop
  | .ret _ => False
  | .call c' next => c' = c ∨ ∃ r, (next r).Issues c

/-- The program returns the result, for some replies to its commands. -/
def Returns (a : α) : Program Cmd Reply α → Prop
  | .ret b => b = a
  | .call _ next => ∃ r, (next r).Returns a

theorem Issues.bind {p : Program Cmd Reply α} {f : α → Program Cmd Reply β} {c : Cmd} (issues : p.Issues c) :
    (p.bind f).Issues c := by
  induction p with
  | ret a => exact issues.elim
  | call c' next ih => exact issues.imp id fun ⟨r, later⟩ => ⟨r, ih r later⟩

theorem Returns.issues {p : Program Cmd Reply α} {f : α → Program Cmd Reply β} {c : Cmd} {a : α}
    (returns : p.Returns a) (issues : (f a).Issues c) : (p.bind f).Issues c := by
  induction p with
  | ret b =>
    obtain rfl := returns
    exact issues
  | call c' next ih =>
    obtain ⟨r, later⟩ := returns
    exact .inr ⟨r, ih r later⟩

theorem Follows.issues {p : Program Cmd Reply α} {g : Ghost} {Q : α → Ghost → Prop} {c : Cmd}
    (follows : p.Follows D g Q) (issues : p.Issues c) : ∃ g', D.allows g' c := by
  induction p generalizing g with
  | ret a => exact issues.elim
  | call c' next ih =>
    rcases issues with rfl | ⟨r, later⟩
    · exact ⟨g, follows.1⟩
    · exact ih r (follows.2 r) later

/-- The points of a rule as points of a larger one. -/
theorem Follows.embed {Ghost' : Type} {E : Discipline Cmd Reply Ghost'} (e : Ghost → Ghost')
    (inside : ∀ g c, D.allows g c → E.allows (e g) c ∧ ∀ reply, E.after (e g) c reply = e (D.after g c reply))
    {p : Program Cmd Reply α} {g : Ghost} {Q : α → Ghost → Prop} (follows : p.Follows D g Q) :
    p.Follows E (e g) fun a g' => ∃ g₀, g' = e g₀ ∧ Q a g₀ := by
  induction p generalizing g with
  | ret a => exact ⟨g, rfl, follows⟩
  | call c next ih =>
    obtain ⟨allowed, after⟩ := inside g c follows.1
    refine ⟨allowed, fun reply => ?_⟩
    rw [after reply]
    exact ih reply (follows.2 reply)

theorem Follows.forEach (Inv : Ghost → Prop) {body : ι → Program Cmd Reply Unit} {xs : List ι}
    (round : ∀ x ∈ xs, ∀ g, Inv g → (body x).Follows D g fun _ => Inv) {g : Ghost} (start : Inv g) :
    (forEach body xs).Follows D g fun _ => Inv := by
  induction xs generalizing g with
  | nil => exact start
  | cons x xs ih =>
    exact (round x List.mem_cons_self g start).bind fun _ _ now =>
      ih (fun y mem => round y (List.mem_cons_of_mem _ mem)) now

/-- A rule on the commands that does not depend on the point. -/
def only (ok : Cmd → Prop) : Discipline Cmd Reply Unit := ⟨fun _ c => ok c, fun _ _ _ => ()⟩

/-- Every command of the program is one that is fine. -/
def Only (ok : Cmd → Prop) (p : Program Cmd Reply α) : Prop := p.Follows (only ok) () fun _ _ => True

section Only

variable {ok : Cmd → Prop}

theorem Only.ret (a : α) : (Program.ret a : Program Cmd Reply α).Only ok := trivial

theorem Only.call {c : Cmd} {next : Reply c → Program Cmd Reply α} (now : ok c) (rest : ∀ r, (next r).Only ok) :
    (Program.call c next).Only ok := ⟨now, rest⟩

theorem Only.bind {p : Program Cmd Reply α} {f : α → Program Cmd Reply β} (first : p.Only ok)
    (rest : ∀ a, (f a).Only ok) : (p.bind f).Only ok := Follows.bind first fun a _ _ => rest a

/-- A program that ends early where the first part finds nothing. -/
theorem Only.bind_option {p : Program Cmd Reply (Option α)} {f : Option α → Program Cmd Reply β} {b : β}
    (first : p.Only ok) (nothing : f none = .ret b) (rest : ∀ a, (f (some a)).Only ok) : (p.bind f).Only ok := by
  refine first.bind fun found => ?_
  cases found with
  | none =>
    rw [nothing]
    exact .ret b
  | some a => exact rest a

theorem Only.forEach {body : ι → Program Cmd Reply Unit} {xs : List ι} (round : ∀ x ∈ xs, (body x).Only ok) :
    (Program.forEach body xs).Only ok :=
  Follows.forEach (fun _ => True) (fun x mem _ _ => round x mem) trivial

/-- A program that follows a rule issues only commands that the rule allows somewhere. -/
theorem Follows.only {D : Discipline Cmd Reply Ghost} {p : Program Cmd Reply α} {g : Ghost} {Q : α → Ghost → Prop}
    (follows : p.Follows D g Q) (each : ∀ g c, D.allows g c → ok c) : p.Only ok := by
  induction p generalizing g with
  | ret a => exact .ret a
  | call c next ih => exact .call (each g c follows.1) fun r => ih r (follows.2 r)

/-- Commands that a rule allows at a point and that do not lead away from it. -/
theorem Follows.steady {D : Discipline Cmd Reply Ghost} {p : Program Cmd Reply α} {g : Ghost}
    (only : p.Only fun c => D.allows g c ∧ ∀ reply, D.after g c reply = g) : p.Follows D g fun _ g' => g' = g := by
  induction p with
  | ret a => rfl
  | call c next ih =>
    obtain ⟨allowed, same⟩ := only.1
    refine ⟨allowed, fun reply => ?_⟩
    rw [same reply]
    exact ih reply (only.2 reply)

end Only

end Program
