import Olric.Lib.Safe
import Olric.Lib.Total

/-- A program that can stop with a fault instead of a result. -/
abbrev Faulty (ε Cmd : Type) (Reply : Cmd → Type) : Type → Type := ExceptT ε (Program Cmd Reply)

namespace Faulty

open Program

variable {ε Cmd Cmd' : Type} {Reply : Cmd → Type} {Reply' : Cmd' → Type} {α β : Type}
  {allows : (c : Cmd) → Reply c → Prop} {allows' : (c : Cmd') → Reply' c → Prop}

/-- Issue a command. -/
def ask (c : Cmd) : Faulty ε Cmd Reply (Reply c) := ExceptT.mk (.call c fun reply => .ret (.ok reply))

/-- A fault in the body does not keep the deferred part from running. -/
def deferred (cleanup : Faulty ε Cmd Reply Unit) (body : Faulty ε Cmd Reply α) : Faulty ε Cmd Reply α :=
  ExceptT.mk (body.run.bind fun outcome => cleanup.run.bind fun
    | .ok _ => .ret outcome
    | .error e => .ret (.error e))

/-- There is a reply to every command, and as long as the replies are allowed, there is no fault and the result
satisfies `Q`. -/
def Returns (allows : (c : Cmd) → Reply c → Prop) (p : Faulty ε Cmd Reply α) (Q : α → Prop) : Prop :=
  p.run.Total (fun _ c reply _ => allows c reply) () fun outcome _ => ∃ a, outcome = .ok a ∧ Q a

section Rules

variable {p : Faulty ε Cmd Reply α} {f : α → Faulty ε Cmd Reply β} {Q Q' : α → Prop}

@[simp] theorem returns_pure {a : α} : Returns allows (pure a : Faulty ε Cmd Reply α) Q ↔ Q a := by
  constructor
  · rintro ⟨_, ⟨⟩, holds⟩
    exact holds
  · exact fun holds => ⟨a, rfl, holds⟩

@[simp] theorem returns_throw {e : ε} : ¬ Returns allows (throw e : Faulty ε Cmd Reply α) Q := by
  rintro ⟨_, ⟨⟩, _⟩

@[simp] theorem returns_ask {c : Cmd} {Q : Reply c → Prop} : Returns allows (ask c : Faulty ε Cmd Reply (Reply c)) Q ↔
    (∃ reply, allows c reply) ∧ ∀ reply, allows c reply → Q reply := by
  constructor
  · rintro ⟨⟨reply, _, now⟩, rest⟩
    refine ⟨⟨reply, now⟩, fun reply now => ?_⟩
    obtain ⟨_, ⟨⟩, holds⟩ := rest reply () now
    exact holds
  · rintro ⟨⟨reply, now⟩, rest⟩
    exact ⟨⟨reply, (), now⟩, fun reply _ now => ⟨reply, rfl, rest reply now⟩⟩

@[simp] theorem returns_bind {Q : β → Prop} :
    Returns allows (p >>= f) Q ↔ Returns allows p fun a => Returns allows (f a) Q := by
  refine total_bind.trans ⟨fun total => total.mono ?_, fun total => total.mono ?_⟩
  · rintro (e | a) _ rest
    · obtain ⟨_, ⟨⟩, _⟩ := rest
    · exact ⟨a, rfl, rest⟩
  · rintro _ _ ⟨a, rfl, rest⟩
    exact rest

@[simp] theorem returns_map {g : α → β} {Q : β → Prop} :
    Returns allows (g <$> p) Q ↔ Returns allows p fun a => Q (g a) := by
  refine total_bind.trans ⟨fun total => Total.mono total ?_, fun total => Total.mono total ?_⟩
  · rintro (e | a) _ ⟨_, ⟨⟩, holds⟩
    exact ⟨a, rfl, holds⟩
  · rintro _ _ ⟨a, rfl, holds⟩
    exact ⟨g a, rfl, holds⟩

theorem Returns.mono (returns : Returns allows p Q) (weaker : ∀ a, Q a → Q' a) : Returns allows p Q' :=
  Total.mono returns fun _ _ ⟨a, same, holds⟩ => ⟨a, same, weaker a holds⟩

/-- The deferred part has to return as well. -/
@[simp] theorem returns_deferred {cleanup : Faulty ε Cmd Reply Unit} :
    Returns allows (deferred cleanup p) Q ↔ Returns allows p fun a => Returns allows cleanup fun _ => Q a := by
  refine total_bind.trans ⟨fun total => Total.mono total fun outcome _ rest => ?_, fun total => Total.mono total ?_⟩
  · have ends := total_bind.1 rest
    cases outcome with
    | error e =>
      obtain ⟨cleaned, _, _, end'⟩ := ends.returns
      cases cleaned <;> obtain ⟨_, ⟨⟩, _⟩ := end'
    | ok a =>
      refine ⟨a, rfl, ends.mono ?_⟩
      rintro (e | ⟨⟩) _ end'
      · obtain ⟨_, ⟨⟩, _⟩ := end'
      · obtain ⟨_, ⟨⟩, holds⟩ := end'
        exact ⟨(), rfl, holds⟩
  · rintro _ _ ⟨a, rfl, cleaned⟩
    refine Total.bind cleaned ?_
    rintro _ _ ⟨_, rfl, holds⟩
    exact ⟨a, rfl, holds⟩

end Rules

/-- A program with every command carried out by another one. -/
def interpret (step : (c : Cmd) → Faulty ε Cmd' Reply' (Reply c)) : Program Cmd Reply α → Faulty ε Cmd' Reply' α
  | .ret a => pure a
  | .call c next => step c >>= fun reply => interpret step (next reply)

section Interpret

variable {step : (c : Cmd) → Faulty ε Cmd' Reply' (Reply c)} {p : Program Cmd Reply α} {Q : α → Prop}

/-- It returns if the commands that are issued are fine. -/
theorem Returns.interpret {ok : Cmd → Prop} (each : ∀ c, ok c → Returns allows' (step c) (allows c))
    (safe : p.Safe (fun _ c reply _ => allows c reply) (fun _ c => ok c) () fun a _ => Q a) :
    Returns allows' (interpret step p) Q := by
  induction p with
  | ret a => exact returns_pure.2 safe
  | call c next ih =>
    exact returns_bind.2 ((each c safe.1).mono fun reply now => ih reply (safe.2 reply () now))

/-- If it returns, then along every path. -/
theorem Returns.runs (each : ∀ c reply, allows c reply → ∀ Q : Reply c → Prop, Returns allows' (step c) Q → Q reply)
    (returns : Returns allows' (Faulty.interpret step p) Q) {a : α}
    (run : p.Runs (fun _ c reply _ => allows c reply) () a ()) : Q a := by
  induction p with
  | ret b =>
    obtain ⟨rfl, _⟩ := run
    exact returns_pure.1 returns
  | call c next ih =>
    obtain ⟨reply, _, now, rest⟩ := run
    exact ih reply (each c reply now _ (returns_bind.1 returns)) rest

end Interpret

end Faulty
