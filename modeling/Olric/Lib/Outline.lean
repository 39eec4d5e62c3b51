import Mathlib.Data.List.Forall2
import Olric.Lib.Network
import Olric.Lib.Threads

/-- Which point of a rule every thread is at. Threads that have not started are at none. -/
abbrev Points (Ghost : Type) := Nat → Option Ghost

namespace Points

variable {Ghost : Type} {points : Points Ghost} {tid other : Nat} {g g' : Ghost}

def set (points : Points Ghost) (tid : Nat) (g : Ghost) : Points Ghost := Function.update points tid (some g)

theorem set_eq_some :
    points.set tid g other = some g' ↔ other = tid ∧ g' = g ∨ other ≠ tid ∧ points other = some g' := by
  by_cases same : other = tid
  · subst same
    simp [set, eq_comm]
  · simp [set, same]

theorem set_self : points.set tid g tid = some g := set_eq_some.2 (.inl ⟨rfl, rfl⟩)

theorem set_of_ne (differs : other ≠ tid) : points.set tid g other = points other := Function.update_of_ne differs _ _

theorem set_kept_of_free (found : points other = some g') (free : points tid = none) :
    points.set tid g other = some g' := by
  refine set_eq_some.2 (.inr ⟨?_, found⟩)
  rintro rfl
  rw [free] at found
  cases found

/-- What the points of the threads say, as far as they say it. -/
def say {α : Type} (points : Points Ghost) (f : Ghost → Option α) : Nat → Option α := fun tid => (points tid).bind f

theorem say_set {α : Type} (f : Ghost → Option α) :
    (points.set tid g).say f = Function.update (points.say f) tid (f g) := by
  funext other
  by_cases same : other = tid
  · subst same
    simp [say, set]
  · simp [say, set, same]

/-- What the points of all threads say, those that have not started included. -/
def read {α : Type} (points : Points Ghost) (f : Ghost → α) (unstarted : α) : Nat → α :=
  fun tid => (points tid).elim unstarted f

theorem read_of_some {α : Type} {f : Ghost → α} {unstarted : α} (known : points tid = some g) :
    points.read f unstarted tid = f g := by
  simp [read, known]

theorem read_of_none {α : Type} {f : Ghost → α} {unstarted : α} (free : points tid = none) :
    points.read f unstarted tid = unstarted := by
  simp [read, free]

theorem read_set {α : Type} (f : Ghost → α) (unstarted : α) :
    (points.set tid g).read f unstarted = Function.update (points.read f unstarted) tid (f g) := by
  funext other
  by_cases same : other = tid
  · subst same
    simp [read, set]
  · simp [read, set, same]

/-- A thread that starts with nothing to say. -/
theorem read_set_of_free {α : Type} {f : Ghost → α} {unstarted : α} (free : points tid = none)
    (same : f g = unstarted) : (points.set tid g).read f unstarted = points.read f unstarted := by
  rw [read_set, same, Function.update_eq_self_iff]
  exact (read_of_none free).symm

end Points

namespace Pool

variable {Cmd : Type} {Reply : Cmd → Type} {α State Ghost : Type}

/-- Every thread follows the rule from the point on that it is at. -/
structure Outlined (D : Discipline Cmd Reply Ghost) (Q : α → Ghost → Prop) (pool : Pool Cmd Reply α State)
    (points : Points Ghost) : Prop where
  follows : ∀ {tid p}, pool.threads tid = some p → ∃ g, points tid = some g ∧ p.Follows D g Q
  free : ∀ {tid}, pool.threads tid = none → points tid = none

section

variable {D : Discipline Cmd Reply Ghost} {Q : α → Ghost → Prop} {pool : Pool Cmd Reply α State}
  {points : Points Ghost}

theorem Outlined.set {tid : Nat} {p : Program Cmd Reply α} {g : Ghost} (outlined : pool.Outlined D Q points)
    (follows : p.Follows D g Q) (shared : State) : (pool.setThread tid p shared).Outlined D Q (points.set tid g) where
  follows {other q} found := by
    rcases setThread_threads.1 found with ⟨rfl, rfl⟩ | ⟨differs, before⟩
    · exact ⟨g, Points.set_self, follows⟩
    · obtain ⟨g', known, rest⟩ := outlined.follows before
      exact ⟨g', Points.set_eq_some.2 (.inr ⟨differs, known⟩), rest⟩
  free {other} none := by
    by_cases same : other = tid
    · subst same
      simp [setThread] at none
    · rw [Points.set_of_ne same]
      exact outlined.free (by simpa [setThread, same] using none)

theorem Outlined.point {tid : Nat} {p : Program Cmd Reply α} {g : Ghost} (outlined : pool.Outlined D Q points)
    (running : pool.threads tid = some p) (known : points tid = some g) : p.Follows D g Q := by
  obtain ⟨g', known', follows⟩ := outlined.follows running
  cases known.symm.trans known'
  exact follows

end

/-- An invariant over the labels so far, the shared state and the points of all threads, and what
keeps it: every kind of step, given the point that the thread is at. -/
structure Outline (rules : Rules Cmd Reply α State) (allow : Pool Cmd Reply α State → Label Cmd Reply α → Prop)
    (D : Discipline Cmd Reply Ghost) (Q : α → Ghost → Prop)
    (Inv : List (Label Cmd Reply α) → State → Points Ghost → Prop) : Prop where
  initial : ∀ s, rules.initial s → Inv [] s fun _ => none
  spawn : ∀ {labels pool points tid p}, Inv labels pool.shared points → pool.Outlined D Q points → points tid = none →
    allow pool (.spawn tid p) → rules.starts p →
    ∃ g, p.Follows D g Q ∧ Inv (labels ++ [.spawn tid p]) pool.shared (points.set tid g)
  step : ∀ {labels pool points tid g c reply s}, Inv labels pool.shared points → pool.Outlined D Q points →
    points tid = some g → D.allows g c → allow pool (.step tid c reply) → rules.exec tid pool.shared c reply s →
    Inv (labels ++ [.step tid c reply]) s (points.set tid (D.after g c reply))
  fork : ∀ {labels pool points tid g c reply child p}, Inv labels pool.shared points → pool.Outlined D Q points →
    points tid = some g → D.allows g c → allow pool (.fork tid c child) → rules.forks c = some (reply, p) →
    points child = none → ∃ g', p.Follows D g' Q ∧
      Inv (labels ++ [.fork tid c child]) pool.shared ((points.set tid (D.after g c reply)).set child g')
  background : ∀ {labels pool points s}, Inv labels pool.shared points → pool.Outlined D Q points →
    allow pool .background → rules.background pool.shared s → Inv (labels ++ [.background]) s points

/-- The invariant holds after every run. -/
theorem Outline.run {rules : Rules Cmd Reply α State} {allow : Pool Cmd Reply α State → Label Cmd Reply α → Prop}
    {D : Discipline Cmd Reply Ghost} {Q : α → Ghost → Prop}
    {Inv : List (Label Cmd Reply α) → State → Points Ghost → Prop} (outline : Outline rules allow D Q Inv)
    {labels : List (Label Cmd Reply α)} {pool : Pool Cmd Reply α State} (run : (system rules).Run allow labels pool) :
    ∃ points, Inv labels pool.shared points ∧ pool.Outlined D Q points := by
  refine run.history_invariant (fun labels pool => ∃ points, Inv labels pool.shared points ∧
    pool.Outlined D Q points) ?_ ?_
  · rintro pool ⟨initial, none⟩
    refine ⟨_, outline.initial _ initial, fun {tid p} found => ?_, fun _ => rfl⟩
    rw [none tid] at found
    cases found
  · rintro labels pool label pool' ⟨points, inv, outlined⟩ allowed step
    cases step with
    | spawn free starts =>
      obtain ⟨g, follows, inv'⟩ := outline.spawn inv outlined (outlined.free free) allowed starts
      exact ⟨_, inv', outlined.set follows _⟩
    | step running exec =>
      obtain ⟨g, known, now, rest⟩ := outlined.follows running
      exact ⟨_, outline.step inv outlined known now allowed exec, outlined.set (rest _) _⟩
    | fork running forks free =>
      obtain ⟨g, known, now, rest⟩ := outlined.follows running
      obtain ⟨g', follows, inv'⟩ := outline.fork inv outlined known now allowed forks (outlined.free free)
      exact ⟨_, inv', (outlined.set (rest _) _).set follows _⟩
    | background change =>
      exact ⟨points, outline.background inv outlined allowed change, outlined.follows, outlined.free⟩

end Pool

/-- Where a thread comes from: it has been started on its host, or it serves a request of a thread. -/
inductive Origin (Host Req : Type)
  | own (host : Host)
  | served (host : Host) (caller : Nat) (req : Req)

namespace Origin

variable {Host Req : Type}

def host : Origin Host Req → Host
  | .own host => host
  | .served host _ _ => host

def caller : Origin Host Req → Option Nat
  | .own _ => none
  | .served _ caller _ => some caller

end Origin

namespace Network

variable {Cmd : Type} {Reply : Cmd → Type} {Host Req Resp Node Ghost : Type}

/-- One of the calls that a thread waits for. -/
def HasCall (net : Network Cmd Reply Host Req Resp Node) (tid i : Nat) (call : RemoteCall Host Req Resp) : Prop :=
  ∃ a calls, net.threads tid = some a ∧ a.calls = some calls ∧ calls[i]? = some call

def Finished (net : Network Cmd Reply Host Req Resp Node) (tid : Nat) (resp : Resp) : Prop :=
  ∃ a, net.threads tid = some a ∧ a.prog = .ret resp

/-- Every thread follows the rule for its origin from the point on that it is at. A thread that
waits has a call for each request of its command. -/
structure Followed (rules : Rules Cmd Reply Host Req Resp Node) (D : Origin Host Req → Discipline Cmd Reply Ghost)
    (Q : Origin Host Req → Resp → Ghost → Prop) (net : Network Cmd Reply Host Req Resp Node)
    (points : Points (Origin Host Req × Ghost)) : Prop where
  follows : ∀ {tid a}, net.threads tid = some a → ∃ origin g, points tid = some (origin, g) ∧ origin.host = a.host ∧
    origin.caller = a.caller ∧ a.prog.Follows (D origin) g (Q origin)
  free : ∀ {tid}, net.threads tid = none → points tid = none
  waits : ∀ {tid a}, net.threads tid = some a → ∀ calls, a.calls = some calls → ∃ c next, a.prog = .call c next ∧
    rules.outgoing c = some (calls.map fun call => (call.dst, call.req))

/-- A thread that serves a request has finished, or its caller waits for it; where there is an answer,
the thread that gave it has finished. -/
structure Outlined (rules : Rules Cmd Reply Host Req Resp Node) (D : Origin Host Req → Discipline Cmd Reply Ghost)
    (Q : Origin Host Req → Resp → Ghost → Prop) (net : Network Cmd Reply Host Req Resp Node)
    (points : Points (Origin Host Req × Ghost)) : Prop extends Followed rules D Q net points where
  served : ∀ {h dst tid req g}, points h = some (.served dst tid req, g) →
    (∃ resp, net.Finished h resp) ∨ ∃ i, net.HasCall tid i ⟨dst, req, .serving h⟩
  serving : ∀ {tid i dst req h}, net.HasCall tid i ⟨dst, req, .serving h⟩ → ∃ g,
      points h = some (.served dst tid req, g)
  answered : ∀ {tid i dst req resp}, net.HasCall tid i ⟨dst, req, .answered resp⟩ →
    ∃ h g, points h = some (.served dst tid req, g) ∧ net.Finished h resp

variable {rules : Rules Cmd Reply Host Req Resp Node} {D : Origin Host Req → Discipline Cmd Reply Ghost}
  {Q : Origin Host Req → Resp → Ghost → Prop} {net : Network Cmd Reply Host Req Resp Node}
  {points : Points (Origin Host Req × Ghost)}

theorem hasCall_setThread {tid other i : Nat} {a : Activity Cmd Reply Host Req Resp}
    {call : RemoteCall Host Req Resp} :
    (net.setThread tid a).HasCall other i call ↔ other = tid ∧
      (∃ calls, a.calls = some calls ∧ calls[i]? = some call) ∨
      other ≠ tid ∧ net.HasCall other i call := by
  constructor
  · rintro ⟨b, calls, found, waits, at'⟩
    rcases setThread_threads.1 found with ⟨same, rfl⟩ | ⟨differs, before⟩
    · exact .inl ⟨same, calls, waits, at'⟩
    · exact .inr ⟨differs, b, calls, before, waits, at'⟩
  · rintro (⟨rfl, calls, waits, at'⟩ | ⟨differs, b, calls, before, waits, at'⟩)
    · exact ⟨a, calls, setThread_threads.2 (.inl ⟨rfl, rfl⟩), waits, at'⟩
    · exact ⟨b, calls, setThread_threads.2 (.inr ⟨differs, before⟩), waits, at'⟩

theorem finished_setThread {tid other : Nat} {a : Activity Cmd Reply Host Req Resp} {resp : Resp} :
    (net.setThread tid a).Finished other resp ↔ other = tid ∧ a.prog = .ret resp ∨
      other ≠ tid ∧ net.Finished other resp := by
  constructor
  · rintro ⟨b, found, done⟩
    rcases setThread_threads.1 found with ⟨same, rfl⟩ | ⟨differs, before⟩
    · exact .inl ⟨same, done⟩
    · exact .inr ⟨differs, b, before, done⟩
  · rintro (⟨rfl, done⟩ | ⟨differs, b, before, done⟩)
    · exact ⟨a, setThread_threads.2 (.inl ⟨rfl, rfl⟩), done⟩
    · exact ⟨b, setThread_threads.2 (.inr ⟨differs, before⟩), done⟩

/-- One thread changes, or starts. -/
theorem Followed.set {tid : Nat} {a : Activity Cmd Reply Host Req Resp} {origin : Origin Host Req} {g : Ghost}
    (followed : Followed rules D Q net points) (host : origin.host = a.host) (caller : origin.caller = a.caller)
    (follows : a.prog.Follows (D origin) g (Q origin)) (waits : ∀ calls, a.calls = some calls → ∃ c next,
      a.prog = .call c next ∧ rules.outgoing c = some (calls.map fun call => (call.dst, call.req))) :
    Followed rules D Q (net.setThread tid a) (points.set tid (origin, g)) where
  follows {other b} found := by
    rcases setThread_threads.1 found with ⟨rfl, rfl⟩ | ⟨differs, before⟩
    · exact ⟨origin, g, Points.set_self, host, caller, follows⟩
    · obtain ⟨origin', g', known, rest⟩ := followed.follows before
      exact ⟨origin', g', Points.set_eq_some.2 (.inr ⟨differs, known⟩), rest⟩
  free {other} none := by
    obtain ⟨differs, none⟩ := setThread_threads_none.1 none
    rw [Points.set_of_ne differs]
    exact followed.free none
  waits {other b} found := by
    rcases setThread_threads.1 found with ⟨rfl, rfl⟩ | ⟨_, before⟩
    · exact waits
    · exact followed.waits before

/-- The calls alone change that a thread waits for. -/
theorem Followed.setCalls {tid : Nat} {host : Host} {p : Program Cmd Reply Resp} {caller : Option Nat}
    {calls calls' : Option (List (RemoteCall Host Req Resp))} (followed : Followed rules D Q net points)
    (running : net.threads tid = some ⟨host, p, calls, caller⟩) (waits : ∀ calls, calls' = some calls → ∃ c next,
      p = .call c next ∧ rules.outgoing c = some (calls.map fun call => (call.dst, call.req))) :
    Followed rules D Q (net.setThread tid ⟨host, p, calls', caller⟩) points := by
  obtain ⟨origin, g, known, here, called, follows⟩ := followed.follows running
  have same : points.set tid (origin, g) = points := Function.update_eq_self_iff.2 known.symm
  rw [← same]
  exact followed.set here called follows waits

theorem Outlined.thread {tid : Nat} {origin : Origin Host Req} {g : Ghost} (outlined : Outlined rules D Q net points)
    (known : points tid = some (origin, g)) : ∃ a, net.threads tid = some a ∧ origin.host = a.host ∧
      origin.caller = a.caller ∧ a.prog.Follows (D origin) g (Q origin) := by
  cases running : net.threads tid with
  | none => cases known.symm.trans (outlined.free running)
  | some a =>
    obtain ⟨origin', g', known', host, caller, follows⟩ := outlined.follows running
    cases known.symm.trans known'
    exact ⟨a, rfl, host, caller, follows⟩

theorem Outlined.finished {tid : Nat} {origin : Origin Host Req} {g : Ghost} {resp : Resp}
    (outlined : Outlined rules D Q net points) (known : points tid = some (origin, g))
    (done : net.Finished tid resp) : Q origin resp g := by
  obtain ⟨a, running, ended⟩ := done
  obtain ⟨a', running', _, _, follows⟩ := outlined.thread known
  cases running.symm.trans running'
  rwa [ended] at follows

/-- A thread that has not finished serving a request has a caller that waits for it. -/
theorem Outlined.caller_waits {h tid : Nat} {dst : Host} {req : Req} {g : Ghost}
    (outlined : Outlined rules D Q net points) (known : points h = some (.served dst tid req, g))
    (unfinished : ∀ resp, ¬ Q (.served dst tid req) resp g) :
    ∃ i, net.HasCall tid i ⟨dst, req, .serving h⟩ := by
  rcases outlined.served known with ⟨resp, done⟩ | waits
  · exact absurd (outlined.finished known done) (unfinished resp)
  · exact waits

section

variable (outlined : Outlined rules D Q net points) {tid : Nat} {origin : Origin Host Req} {g : Ghost}
include outlined

/-- A thread starts on its own. -/
theorem Outlined.start {host : Host} {p : Program Cmd Reply Resp} (free : net.threads tid = none)
    (follows : p.Follows (D (.own host)) g (Q (.own host))) :
    Outlined rules D Q (net.setThread tid ⟨host, p, none, none⟩) (points.set tid (.own host, g)) where
  toFollowed := outlined.set rfl rfl follows nofun
  served {h dst caller req g'} known := by
    rcases Points.set_eq_some.1 known with ⟨_, same⟩ | ⟨differs, known⟩
    · cases same
    · rcases outlined.served known with ⟨resp, done⟩ | ⟨i, a, calls, found, waits⟩
      · exact .inl ⟨resp, finished_setThread.2 (.inr ⟨differs, done⟩)⟩
      · refine .inr ⟨i, hasCall_setThread.2 (.inr ⟨?_, a, calls, found, waits⟩)⟩
        rintro rfl
        rw [free] at found
        cases found
  serving {caller i dst req h} call := by
    rcases hasCall_setThread.1 call with ⟨_, _, none, _⟩ | ⟨_, call⟩
    · cases none
    · obtain ⟨g', known⟩ := outlined.serving call
      exact ⟨g', Points.set_kept_of_free known (outlined.free free)⟩
  answered {caller i dst req resp} call := by
    rcases hasCall_setThread.1 call with ⟨_, _, none, _⟩ | ⟨_, call⟩
    · cases none
    · obtain ⟨h, g', known, a, found, ended⟩ := outlined.answered call
      exact ⟨h, g', Points.set_kept_of_free known (outlined.free free), a, setThread_kept_of_free found free, ended⟩

/-- A thread that waits for no answer goes on. -/
theorem Outlined.moves {a : Activity Cmd Reply Host Req Resp} {c : Cmd} {next : Reply c → Program Cmd Reply Resp}
    {p : Program Cmd Reply Resp} {g' : Ghost} (known : points tid = some (origin, g))
    (running : net.threads tid = some a) (calling : a.prog = .call c next)
    (idle : ∀ i dst req h, ¬ net.HasCall tid i ⟨dst, req, .serving h⟩)
    (follows : p.Follows (D origin) g' (Q origin)) :
    Outlined rules D Q (net.setThread tid ⟨a.host, p, none, a.caller⟩) (points.set tid (origin, g')) := by
  have unfinished {resp : Resp} (done : net.Finished tid resp) : False := by
    obtain ⟨b, running', ended⟩ := done
    cases running.symm.trans running'
    rw [calling] at ended
    cases ended
  have onward {T i dst req h} (call : net.HasCall T i ⟨dst, req, .serving h⟩) :
      (net.setThread tid ⟨a.host, p, none, a.caller⟩).HasCall T i ⟨dst, req, .serving h⟩ := by
    refine hasCall_setThread.2 (.inr ⟨?_, call⟩)
    rintro rfl
    exact idle i dst req h call
  obtain ⟨origin', g₀, known', host, caller, _⟩ := outlined.follows running
  cases known.symm.trans known'
  refine ⟨outlined.set host caller follows nofun, fun {h dst T req g₁} known₁ => ?_, fun {T i dst req h} call => ?_,
    fun {T i dst req resp} call => ?_⟩
  · rcases Points.set_eq_some.1 known₁ with ⟨rfl, same⟩ | ⟨differs, known₁⟩
    · cases same
      rcases outlined.served known with ⟨resp, done⟩ | ⟨i, call⟩
      · exact (unfinished done).elim
      · exact .inr ⟨i, onward call⟩
    · rcases outlined.served known₁ with ⟨resp, done⟩ | ⟨i, call⟩
      · exact .inl ⟨resp, finished_setThread.2 (.inr ⟨differs, done⟩)⟩
      · exact .inr ⟨i, onward call⟩
  · rcases hasCall_setThread.1 call with ⟨_, _, none, _⟩ | ⟨_, call⟩
    · cases none
    · obtain ⟨g₁, known₁⟩ := outlined.serving call
      by_cases same : h = tid
      · subst same
        cases known.symm.trans known₁
        exact ⟨g', Points.set_self⟩
      · exact ⟨g₁, Points.set_eq_some.2 (.inr ⟨same, known₁⟩)⟩
  · rcases hasCall_setThread.1 call with ⟨_, _, none, _⟩ | ⟨_, call⟩
    · cases none
    · obtain ⟨h, g₁, known₁, done⟩ := outlined.answered call
      have differs : h ≠ tid := by
        rintro rfl
        exact unfinished done
      exact ⟨h, g₁, Points.set_eq_some.2 (.inr ⟨differs, known₁⟩), finished_setThread.2 (.inr ⟨differs, done⟩)⟩

theorem Outlined.send {host : Host} {c : Cmd} {next : Reply c → Program Cmd Reply Resp} {caller : Option Nat}
    {requests : List (Host × Req)} (running : net.threads tid = some ⟨host, .call c next, none, caller⟩)
    (away : rules.outgoing c = some requests) : Outlined rules D Q (net.setThread tid
      ⟨host, .call c next, some (requests.map fun out => ⟨out.1, out.2, .sent⟩), caller⟩) points := by
  have silent {i call} (idle : net.HasCall tid i call) : False := by
    obtain ⟨a, calls, found, waits, _⟩ := idle
    cases running.symm.trans found
    cases waits
  have sent {i : Nat} {call : RemoteCall Host Req Resp}
      (at' : (requests.map fun out => (⟨out.1, out.2, .sent⟩ : RemoteCall Host Req Resp))[i]? = some call) :
      call.state = .sent := by
    obtain ⟨out, _, rfl⟩ := List.mem_map.1 (List.mem_of_getElem? at')
    rfl
  have kept {T i call} (there : net.HasCall T i call) : (net.setThread tid
      ⟨host, .call c next, some (requests.map fun out => ⟨out.1, out.2, .sent⟩), caller⟩).HasCall T i call := by
    refine hasCall_setThread.2 (.inr ⟨?_, there⟩)
    rintro rfl
    exact silent there
  have ended {h resp} (done : net.Finished h resp) : (net.setThread tid
      ⟨host, .call c next, some (requests.map fun out => ⟨out.1, out.2, .sent⟩), caller⟩).Finished h resp := by
    refine finished_setThread.2 (.inr ⟨?_, done⟩)
    rintro rfl
    obtain ⟨a, found, ended⟩ := done
    cases running.symm.trans found
    cases ended
  refine ⟨outlined.setCalls running ?_, fun {h dst T req g₁} known => ?_, fun {T i dst req h} call => ?_,
    fun {T i dst req resp} call => ?_⟩
  · rintro calls ⟨⟩
    exact ⟨c, next, rfl, by simpa [List.map_map, Function.comp_def] using away⟩
  · rcases outlined.served known with ⟨resp, done⟩ | ⟨i, call⟩
    · exact .inl ⟨resp, ended done⟩
    · exact .inr ⟨i, kept call⟩
  · rcases hasCall_setThread.1 call with ⟨_, _, waits, at'⟩ | ⟨_, call⟩
    · cases waits
      cases sent at'
    · exact outlined.serving call
  · rcases hasCall_setThread.1 call with ⟨_, _, waits, at'⟩ | ⟨_, call⟩
    · cases waits
      cases sent at'
    · obtain ⟨h, g₁, known, done⟩ := outlined.answered call
      exact ⟨h, g₁, known, ended done⟩

end

section

variable {tid : Nat} {g : Ghost} {host dst : Host} {p : Program Cmd Reply Resp}
  {calls : List (RemoteCall Host Req Resp)}
  {caller : Option Nat} {i handler : Nat} {req : Req} {before after : CallState Resp}

theorem HasCall.unique {call call' : RemoteCall Host Req Resp} (first : net.HasCall tid i call)
    (second : net.HasCall tid i call') : call' = call := by
  obtain ⟨a, calls, found, waits, at'⟩ := first
  obtain ⟨b, calls', found', waits', at''⟩ := second
  cases found.symm.trans found'
  cases waits.symm.trans waits'
  cases at'.symm.trans at''
  rfl

/-- One of the calls that a thread waits for gets on. -/
theorem hasCall_set (waiting : net.threads tid = some ⟨host, p, some calls, caller⟩)
    (call : calls[i]? = some ⟨dst, req, before⟩) {T j : Nat} {call' : RemoteCall Host Req Resp} :
    (net.setThread tid ⟨host, p, some (calls.set i ⟨dst, req, after⟩), caller⟩).HasCall T j call' ↔
      (T = tid ∧ j = i) ∧ call' = ⟨dst, req, after⟩ ∨ ¬ (T = tid ∧ j = i) ∧ net.HasCall T j call' := by
  have inside : i < calls.length := (List.getElem?_eq_some_iff.1 call).1
  rw [hasCall_setThread]
  by_cases same : T = tid
  · subst same
    have here : net.HasCall T j call' ↔ calls[j]? = some call' :=
      ⟨by rintro ⟨a, calls', found, waits, at'⟩; cases waiting.symm.trans found; cases waits; exact at',
        fun at' => ⟨_, calls, waiting, rfl, at'⟩⟩
    by_cases this : j = i
    · subst this
      simp [List.getElem?_set_self inside, eq_comm]
    · simp [List.getElem?_set_ne (Ne.symm this), this, here]
  · simp [same]

theorem finished_set (waiting : net.threads tid = some ⟨host, p, some calls, caller⟩)
    {calls' : List (RemoteCall Host Req Resp)} {h : Nat} {resp : Resp} :
    (net.setThread tid ⟨host, p, some calls', caller⟩).Finished h resp ↔ net.Finished h resp := by
  rw [finished_setThread]
  by_cases same : h = tid
  · subst same
    simp [Finished, waiting]
  · simp [same]

theorem map_requests_set (call : calls[i]? = some ⟨dst, req, before⟩) :
    ((calls.set i ⟨dst, req, after⟩).map fun call => (call.dst, call.req)) = calls.map fun call =>
      (call.dst, call.req) := by
  have listed : (calls.map fun call => (call.dst, call.req))[i]? = some (dst, req) := by simp [call]
  obtain ⟨inside, here⟩ := List.getElem?_eq_some_iff.1 listed
  rw [List.map_set]
  dsimp only
  rw [← here, List.set_getElem_self]

variable (outlined : Outlined rules D Q net points)
include outlined

theorem Outlined.setCall (waiting : net.threads tid = some ⟨host, p, some calls, caller⟩)
    (call : calls[i]? = some ⟨dst, req, before⟩) :
    Followed rules D Q (net.setThread tid ⟨host, p, some (calls.set i ⟨dst, req, after⟩), caller⟩) points := by
  refine outlined.setCalls waiting ?_
  rintro calls' ⟨⟩
  obtain ⟨c, next, calling, away⟩ := outlined.waits waiting _ rfl
  exact ⟨c, next, calling, by rw [map_requests_set call, away]⟩

/-- A thread starts to serve a request. -/
theorem Outlined.deliver (waiting : net.threads tid = some ⟨host, p, some calls, caller⟩)
    (call : calls[i]? = some ⟨dst, req, .sent⟩) (free : net.threads handler = none)
    (follows : (rules.handle dst req).Follows (D (.served dst tid req)) g (Q (.served dst tid req))) :
    Outlined rules D Q
      ((net.setThread tid ⟨host, p, some (calls.set i ⟨dst, req, .serving handler⟩), caller⟩).setThread handler
        ⟨dst, rules.handle dst req, none, some tid⟩) (points.set handler (.served dst tid req, g)) := by
  have new {T : Nat} {a : Activity Cmd Reply Host Req Resp} (found : net.threads T = some a) : T ≠ handler := by
    rintro rfl
    rw [free] at found
    cases found
  have was : net.HasCall tid i ⟨dst, req, .sent⟩ := ⟨_, calls, waiting, rfl, call⟩
  have kept {T j call'} (there : net.HasCall T j call') (moved : call'.state ≠ .sent) : ((net.setThread tid
      ⟨host, p, some (calls.set i ⟨dst, req, .serving handler⟩), caller⟩).setThread handler
        ⟨dst, rules.handle dst req, none, some tid⟩).HasCall T j call' := by
    have differs : ¬ (T = tid ∧ j = i) := by
      rintro ⟨rfl, rfl⟩
      rw [was.unique there] at moved
      exact moved rfl
    obtain ⟨a, _, found, _⟩ := id there
    exact hasCall_setThread.2 (.inr ⟨new found, (hasCall_set waiting call).2 (.inr ⟨differs, there⟩)⟩)
  have ended {h resp} (done : net.Finished h resp) : ((net.setThread tid
      ⟨host, p, some (calls.set i ⟨dst, req, .serving handler⟩), caller⟩).setThread handler
        ⟨dst, rules.handle dst req, none, some tid⟩).Finished h resp := by
    obtain ⟨a, found, _⟩ := id done
    exact finished_setThread.2 (.inr ⟨new found, (finished_set waiting).2 done⟩)
  refine ⟨(outlined.setCall waiting call).set rfl rfl follows nofun, fun {h dst' T req' g₁} known => ?_,
    fun {T j dst' req' h} there => ?_, fun {T j dst' req' resp} there => ?_⟩
  · rcases Points.set_eq_some.1 known with ⟨rfl, same⟩ | ⟨_, known⟩
    · cases same
      exact .inr ⟨i, hasCall_setThread.2 (.inr ⟨new waiting, (hasCall_set waiting call).2 (.inl ⟨⟨rfl, rfl⟩, rfl⟩)⟩)⟩
    · rcases outlined.served known with ⟨resp, done⟩ | ⟨j, there⟩
      · exact .inl ⟨resp, ended done⟩
      · exact .inr ⟨j, kept there (by rintro ⟨⟩)⟩
  · rcases hasCall_setThread.1 there with ⟨_, _, none, _⟩ | ⟨_, there⟩
    · cases none
    · rcases (hasCall_set waiting call).1 there with ⟨⟨rfl, rfl⟩, same⟩ | ⟨_, there⟩
      · cases same
        exact ⟨g, Points.set_self⟩
      · obtain ⟨g₁, known⟩ := outlined.serving there
        exact ⟨g₁, Points.set_kept_of_free known (outlined.free free)⟩
  · rcases hasCall_setThread.1 there with ⟨_, _, none, _⟩ | ⟨_, there⟩
    · cases none
    · rcases (hasCall_set waiting call).1 there with ⟨_, same⟩ | ⟨_, there⟩
      · cases same
      · obtain ⟨h, g₁, known, done⟩ := outlined.answered there
        exact ⟨h, g₁, Points.set_kept_of_free known (outlined.free free), ended done⟩

/-- A thread that serves a request has finished. -/
theorem Outlined.answer {resp : Resp} (waiting : net.threads tid = some ⟨host, p, some calls, caller⟩)
    (call : calls[i]? = some ⟨dst, req, .serving handler⟩) (done : net.Finished handler resp) :
    Outlined rules D Q (net.setThread tid ⟨host, p, some (calls.set i ⟨dst, req, .answered resp⟩), caller⟩)
      points := by
  have was : net.HasCall tid i ⟨dst, req, .serving handler⟩ := ⟨_, calls, waiting, rfl, call⟩
  refine ⟨outlined.setCall waiting call, fun {h dst' T req' g₁} known => ?_, fun {T j dst' req' h} there => ?_,
    fun {T j dst' req' resp'} there => ?_⟩
  · rcases outlined.served known with ⟨resp', done'⟩ | ⟨j, there⟩
    · exact .inl ⟨resp', (finished_set waiting).2 done'⟩
    · by_cases this : T = tid ∧ j = i
      · obtain ⟨rfl, rfl⟩ := this
        cases was.unique there
        exact .inl ⟨resp, (finished_set waiting).2 done⟩
      · exact .inr ⟨j, (hasCall_set waiting call).2 (.inr ⟨this, there⟩)⟩
  · rcases (hasCall_set waiting call).1 there with ⟨_, same⟩ | ⟨_, there⟩
    · cases same
    · exact outlined.serving there
  · rcases (hasCall_set waiting call).1 there with ⟨⟨rfl, rfl⟩, same⟩ | ⟨_, there⟩
    · cases same
      obtain ⟨g₁, known⟩ := outlined.serving was
      exact ⟨handler, g₁, known, (finished_set waiting).2 done⟩
    · obtain ⟨h, g₁, known, done'⟩ := outlined.answered there
      exact ⟨h, g₁, known, (finished_set waiting).2 done'⟩

end

/-- The labels of the steps that change neither a host nor what a thread has done. -/
inductive Label.Silent : Label Cmd Reply Host Resp → Prop
  | send (tid : Nat) : Silent (.send tid)
  | answer (tid i handler : Nat) : Silent (.answer tid i handler)

/-- An invariant over the labels so far, the hosts and the points of all threads, and what keeps it:
every kind of step, given the point that the thread is at. When a thread gets its answers, the
threads that gave them have finished, and so have all others that serve it. -/
structure Outline [DecidableEq Host] (rules : Rules Cmd Reply Host Req Resp Node)
    (allow : Network Cmd Reply Host Req Resp Node → Label Cmd Reply Host Resp → Prop)
    (D : Origin Host Req → Discipline Cmd Reply Ghost) (Q : Origin Host Req → Resp → Ghost → Prop)
    (Inv : List (Label Cmd Reply Host Resp) → (Host → Node) → Points (Origin Host Req × Ghost) → Prop) : Prop where
  initial : ∀ nodes, rules.initial nodes → Inv [] nodes fun _ => none
  spawn : ∀ {labels net points tid host p}, Inv labels net.nodes points → Outlined rules D Q net points →
    points tid = none → allow net (.spawn tid host p) → rules.starts host p →
    ∃ g, p.Follows (D (.own host)) g (Q (.own host)) ∧
      Inv (labels ++ [.spawn tid host p]) net.nodes (points.set tid (.own host, g))
  perform : ∀ {labels net points tid origin g c reply node}, Inv labels net.nodes points →
    Outlined rules D Q net points → points tid = some (origin, g) → (D origin).allows g c → rules.outgoing c = none →
    allow net (.perform tid c reply) → rules.exec origin.host tid (net.nodes origin.host) c reply node →
    Inv (labels ++ [.perform tid c reply]) (Function.update net.nodes origin.host node)
      (points.set tid (origin, (D origin).after g c reply))
  fork : ∀ {labels net points tid origin g c reply child p}, Inv labels net.nodes points →
      Outlined rules D Q net points →
    points tid = some (origin, g) → (D origin).allows g c → allow net (.fork tid c child) →
    rules.forks origin.host c = some (reply, p) → points child = none →
    ∃ g', p.Follows (D (.own origin.host)) g' (Q (.own origin.host)) ∧ Inv (labels ++ [.fork tid c child]) net.nodes
      ((points.set tid (origin, (D origin).after g c reply)).set child (.own origin.host, g'))
  silent : ∀ {labels nodes points label}, Inv labels nodes points → Label.Silent label →
    Inv (labels ++ [label]) nodes points
  deliver : ∀ {labels net points tid origin g c requests i dst req handler}, Inv labels net.nodes points →
    Outlined rules D Q net points → points tid = some (origin, g) → (D origin).allows g c →
    rules.outgoing c = some requests → (dst, req) ∈ requests → allow net (.deliver tid i handler) →
        points handler = none →
    ∃ g', (rules.handle dst req).Follows (D (.served dst tid req)) g' (Q (.served dst tid req)) ∧
      Inv (labels ++ [.deliver tid i handler]) net.nodes (points.set handler (.served dst tid req, g'))
  receive : ∀ {labels net points tid origin g c requests resps reply}, Inv labels net.nodes points →
    Outlined rules D Q net points → points tid = some (origin, g) → (D origin).allows g c →
    rules.outgoing c = some requests → rules.collect c resps = some reply → allow net (.receive tid) →
    List.Forall₂ (fun (out : Host × Req) resp => ∃ h g', points h = some (.served out.1 tid out.2, g') ∧
      Q (.served out.1 tid out.2) resp g') requests resps →
    (∀ h dst req g', points h = some (.served dst tid req, g') → ∃ resp, Q (.served dst tid req) resp g') →
    Inv (labels ++ [.receive tid]) net.nodes (points.set tid (origin, (D origin).after g c reply))

section

variable (outlined : Outlined rules D Q net points)
include outlined

theorem Outlined.setNode [DecidableEq Host] (host : Host) (node : Node) :
    Outlined rules D Q (net.setNode host node) points :=
  ⟨⟨outlined.follows, outlined.free, outlined.waits⟩, outlined.served, outlined.serving, outlined.answered⟩

/-- All calls of the thread have been answered. -/
theorem Outlined.answers {tid : Nat} {a : Activity Cmd Reply Host Req Resp} {calls : List (RemoteCall Host Req Resp)}
    {resps : List Resp} (waiting : net.threads tid = some a) (waits : a.calls = some calls)
    (answered : calls.map (·.state) = resps.map .answered) :
    List.Forall₂ (fun (out : Host × Req) resp => ∃ h g', points h = some (.served out.1 tid out.2, g') ∧
      Q (.served out.1 tid out.2) resp g') (calls.map fun call => (call.dst, call.req)) resps ∧
    ∀ i dst req h, ¬ net.HasCall tid i ⟨dst, req, .serving h⟩ := by
  have each (i : Nat) (call : RemoteCall Host Req Resp) (at' : calls[i]? = some call) :
      ∃ resp, resps[i]? = some resp ∧ call.state = .answered resp := by
    have same := congrArg (fun states => states[i]?) answered
    simp only [List.getElem?_map, at', Option.map_some] at same
    obtain ⟨resp, there, eq⟩ := Option.map_eq_some_iff.1 same.symm
    exact ⟨resp, there, eq.symm⟩
  have lengths : calls.length = resps.length := by simpa using congrArg List.length answered
  constructor
  · refine List.forall₂_iff_get.2 ⟨by simpa using lengths, fun i inside inside' => ?_⟩
    have here : i < calls.length := by simpa using inside
    obtain ⟨resp, there, state⟩ := each i calls[i] (List.getElem?_eq_getElem here)
    have resp_eq : resps.get ⟨i, inside'⟩ = resp := (List.getElem?_eq_some_iff.1 there).2
    have call : net.HasCall tid i ⟨calls[i].dst, calls[i].req, .answered resp⟩ :=
      ⟨a, calls, waiting, waits, by rw [List.getElem?_eq_getElem here, ← state]⟩
    obtain ⟨h, g, known, done⟩ := outlined.answered call
    have out_eq : (calls.map fun call => (call.dst, call.req)).get ⟨i, inside⟩ =
      (calls[i].dst, calls[i].req) := by simp
    rw [resp_eq, out_eq]
    exact ⟨h, g, known, outlined.finished known done⟩
  · rintro i dst req h ⟨b, calls', found, waits', at'⟩
    cases waiting.symm.trans found
    cases waits.symm.trans waits'
    obtain ⟨resp, _, state⟩ := each i _ at'
    cases state

end

/-- The invariant holds after every run. -/
theorem Outline.run [DecidableEq Host]
    {allow : Network Cmd Reply Host Req Resp Node → Label Cmd Reply Host Resp → Prop}
    {Inv : List (Label Cmd Reply Host Resp) → (Host → Node) → Points (Origin Host Req × Ghost) → Prop}
    (outline : Outline rules allow D Q Inv) {labels : List (Label Cmd Reply Host Resp)}
    (run : (system rules).Run allow labels net) :
    ∃ points, Inv labels net.nodes points ∧ Outlined rules D Q net points := by
  refine run.history_invariant
    (fun labels net => ∃ points, Inv labels net.nodes points ∧ Outlined rules D Q net points) ?_ ?_
  · rintro net ⟨initial, none⟩
    have noCall {tid i call} : ¬ net.HasCall tid i call := by
      rintro ⟨a, _, found, _⟩
      rw [none tid] at found
      cases found
    refine ⟨_, outline.initial _ initial, ⟨fun {tid a} found => ?_, fun _ => rfl, fun {tid a} found => ?_⟩, nofun,
      fun call => absurd call noCall, fun call => absurd call noCall⟩
    · rw [none tid] at found
      cases found
    · rw [none tid] at found
      cases found
  · rintro labels net label net' ⟨points, inv, outlined⟩ allowed step
    cases step with
    | spawn free starts =>
      obtain ⟨g, follows, inv'⟩ := outline.spawn inv outlined (outlined.free free) allowed starts
      exact ⟨_, inv', outlined.start free follows⟩
    | @perform tid host c next caller reply node running here exec =>
      obtain ⟨origin, g, known, rfl, _, now, rest⟩ := outlined.follows running
      have inv' := outline.perform inv outlined known now here allowed exec
      refine ⟨_, inv', Outlined.setNode ?_ _ _⟩
      refine outlined.moves known running rfl ?_ (rest reply)
      rintro i dst req h ⟨b, calls, found, waits, _⟩
      cases running.symm.trans found
      cases waits
    | @fork tid host c next caller reply child p running forks free =>
      obtain ⟨origin, g, known, rfl, _, now, rest⟩ := outlined.follows running
      obtain ⟨g', follows, inv'⟩ := outline.fork inv outlined known now allowed forks (outlined.free free)
      have moved := outlined.moves known running rfl (by
        rintro i dst req h ⟨b, calls, found, waits, _⟩
        cases running.symm.trans found
        cases waits) (rest reply)
      refine ⟨_, inv', moved.start ?_ follows⟩
      have differs : child ≠ tid := by
        rintro rfl
        rw [free] at running
        cases running
      simpa [setThread, differs] using free
    | send running away => exact ⟨points, outline.silent inv (.send _), outlined.send running away⟩
    | @deliver tid host p calls caller i dst req handler waiting call free =>
      obtain ⟨origin, g, known, _, _, follows⟩ := outlined.follows waiting
      obtain ⟨c, next, calling, away⟩ := outlined.waits waiting calls rfl
      dsimp only at calling
      subst calling
      have listed : (dst, req) ∈ calls.map fun call => (call.dst, call.req) :=
        List.mem_map.2 ⟨_, List.mem_of_getElem? call, rfl⟩
      obtain ⟨g', follows', inv'⟩ :=
        outline.deliver inv outlined known follows.1 away listed allowed (outlined.free free)
      exact ⟨_, inv', outlined.deliver waiting call free follows'⟩
    | answer waiting call done =>
      exact ⟨points, outline.silent inv (.answer _ _ _), outlined.answer waiting call ⟨_, done, rfl⟩⟩
    | @receive tid host c next calls caller resps reply waiting answered collected =>
      obtain ⟨origin, g, known, rfl, _, now, rest⟩ := outlined.follows waiting
      obtain ⟨c', next', calling, away⟩ := outlined.waits waiting calls rfl
      cases calling
      obtain ⟨answers, idle⟩ := outlined.answers waiting rfl answered
      have ended (h : Nat) (dst : Host) (req : Req) (g' : Ghost)
          (known' : points h = some (.served dst tid req, g')) :
          ∃ resp, Q (.served dst tid req) resp g' := by
        rcases outlined.served known' with ⟨resp, done⟩ | ⟨i, call⟩
        · exact ⟨resp, outlined.finished known' done⟩
        · exact absurd call (idle i dst req h)
      have inv' := outline.receive inv outlined known now away collected allowed answers ended
      exact ⟨_, inv', outlined.moves known waiting rfl idle (rest reply)⟩

end Network
