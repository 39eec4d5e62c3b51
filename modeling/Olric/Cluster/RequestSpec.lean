import Olric.Cluster.Requests

namespace Olric

open Program

/-- Entries that may change, and what they may become. -/
abbrev Change := Host → Place → Bytes → UInt64 → Option VData → Prop

/-- Nothing changes. -/
def Change.nothing : Change := fun _ _ _ _ _ => False

/-- An entry of the hosts is written. -/
def Change.writes (hosts : List Host) (p : Place) (name : Bytes) (hkey : UInt64) (entry : Option VData) : Change :=
  fun h p' name' hkey' e => (h ∈ hosts ∧ p' = p ∧ name' = name ∧ hkey' = hkey) ∧ e = entry

/-- The entries of one key change. -/
def Change.touches (name : Bytes) (hkey : UInt64) : Change := fun _ _ name' hkey' _ => name' = name ∧ hkey' = hkey

/-- The entries of one key are removed. -/
def Change.removes (name : Bytes) (hkey : UInt64) : Change :=
  fun _ _ name' hkey' e => (name' = name ∧ hkey' = hkey) ∧ e = none

/-- The dmaps that are locked, on each member. -/
abbrev Held := Host → Set (Place × Bytes)

def Held.add (held : Held) (host : Host) (p : Place) (name : Bytes) : Held :=
  Function.update held host (insert (p, name) (held host))

/-- Nobody holds a mutex between two operations. -/
def Held.none : Held := fun _ => ∅

theorem Held.mem_add_none {host h : Host} {p : Place} {name : Bytes} {x : Place × Bytes} :
    x ∈ Held.none.add host p name h ↔ h = host ∧ x = (p, name) := by
  unfold add
  by_cases here : h = host
  · subst here
    rw [Function.update_self]
    simp [none]
  · rw [Function.update_of_ne here]
    simp [none, here]

namespace Servers

def view (s : Servers MapNode) (host : Host) : View := (s.nodes host).view

def Idle (s : Servers MapNode) (held : Held) : Prop := ∀ h, (s.nodes h).Idle (held h)

/-- What a part of an operation makes of the members, and the goroutines that it starts. -/
structure Becomes (s : Servers MapNode) (held : Held) (may : Change) (started : List (Host × Job))
    (s' : Servers MapNode) :
    Prop where
  idle : s'.Idle held
  names : ∀ {h p name r}, (s.nodes h).names p name = some r → (s'.nodes h).names p name = some r
  shows : ∀ h p name hkey, s'.view h p name hkey = s.view h p name hkey ∨ may h p name hkey (s'.view h p name hkey)
  jobs : s'.jobs = s.jobs ++ started

variable {s s₁ s₂ : Servers MapNode} {held held₁ held₂ : Held} {may may' : Change} {started : List (Host × Job)}
  {host : Host} {n : MapNode} {p : Place} {name : Bytes} {hkey : UInt64} {entry : Option VData} {hosts : List Host}

theorem Idle.refl (idle : s.Idle held) : s.Becomes held may [] s :=
  ⟨idle, id, fun _ _ _ _ => .inl rfl, (List.append_nil _).symm⟩

theorem Becomes.mono (becomes : s.Becomes held may started s₁)
    (weaker : ∀ h p name hkey e, may h p name hkey e → may' h p name hkey e) :
    s.Becomes held may' started s₁ :=
  ⟨becomes.idle, becomes.names, fun h p name hkey => (becomes.shows h p name hkey).imp_right (weaker _ _ _ _ _),
    becomes.jobs⟩

theorem Becomes.weaken (becomes : s.Becomes held Change.nothing started s₁) : s.Becomes held may started s₁ :=
  becomes.mono fun _ _ _ _ _ => False.elim

theorem shows_trans {v v₁ v₂ : Option VData} {ok : Option VData → Prop} (first : v₁ = v ∨ ok v₁)
    (second : v₂ = v₁ ∨ ok v₂) : v₂ = v ∨ ok v₂ := by
  rcases second with rfl | changed
  · exact first
  · exact .inr changed

theorem Becomes.trans (first : s.Becomes held₁ may [] s₁) (second : s₁.Becomes held₂ may started s₂) :
    s.Becomes held₂ may started s₂ :=
  ⟨second.idle, fun has => second.names (first.names has), fun h p name hkey =>
    shows_trans (first.shows ..) (second.shows ..), by rw [second.jobs, first.jobs, List.append_nil]⟩

/-- The goroutines have been started before. -/
theorem Becomes.andThen (first : s.Becomes held₁ may started s₁) (second : s₁.Becomes held₂ may [] s₂) :
    s.Becomes held₂ may started s₂ :=
  ⟨second.idle, fun has => second.names (first.names has), fun h p name hkey =>
    shows_trans (first.shows ..) (second.shows ..), by rw [second.jobs, first.jobs, List.append_nil]⟩

theorem Becomes.view_eq (becomes : s.Becomes held Change.nothing started s₁) : s₁.view = s.view := by
  funext h p name hkey
  exact (becomes.shows h p name hkey).resolve_right id

theorem Becomes.same (becomes : s.Becomes held may started s₁) {h : Host}
    (away : ∀ e, ¬ may h p name hkey e) : s₁.view h p name hkey = s.view h p name hkey :=
  (becomes.shows h p name hkey).resolve_right (away _)

/-- What one member does on its own. -/
theorem Idle.set (idle : s.Idle held) (away : ∀ h, h ≠ host → held₁ h = held h)
    (becomes : (s.nodes host).Becomes (held₁ host) (may host) n) : s.Becomes held₁ may [] (s.set host n) where
  idle h := by
    by_cases here : h = host
    · subst here
      rw [nodes_set_self]
      exact becomes.idle
    · rw [nodes_set_of_ne _ _ here, away h here]
      exact idle h
  names {h p name r} has := by
    by_cases here : h = host
    · subst here
      rw [nodes_set_self]
      exact becomes.names has
    · rwa [nodes_set_of_ne _ _ here]
  shows h p name hkey := by
    unfold view
    by_cases here : h = host
    · subst here
      rw [nodes_set_self]
      exact becomes.shows p name hkey
    · rw [nodes_set_of_ne _ _ here]
      exact .inl rfl
  jobs := (List.append_nil _).symm

end Servers

namespace Stable

variable {w : Stable} {σ : Type} {exec : σ → (c : Cmd) → c.Reply → σ → Prop} {depth : Nat} {host dst : Host}

section Rules

variable {α : Type} {s : Servers σ} {Q : α → Servers σ → Prop}

theorem total_here {c : Cmd} {next : c.Reply → Prog α} (here : c.Local)
    (possible : ∃ reply n, w.Replies c reply ∧ exec (s.nodes host) c reply n)
    (rest : ∀ reply n, w.Replies c reply → exec (s.nodes host) c reply n →
      (next reply).Total (w.serve exec depth host) (s.set host n) Q) :
    (Program.call c next).Total (w.serve exec depth host) s Q := by
  obtain ⟨reply, n, known, now⟩ := possible
  refine .call ⟨reply, _, (serve_here here).2 ⟨known, n, now, rfl⟩⟩ fun reply s' served => ?_
  obtain ⟨known, n, now, rfl⟩ := (serve_here here).1 served
  exact rest reply n known now

theorem total_go {job : Job} {next : Unit → Prog α}
    (rest : (next ()).Total (w.serve exec depth host) (s.addJob host job) Q) :
    (Program.call (.go job) next).Total (w.serve exec depth host) s Q := by
  refine .call ⟨(), _, serve_go.2 rfl⟩ fun _ s' served => ?_
  obtain rfl := serve_go.1 served
  exact rest

/-- A member does with a request that arrives what `Q` says. -/
def Answers (w : Stable) (exec : σ → (c : Cmd) → c.Reply → σ → Prop) (depth : Nat) (dst : Host) (req : Request)
    (s : Servers σ) (Q : Response → Servers σ → Prop) : Prop :=
  ((w.config (w.member dst)).serve w.sum64 w.maxValueSize req).Total (w.serve exec depth (w.member dst)) s Q

theorem answers_of_arrives {p : Place} {req req' : Request} {Q : Response → Servers σ → Prop}
    (listed : dst ∈ w.routing p) (arrives : req.arrives w.maxValueSize = some req')
    (served : ((w.config dst).handle w.sum64 req').Total (w.serve exec depth dst) s Q) :
    w.Answers exec depth dst req s Q := by
  unfold Answers
  rwa [w.member_eq listed, Config.serve_of_arrives arrives]

theorem total_request {req : Request} {next : Response → Prog α} {Q' : Response → Servers σ → Prop}
    (served : w.Answers exec depth dst req s Q')
    (rest : ∀ reply s', Q' reply s' → (next reply).Total (w.serve exec (depth + 1) host) s' Q) :
    (Program.call (.request dst req) next).Total (w.serve exec (depth + 1) host) s Q := by
  obtain ⟨reply, s', run, _⟩ := served.returns
  exact .call ⟨reply, s', run⟩ fun reply s' run => rest reply s' (served.runs run)

/-- All of several members do what is asked of them. -/
theorem total_requestAll {req : Request} {dsts : List Host} {next : List Response → Prog α}
    (Inv : List Host → Servers σ → Prop)
    (each : ∀ dst ∈ dsts, ∀ done s, Inv done s → w.Answers exec depth dst req s fun reply s' =>
      reply = .ok [] ∧ Inv (done ++ [dst]) s') (start : Inv [] s)
    (rest : ∀ replies s', replies = dsts.map (fun _ => .ok []) → Inv dsts s' →
      (next replies).Total (w.serve exec (depth + 1) host) s' Q) :
    (Program.call (.requestAll dsts req) next).Total (w.serve exec (depth + 1) host) s Q := by
  have possible (dsts done : List Host) (s : Servers σ)
      (each : ∀ dst ∈ dsts, ∀ done s, Inv done s → w.Answers exec depth dst req s fun reply s' =>
        reply = .ok [] ∧ Inv (done ++ [dst]) s') (start : Inv done s) :
      ∃ replies s', w.answers (w.serve exec depth) req dsts s replies s' := by
    induction dsts generalizing done s with
    | nil => exact ⟨[], s, rfl⟩
    | cons dst dsts ih =>
      obtain ⟨reply, mid, run, _, now⟩ := (each dst List.mem_cons_self done s start).returns
      obtain ⟨replies, s', later⟩ := ih (done ++ [dst]) mid (fun dst mem => each dst (List.mem_cons_of_mem _ mem)) now
      exact ⟨reply :: replies, s', mid, run, later⟩
  have always (dsts done : List Host) (s : Servers σ) (replies : List Response) (s' : Servers σ)
      (each : ∀ dst ∈ dsts, ∀ done s, Inv done s → w.Answers exec depth dst req s fun reply s' =>
        reply = .ok [] ∧ Inv (done ++ [dst]) s') (start : Inv done s)
      (run : w.answers (w.serve exec depth) req dsts s replies s') :
      replies = dsts.map (fun _ => .ok []) ∧ Inv (done ++ dsts) s' := by
    induction dsts generalizing done s replies with
    | nil =>
      cases replies with
      | nil =>
        obtain rfl := run
        rw [List.append_nil]
        exact ⟨rfl, start⟩
      | cons => exact run.elim
    | cons dst dsts ih =>
      cases replies with
      | nil => exact run.elim
      | cons reply replies =>
        obtain ⟨mid, first, later⟩ := run
        obtain ⟨rfl, now⟩ := (each dst List.mem_cons_self done s start).runs first
        obtain ⟨rfl, last⟩ :=
          ih (done ++ [dst]) mid replies (fun dst mem => each dst (List.mem_cons_of_mem _ mem)) now later
        rw [List.append_assoc] at last
        exact ⟨rfl, last⟩
  refine .call (possible dsts [] s each start) fun replies s' run => ?_
  obtain ⟨same, now⟩ := always dsts [] s replies s' each start run
  exact rest replies s' same now

end Rules

/-- Where the members put the primary copies and the backups of an hkey. -/
def place (w : Stable) (backup : Bool) (hkey : UInt64) : Place := ⟨backup, hkey % w.partitionCount⟩

theorem place_eq (w : Stable) (host : Host) (backup : Bool) (hkey : UInt64) :
    (w.config host).place backup hkey = w.place backup hkey := by
  unfold Config.place place
  rw [w.partitions]

def owners (w : Stable) (hkey : UInt64) : List Host := w.routing (w.place false hkey)

def backups (w : Stable) (hkey : UInt64) : List Host := w.routing (w.place true hkey)

def primary (w : Stable) (hkey : UInt64) : Host := (w.owners hkey).getLast (w.owned _)

def previous (w : Stable) (hkey : UInt64) : List Host := (w.owners hkey).dropLast

theorem owners_eq (w : Stable) (hkey : UInt64) : w.previous hkey ++ [w.primary hkey] = w.owners hkey :=
  List.dropLast_append_getLast _

theorem primary_not_previous (w : Stable) (hkey : UInt64) : w.primary hkey ∉ w.previous hkey := by
  have distinct := w.distinct (w.place false hkey)
  change (w.owners hkey).Nodup at distinct
  rw [← w.owners_eq, List.nodup_append] at distinct
  intro mem
  exact distinct.2.2 _ mem _ List.mem_cons_self rfl

section Members

variable {s : Servers MapNode} {held : Held} {p : Place} {name key value : Bytes} {hkey : UInt64} {r : Ref}

theorem getDMap_serves (host : Host) (idle : s.Idle held) :
    ((w.config host).getDMap p name).Total (w.serve MapNode.exec depth host) s fun dm s' =>
      ∃ r, dm = some r ∧ (s'.nodes host).names p name = some r ∧ s.Becomes held Change.nothing [] s' := by
  have only : ((w.config host).getDMap p name).Only fun c => c.Local ∧ ∀ reply, w.Replies c reply := by
    refine getDMap_searches.only fun g c allowed => ?_
    cases g with
    | start | missing | inside | absent | leaving =>
      obtain rfl := allowed
      exact ⟨⟨rfl, nofun⟩, fun _ => trivial⟩
    | made r => rcases allowed with rfl | rfl | rfl | rfl <;> exact ⟨⟨rfl, nofun⟩, fun _ => trivial⟩
    | stored r => rcases allowed with rfl | rfl <;> exact ⟨⟨rfl, nofun⟩, fun _ => trivial⟩
    | found | failed => exact allowed.elim
  refine (Total.transfer (fun n t => t = s.set host n) ?_ ?_ only (s.set_nodes host).symm
    (MapNode.getDMap_total (w.config host) (idle host))).mono ?_
  · rintro n t c ⟨here, known⟩ rfl ⟨reply, mid, now⟩
    refine ⟨reply, _, (serve_here here).2 ⟨known reply, mid, ?_, rfl⟩⟩
    rwa [Servers.nodes_set_self]
  · rintro n t c reply t' ⟨here, _⟩ rfl served
    obtain ⟨_, mid, now, rfl⟩ := (serve_here here).1 served
    rw [Servers.nodes_set_self] at now
    refine ⟨mid, now, ?_⟩
    unfold Servers.set
    rw [Function.update_idem]
  · rintro dm s' ⟨n, ⟨r, rfl, has, becomes⟩, rfl⟩
    refine ⟨r, rfl, ?_, idle.set (fun _ _ => rfl) becomes⟩
    rwa [Servers.nodes_set_self]

/-- An operation with the mutex of a dmap held. -/
theorem withLock_serves {α : Type} {body : Prog α} (may : Change) (started : List (Host × Job))
    (Q : α → (Host → View) → Prop) (idle : s.Idle held) (has : (s.nodes host).names p name = some r)
    (free : (p, name) ∉ held host) (inner : ∀ s₁, s.Becomes (held.add host p name) Change.nothing [] s₁ →
      body.Total (w.serve MapNode.exec depth host) s₁ fun a s₂ =>
      s₁.Becomes (held.add host p name) may started s₂ ∧ Q a s₂.view) :
    (withLock r body).Total (w.serve MapNode.exec depth host) s fun a s' =>
      s.Becomes held may started s' ∧ Q a s'.view := by
  have elsewhere (h : Host) (other : h ≠ host) : held.add host p name h = held h := Function.update_of_ne other ..
  have here : held.add host p name host = insert (p, name) (held host) := Function.update_self ..
  obtain ⟨⟨n, possible⟩, locks⟩ := MapNode.lock_becomes (idle host) has free
  refine total_here ⟨rfl, nofun⟩ ⟨(), n, trivial, possible⟩ fun _ n _ now => ?_
  have locked : s.Becomes (held.add host p name) Change.nothing [] (s.set host n) :=
    idle.set elsewhere (by rw [here]; exact locks n now)
  dsimp only [ret_bind, bind_eq]
  refine (inner _ locked).bind fun a s₂ done => ?_
  obtain ⟨becomes, result⟩ := done
  have idle₂ := becomes.idle host
  rw [here] at idle₂
  obtain ⟨⟨n', possible'⟩, unlocks⟩ := MapNode.unlock_becomes idle₂ (becomes.names (locked.names has))
  refine total_here ⟨rfl, nofun⟩ ⟨(), n', trivial, possible'⟩ fun _ n' _ now => ?_
  have unlocked : s₂.Becomes held Change.nothing [] (s₂.set host n') :=
    becomes.idle.set (fun h other => (elsewhere h other).symm) (unlocks n' now)
  refine ⟨(locked.weaken.trans becomes).andThen unlocked.weaken, ?_⟩
  rwa [unlocked.view_eq]

/-- A write to the storage of a dmap. -/
theorem write_serves {n : MapNode} {entry : Option VData} {dm : MapDMap} (idle : s.Idle held)
    (has : (s.nodes host).names p name = some r) (found : (s.nodes host).dmaps r = some dm)
    (eternal : ∀ v, entry = some v → v.ttl = 0)
    (written : n = (s.nodes host).setDMap r { dm with entries := Function.update dm.entries hkey entry }) :
    s.Becomes held (Change.writes [host] p name hkey entry) [] (s.set host n) ∧
      (s.set host n).view host p name hkey = entry := by
  subst written
  obtain ⟨becomes, now⟩ := MapNode.write_becomes hkey (idle host) has found eternal
  refine ⟨idle.set (fun _ _ => rfl) ⟨becomes.idle, becomes.names, fun p' name' hkey' => ?_⟩, ?_⟩
  · exact (becomes.shows p' name' hkey').imp_right fun ⟨at_, same⟩ => ⟨⟨List.mem_singleton_self _, at_⟩, same⟩
  · unfold Servers.view
    rwa [Servers.nodes_set_self]

theorem oplog_serves {op : LogOp} :
    ((w.config host).oplog r hkey op).Total (w.serve MapNode.exec depth host) s fun _ s' => s' = s := by
  unfold Config.oplog
  split
  · refine total_here ⟨rfl, nofun⟩ ⟨(), _, trivial, rfl⟩ fun _ n _ now => ?_
    obtain rfl := now
    exact s.set_nodes host
  · rfl

/-- The answer to a request that writes an entry of a member. -/
def Wrote (s : Servers MapNode) (held : Held) (dst : Host) (p : Place) (name : Bytes) (hkey : UInt64)
    (entry : Option VData) (reply : Response) (s' : Servers MapNode) : Prop :=
  reply = .ok [] ∧ s.Becomes held (Change.writes [dst] p name hkey entry) [] s' ∧ s'.view dst p name hkey = entry

theorem deleteLocal_serves (idle : s.Idle held) (free : (p, name) ∉ held dst) :
    ((w.config dst).deleteLocal p hkey name).Total (w.serve MapNode.exec depth dst) s
      (Wrote s held dst p name hkey none) := by
  refine (getDMap_serves dst idle).bind ?_
  rintro _ s₁ ⟨r, rfl, has, found⟩
  refine (withLock_serves (Change.writes [dst] p name hkey none) []
    (fun reply view => reply = .ok [] ∧ view dst p name hkey = none) found.idle has free ?_).mono ?_
  · intro s₂ locked
    obtain ⟨dm, object⟩ := (locked.idle dst).valid (locked.names has)
    refine total_here ⟨rfl, nofun⟩ ⟨none, _, trivial, rfl, dm, object, rfl⟩ ?_
    rintro _ n _ ⟨rfl, dm', object', written⟩
    have after := write_serves locked.idle (locked.names has) object' (by rintro _ ⟨⟩) written
    dsimp only [ret_bind, bind_eq]
    refine oplog_serves.bind ?_
    rintro _ _ rfl
    exact ⟨after.1, rfl, after.2⟩
  · rintro reply s' ⟨becomes, rfl, gone⟩
    exact ⟨rfl, found.weaken.trans becomes, gone⟩

theorem putBackupOperation_serves (dst : Host) (idle : s.Idle held) :
    ((w.config dst).putBackupOperation hkey name key value none).Total (w.serve MapNode.exec depth dst) s
      (Wrote s held dst (w.place true hkey) name hkey (some ⟨key, 0, value⟩)) := by
  unfold Config.putBackupOperation
  rw [w.place_eq]
  refine (getDMap_serves dst idle).bind ?_
  rintro _ s₁ ⟨r, rfl, has, found⟩
  obtain ⟨dm, object⟩ := (found.idle dst).valid has
  change Total _ (Program.call (Cmd.put r hkey ⟨key, 0, value⟩) _) _ _
  refine total_here ⟨rfl, nofun⟩ ⟨none, _, trivial, rfl, dm, object, rfl⟩ ?_
  rintro _ n _ ⟨rfl, dm', object', written⟩
  have after := write_serves found.idle has object' (by rintro _ ⟨⟩; rfl) written
  dsimp only [ret_bind, bind_eq]
  refine oplog_serves.bind ?_
  rintro _ _ rfl
  exact ⟨rfl, found.weaken.trans after.1, after.2⟩

end Members

end Stable

end Olric
