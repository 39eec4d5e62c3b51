import Olric.Cluster.Rules
import Olric.Cluster.Wire
import Olric.Node.View

namespace Olric

open Program

/-- The commands of a goroutine that concern its own member only. -/
def Cmd.Local (c : Cmd) : Prop := c.outgoing = none ∧ ∀ job, c ≠ .go job

/-- The number of members and the time. -/
def Cmd.Given (memCount : Int) (now : Int64) : (c : Cmd) → c.Reply → Prop
  | .numMembers, reply => reply = memCount
  | .now, reply => reply = now
  | _, _ => True

/-- System calls and Badger do not fail. -/
def Cmd.Faultless : (c : Cmd) → c.Reply → Prop
  | .newStorage, reply => reply ≠ none
  | .importStorage _, reply => reply ≠ none
  | .put .., reply => reply ≠ some .mmap
  | .delete .., reply => reply ≠ some .mmap
  | .close _, reply => reply = true
  | .register .., reply => reply = true
  | .unregister .., reply => reply = true
  | .destroySnapshot .., reply => reply = true
  | .badger, reply => reply = true
  | _, _ => True

/-- Members whose clocks agree while one of them runs an operation. -/
structure Setting extends Members where
  memCount : Int
  members : 0 < memCount
  maxValueSize : Int
  now : Int64

/-- The cluster between two commands. -/
abbrev Nodes := Host → Node

/-- What a command does, on behalf of a member. -/
abbrev Acting := Host → Nodes → (c : Cmd) → c.Reply → Nodes → Prop

namespace Setting

variable (w : Setting) (tid : Tid)

/-- What a command does to the member itself. -/
def acts (s : Node) (c : Cmd) (reply : c.Reply) (s' : Node) : Prop :=
  s.exec tid c reply s' ∧ c.Routed w.routing reply ∧ c.Given w.memCount w.now reply ∧ c.Faultless reply

/-- A request is served by the operation of the other member, if its message is not refused. -/
def answer (serve : Acting) (req : Request) (dst : Host) (nodes : Nodes) (reply : Response) (nodes' : Nodes) : Prop :=
  ∃ m, req.message = some m ∧
    match m.received w.maxValueSize with
    | some req => ((w.config dst).handle w.sum64 req).Runs (serve dst) nodes reply nodes'
    | none => reply = .failed ∧ nodes' = nodes

/-- The answers of several members. -/
def answers (serve : Acting) (req : Request) : List Host → Nodes → List Response → Nodes → Prop
  | [], nodes, [], nodes' => nodes' = nodes
  | dst :: dsts, nodes, reply :: replies, nodes' =>
    ∃ mid, w.answer serve req dst nodes reply mid ∧ answers serve req dsts mid replies nodes'
  | _, _, _, _ => False

/-- Requests wait for their answers, and a goroutine that is started runs to its end at once. -/
def step (serve : Acting) (host : Host) (nodes : Nodes) : (c : Cmd) → c.Reply → Nodes → Prop
  | .request dst req, reply, nodes' => w.answer serve req dst nodes reply nodes'
  | .requestAll dsts req, replies, nodes' => w.answers serve req dsts nodes replies nodes'
  | .go job, _, nodes' => ((w.config host).job job).Runs (serve host) nodes () nodes'
  | c, reply, nodes' => ∃ s', w.acts tid (nodes host) c reply s' ∧ nodes' = Function.update nodes host s'

/-- Nobody acts but the operation and those who serve it. `depth` bounds how requests nest. -/
def serve : Nat → Acting
  | 0 => fun host nodes c reply nodes' =>
    c.Local ∧ ∃ s', w.acts tid (nodes host) c reply s' ∧ nodes' = Function.update nodes host s'
  | depth + 1 => w.step tid (serve depth)

variable {w tid} {depth : Nat} {host : Host} {nodes nodes' : Nodes}

theorem serve_local {c : Cmd} {reply : c.Reply} (here : c.Local) : w.serve tid depth host nodes c reply nodes' ↔
    ∃ s', w.acts tid (nodes host) c reply s' ∧ nodes' = Function.update nodes host s' := by
  cases depth with
  | zero => exact and_iff_right here
  | succ depth =>
    cases c
    case request => exact absurd here.1 nofun
    case requestAll => exact absurd here.1 nofun
    case go job => exact absurd rfl (here.2 job)
    all_goals exact Iff.rfl

/-- A program that concerns one member runs there. -/
theorem runs_local {α : Type} {p : Prog α} (only : p.Only Cmd.Local) {a : α} :
    p.Runs (w.serve tid depth host) nodes a nodes' ↔
      ∃ s', p.Runs (w.acts tid) (nodes host) a s' ∧ nodes' = Function.update nodes host s' := by
  induction p generalizing nodes with
  | ret b =>
    constructor
    · rintro ⟨rfl, rfl⟩
      exact ⟨_, ⟨rfl, rfl⟩, (Function.update_eq_self _ _).symm⟩
    · rintro ⟨_, ⟨rfl, rfl⟩, rfl⟩
      exact ⟨rfl, Function.update_eq_self _ _⟩
  | call c next ih =>
    constructor
    · rintro ⟨reply, mid, now, rest⟩
      obtain ⟨s, acts, rfl⟩ := (serve_local only.1).1 now
      obtain ⟨s', run, rfl⟩ := (ih reply (only.2 reply)).1 rest
      rw [Function.update_self] at run
      exact ⟨s', ⟨reply, s, acts, run⟩, Function.update_idem ..⟩
    · rintro ⟨s', ⟨reply, s, acts, run⟩, rfl⟩
      refine ⟨reply, _, (serve_local only.1).2 ⟨s, acts, rfl⟩, (ih reply (only.2 reply)).2 ⟨s', ?_, ?_⟩⟩
      · rwa [Function.update_self]
      · exact (Function.update_idem ..).symm

end Setting

section

variable {cfg : Config} {p : Place} {name key value : Bytes} {hkey : UInt64} {r : Ref}

theorem getDMap_local : (cfg.getDMap p name).Only Cmd.Local :=
  Config.getDMap_only ⟨rfl, nofun⟩ ⟨rfl, nofun⟩ ⟨rfl, nofun⟩ ⟨rfl, nofun⟩ (fun _ => ⟨rfl, nofun⟩)
    (fun _ => ⟨rfl, nofun⟩)
    (fun _ => ⟨rfl, nofun⟩) ⟨rfl, nofun⟩

theorem oplog_local {op : LogOp} : (cfg.oplog r hkey op).Only Cmd.Local := Config.oplog_only ⟨rfl, nofun⟩

theorem ttlOf_local {timeout : Int64} : (Config.ttlOf timeout).Only Cmd.Local := Config.ttlOf_only ⟨rfl, nofun⟩

theorem local_of_object (c : Cmd) (object : c.OnObject) : c.Local := by
  cases c <;> first | exact object.elim | exact ⟨rfl, nofun⟩

theorem putBackupOperation_local {timeout : Option Int64} :
    (cfg.putBackupOperation hkey name key value timeout).Only Cmd.Local :=
  Config.putBackupOperation_only local_of_object getDMap_local fun _ _ => ⟨rfl, nofun⟩

theorem deleteLocal_local : (cfg.deleteLocal p hkey name).Only Cmd.Local :=
  Config.deleteLocal_only local_of_object getDMap_local

theorem getPrevOperation_local : (cfg.getPrevOperation hkey name).Only Cmd.Local :=
  Config.getPrevOperation_only local_of_object ⟨rfl, nofun⟩

theorem getBackupOperation_local : (cfg.getBackupOperation hkey name).Only Cmd.Local :=
  Config.getBackupOperation_only local_of_object getDMap_local

end

/-- What operations keep on the member they run on. -/
structure Node.Keeps (s s' : Node) : Prop where
  sound : s'.Sound
  grows : s.Grows s'

theorem Node.Keeps.trans {s₁ s₂ s₃ : Node} (first : s₁.Keeps s₂) (second : s₂.Keeps s₃) : s₁.Keeps s₃ :=
  ⟨second.sound, first.grows.trans second.grows⟩

section

variable {w : Setting} {tid : Tid} {s s' : Node} {cfg : Config} {p : Place} {name key value : Bytes} {hkey : UInt64}
  {r : Ref} {timeout : Int64}

theorem Setting.runs_exec {α : Type} {prog : Prog α} {a : α} (run : prog.Runs (w.acts tid) s a s') :
    prog.Runs (Node.exec tid) s a s' := run.mono fun now => now.1

theorem Node.exec_keeps {c : Cmd} {reply : c.Reply} (run : s.exec tid c reply s') (calm : c.Calm) (sound : s.Sound) :
    s.Keeps s' ∧ s'.view = s.view := by
  have after := Node.exec_calm run calm sound
  refine ⟨⟨after.1, fun p name r has => ?_⟩, after.2.1⟩
  unfold Node.Has at has ⊢
  rwa [after.2.2]

theorem getDMap_keeps {dm : Option Ref} (sound : s.Sound) (run : (cfg.getDMap p name).Runs (w.acts tid) s dm s') :
    s.Keeps s' ∧ s'.view = s.view ∧ ∀ r, dm = some r → s'.Has p name r := by
  obtain ⟨sound', same, grows, found⟩ := getDMap_runs sound (Setting.runs_exec run)
  exact ⟨⟨sound', grows⟩, same, found⟩

/-- The TTL that a put with the timeout stores. -/
def ttlAt (now timeout : Int64) : Int64 := if timeout = 0 then 0 else getTTL now timeout

theorem ttlOf_runs {ttl : Int64} (run : (Config.ttlOf timeout).Runs (w.acts tid) s ttl s') :
    s' = s ∧ ttl = ttlAt w.now timeout := by
  unfold Config.ttlOf at run
  unfold ttlAt
  split at run
  · next zero =>
    rw [if_pos zero]
    exact ⟨run.2, run.1⟩
  · next other =>
    obtain ⟨now, mid, ⟨rfl, _, rfl, _⟩, rfl, rfl⟩ := run
    exact ⟨rfl, (if_neg other).symm⟩

theorem oplog_keeps_view {op : LogOp} (sound : s.Sound) (run : (cfg.oplog r hkey op).Runs (w.acts tid) s () s') :
    s.Keeps s' ∧ s'.view = s.view := by
  unfold Config.oplog at run
  split at run
  · obtain ⟨_, mid, now, _, rfl⟩ := run
    exact Node.exec_keeps now.1 trivial sound
  · obtain ⟨_, rfl⟩ := run
    exact ⟨⟨sound, .refl _⟩, rfl⟩

/-- The view after a put. -/
def View.put (v : View) (p : Place) (name : Bytes) (hkey : UInt64) (entry : VData) : View :=
  v.set p name (Function.update (v p name) hkey (some entry))

theorem put_keeps {err : Option StorageError} {entry : VData} (sound : s.Sound) (has : s.Has p name r)
    (short : entry.value.length < 2 ^ 32) (run : w.acts tid s (.put r hkey entry) err s') :
    s.Keeps s' ∧ s'.view = if err = none then s.view.put p name hkey entry else s.view := by
  obtain ⟨sound', view⟩ := Node.exec_put_view run.1 sound has short
  exact ⟨⟨sound', Node.exec_grows run.1 nofun nofun⟩, view⟩

/-- Without faults, a put fails only because of its key. -/
theorem put_fails {err : Option StorageError} {entry : VData} (run : w.acts tid s (.put r hkey entry) err s')
    (smallKey : entry.key.length < maxKeyLen) : err = none := by
  obtain ⟨⟨dm, mmaps, str, _, stored, _⟩, _, _, faultless⟩ := run
  cases err with
  | none => rfl
  | some e =>
    rcases Storage.put_error stored with rfl | large
    · exact absurd rfl faultless
    · omega

/-- A put for the backup stores the entry, and with a small key it does. -/
theorem putBackupOperation_runs {timeout : Option Int64} {answer : Response} (sound : s.Sound)
    (short : value.length < 2 ^ 32)
    (run : (cfg.putBackupOperation hkey name key value timeout).Runs (w.acts tid) s answer s') :
    s.Keeps s' ∧ (answer ≠ .ok [] ∧ s'.view = s.view ∨ answer = .ok [] ∧
      s'.view = s.view.put (cfg.place true hkey) name hkey ⟨key, ttlAt w.now (timeout.getD 0), value⟩) := by
  obtain ⟨dm, s₁, found, run⟩ := runs_bind.1 run
  obtain ⟨keeps₁, same₁, has⟩ := getDMap_keeps sound found
  cases dm with
  | none =>
    obtain ⟨rfl, rfl⟩ := run
    exact ⟨keeps₁, .inl ⟨nofun, same₁⟩⟩
  | some r =>
    obtain ⟨ttl, s₂, ttlRun, run⟩ := runs_bind.1 run
    obtain ⟨rfl, rfl⟩ := ttlOf_runs ttlRun
    obtain ⟨err, s₃, put, run⟩ := run
    obtain ⟨keeps₂, view⟩ := put_keeps keeps₁.sound (has r rfl) short put
    cases err with
    | some e =>
      obtain ⟨rfl, rfl⟩ := run
      exact ⟨keeps₁.trans keeps₂, .inl ⟨nofun, by rw [view, if_neg nofun, same₁]⟩⟩
    | none =>
      dsimp only [ret_bind, bind_eq] at run
      obtain ⟨_, s₄, log, rfl, rfl⟩ := runs_bind.1 run
      obtain ⟨keeps₃, same₃⟩ := oplog_keeps_view keeps₂.sound log
      exact ⟨(keeps₁.trans keeps₂).trans keeps₃, .inr ⟨rfl, by rw [same₃, view, if_pos rfl, same₁]⟩⟩

/-- Without faults the dmap is found or made. -/
theorem getDMap_faultless {dm : Option Ref} (run : (cfg.getDMap p name).Runs (w.acts tid) s dm s') : dm ≠ none := by
  obtain ⟨found, s₁, _, run⟩ := run
  cases found with
  | some r =>
    obtain ⟨rfl, _⟩ := run
    exact nofun
  | none =>
    obtain ⟨_, s₂, _, run⟩ := run
    dsimp only [ret_bind, bind_eq] at run
    obtain ⟨_, s₃, inner, _, s₄, _, rfl, _⟩ := runs_bind.1 run
    obtain ⟨found, s₅, _, inner⟩ := inner
    cases found with
    | some r =>
      obtain ⟨rfl, _⟩ := inner
      exact nofun
    | none =>
      obtain ⟨made, s₆, fresh, inner⟩ := inner
      cases made with
      | none => exact absurd rfl fresh.2.2.2
      | some r =>
        obtain ⟨_, s₇, _, inner⟩ := inner
        dsimp only [ret_bind, bind_eq] at inner
        obtain ⟨registered, s₈, register, inner⟩ := runs_bind.1 inner
        have done : registered = true := by
          unfold Config.snapshotCall at register
          split at register
          · obtain ⟨_, _, now, rfl, _⟩ := register
            exact now.2.2.2
          · exact register.1
        subst done
        obtain ⟨_, _, _, _, _, _, rfl, _⟩ := inner
        exact nofun

theorem putBackupOperation_answers {timeout : Option Int64} {answer : Response} (smallKey : key.length < maxKeyLen)
    (run : (cfg.putBackupOperation hkey name key value timeout).Runs (w.acts tid) s answer s') : answer = .ok [] := by
  obtain ⟨dm, s₁, found, run⟩ := runs_bind.1 run
  cases dm with
  | none => exact absurd rfl (getDMap_faultless found)
  | some r =>
    obtain ⟨ttl, s₂, _, run⟩ := runs_bind.1 run
    obtain ⟨err, s₃, put, run⟩ := run
    obtain rfl := put_fails put smallKey
    dsimp only [ret_bind, bind_eq] at run
    obtain ⟨_, _, _, rfl, _⟩ := runs_bind.1 run
    rfl

/-- A delete for another member touches no other hkey and no other dmap. -/
theorem deleteLocal_runs {answer : Response} (sound : s.Sound)
    (run : (cfg.deleteLocal p hkey name).Runs (w.acts tid) s answer s') :
    s.Keeps s' ∧ ∃ entries, s'.view = s.view.set p name entries := by
  have same : s.view = s.view.set p name (s.view p name) := by simp [View.set]
  obtain ⟨dm, s₁, found, run⟩ := runs_bind.1 run
  obtain ⟨keeps₁, same₁, has⟩ := getDMap_keeps sound found
  cases dm with
  | none =>
    obtain ⟨rfl, rfl⟩ := run
    exact ⟨keeps₁, _, same₁.trans same⟩
  | some r =>
    obtain ⟨_, s₂, locked, run⟩ := run
    obtain ⟨keeps₂, same₂⟩ := Node.exec_keeps locked.1 trivial keeps₁.sound
    dsimp only [ret_bind, bind_eq] at run
    obtain ⟨_, s₃, inner, _, s₄, unlocked, rfl, rfl⟩ := runs_bind.1 run
    obtain ⟨err, s₅, deleted, inner⟩ := inner
    obtain ⟨sound₃, entries, view, _⟩ :=
      Node.exec_delete_view deleted.1 keeps₂.sound (keeps₂.grows _ _ _ (has r rfl))
    have keeps₃ : s₂.Keeps s₅ := ⟨sound₃, Node.exec_grows deleted.1 (by rintro _ _ _ ⟨⟩) (by rintro _ _ ⟨⟩)⟩
    have rest : s₅.Keeps s₃ ∧ s₃.view = s₅.view := by
      cases err with
      | some e =>
        obtain ⟨_, rfl⟩ := inner
        exact ⟨⟨sound₃, .refl _⟩, rfl⟩
      | none =>
        dsimp only [ret_bind, bind_eq] at inner
        obtain ⟨_, _, log, _, rfl⟩ := runs_bind.1 inner
        exact oplog_keeps_view sound₃ log
    obtain ⟨keeps₅, same₅⟩ := Node.exec_keeps unlocked.1 trivial rest.1.sound
    refine ⟨(((keeps₁.trans keeps₂).trans keeps₃).trans rest.1).trans keeps₅, entries, ?_⟩
    rw [same₅, rest.2, view, same₂, same₁]

end

theorem Setting.answer_of_fits {w : Setting} {serve : Acting} {req : Request} {dst : Host} {nodes nodes' : Nodes}
    {reply : Response} (fits : req.Fits w.maxValueSize) : w.answer serve req dst nodes reply nodes' ↔
      ((w.config dst).handle w.sum64 req.decoded).Runs (serve dst) nodes reply nodes' := by
  obtain ⟨m, message, request, small, framed⟩ := fits
  have received := Request.received_eq message request small framed
  constructor
  · rintro ⟨m', message', run⟩
    cases message.symm.trans message'
    rwa [received] at run
  · intro run
    exact ⟨m, message, by rwa [received]⟩

end Olric
