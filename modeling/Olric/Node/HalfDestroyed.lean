import Olric.Node.Registered
import Olric.Snapshot.Snapshot

namespace Olric

open Program

/-- A member, and whether one of these calls has failed. -/
structure Trial where
  node : Node
  failed : Bool

namespace Trial

def exec (tid : Tid) (t : Trial) (c : Cmd) (reply : c.Reply) (t' : Trial) : Prop :=
  t.node.exec tid c reply t'.node ∧ t'.failed = (t.failed || c.fails reply)

theorem andThen {α : Type} {tid : Tid} {p : Prog α} {c : Cmd} {next : c.Reply → Prog α} {t : Trial} {s s' : Node}
    {failed : Bool} (reaches : p.Reaches (exec tid) t (.call c next) ⟨s, failed⟩) (reply : c.Reply)
    (now : s.exec tid c reply s') : p.Reaches (exec tid) t (next reply) ⟨s', failed || c.fails reply⟩ :=
  reaches.andThen reply ⟨now, rfl⟩

/-- The dmap of a name is the object `r`. -/
abbrev Has (t : Trial) (p : Place) (name : Bytes) (r : Ref) : Prop := t.node.ledger.Has p name r

/-- The storage of an object, and what is logged for it. -/
abbrev objects (t : Trial) (r : Ref) : Option (Storage × Option (Finmap fun _ : UInt64 => LogOp)) :=
  t.node.ledger.objects r

/-- The stored dmaps and their storages are the same, and nothing has failed. -/
structure Like (t t' : Trial) : Prop where
  names : t'.node.ledger.names = t.node.ledger.names
  objects : t'.objects = t.objects
  fine : t'.failed = t.failed

theorem Like.refl (t : Trial) : Like t t := ⟨rfl, rfl, rfl⟩

theorem Like.trans {t t₁ t' : Trial} (first : Like t t₁) (second : Like t₁ t') : Like t t' :=
  ⟨second.names.trans first.names, second.objects.trans first.objects, second.fine.trans first.fine⟩

theorem has_of_names {t t' : Trial} (names : t'.node.ledger.names = t.node.ledger.names) (q : Place) (name' : Bytes)
    (r : Ref) : t'.Has q name' r ↔ t.Has q name' r := by
  unfold Has Ledger.Has
  rw [names]

/-- What an attempt to destroy the dmap of a name comes to: it is as it was, it is gone, or its
storage is closed and it is still there. -/
inductive Attempt (p : Place) (name : Bytes) (t t' : Trial) : Prop
  | kept (like : Like t t')
  | removed {r : Ref} (has : t.Has p name r)
      (names : ∀ q name' r, t'.Has q name' r ↔ ¬ (q = p ∧ name' = name) ∧ t.Has q name' r)
      (others : ∀ r', r' ≠ r → t'.objects r' = t.objects r') (fine : t'.failed = t.failed)
  | broken {r : Ref} {str : Storage} {log : Option (Finmap fun _ : UInt64 => LogOp)} (has : t.Has p name r)
      (names : ∀ q name' r, t'.Has q name' r ↔ t.Has q name' r) (others : ∀ r', r' ≠ r → t'.objects r' = t.objects r')
      (found : t'.objects r = some (str, log)) (closed : str.closed = true) (failed : t'.failed = true)

/-- What holds between the attempts: what is stored has been stored before, the storages are the
same but for the dmaps that have been tried, and a failed attempt has left a closed one. -/
structure Kept (l : Ledger) (tried : Place → Bytes → Prop) (t : Trial) : Prop where
  has : ∀ p name r, t.Has p name r → l.Has p name r
  same : ∀ p name r, t.Has p name r → t.objects r = l.objects r ∨ t.failed = true ∧ tried p name
  closed : t.failed = true → ∃ p name r str log, tried p name ∧ t.Has p name r ∧ t.objects r = some (str, log) ∧
    str.closed = true

section

variable {l : Ledger} {tried : Place → Bytes → Prop} {t t' : Trial} {p : Place} {name : Bytes}

theorem Kept.mono {tried' : Place → Bytes → Prop} (kept : Kept l tried t)
    (more : ∀ p name, tried p name → tried' p name) :
    Kept l tried' t where
  has := kept.has
  same p name r has := (kept.same p name r has).imp_right fun broken => ⟨broken.1, more p name broken.2⟩
  closed failed := by
    obtain ⟨p, name, r, str, log, done, rest⟩ := kept.closed failed
    exact ⟨p, name, r, str, log, more p name done, rest⟩

theorem Kept.like (kept : Kept l tried t) (like : Like t t') : Kept l tried t' := by
  have names := has_of_names like.names
  refine ⟨fun q name' r has => kept.has q name' r ((names q name' r).1 has), fun q name' r has => ?_,
    fun failed => ?_⟩
  · rw [like.objects, like.fine]
    exact kept.same q name' r ((names q name' r).1 has)
  · obtain ⟨q, name', r, str, log, done, has, found, closed⟩ := kept.closed (like.fine ▸ failed)
    exact ⟨q, name', r, str, log, done, (names q name' r).2 has, by rw [like.objects]; exact found, closed⟩

theorem Attempt.keeps (attempt : Attempt p name t t') (kept : Kept l tried t)
    (once : ∀ p q name name' r, l.Has p name r → l.Has q name' r → p = q ∧ name = name')
    (first : t.failed = true → ¬ tried p name) :
    Kept l (fun q name' => tried q name' ∨ q = p ∧ name' = name) t' := by
  have apart {q : Place} {name' : Bytes} {r r' : Ref} (has : t.Has p name r) (other : t.Has q name' r')
      (differs : ¬ (q = p ∧ name' = name)) : r' ≠ r := by
    rintro rfl
    exact differs (once _ _ _ _ _ (kept.has _ _ _ other) (kept.has _ _ _ has))
  cases attempt with
  | kept like => exact (kept.like like).mono fun _ _ => .inl
  | @removed gone has names others fine =>
    refine ⟨fun q name' r has => kept.has q name' r ((names q name' r).1 has).2, fun q name' r still => ?_,
      fun failed => ?_⟩
    · obtain ⟨differs, before⟩ := (names q name' r).1 still
      rw [others r (apart has before differs), fine]
      exact (kept.same q name' r before).imp_right (.imp_right .inl)
    · -- what has been left closed before is not what is removed now
      obtain ⟨q, name', r, str, log, done, before, found, closed⟩ := kept.closed (fine ▸ failed)
      have differs : ¬ (q = p ∧ name' = name) := by
        rintro ⟨rfl, rfl⟩
        exact first (fine ▸ failed) done
      exact ⟨q, name', r, str, log, .inl done, (names q name' r).2 ⟨differs, before⟩,
        by rw [others r (apart has before differs)]; exact found, closed⟩
  | @broken left str log has names others found closed failed =>
    refine ⟨fun q name' r has => kept.has q name' r ((names q name' r).1 has), fun q name' r still => ?_,
      fun _ => ⟨p, name, left, str, log, .inr ⟨rfl, rfl⟩, (names p name left).2 has, found, closed⟩⟩
    by_cases here : q = p ∧ name' = name
    · exact .inr ⟨failed, .inr here⟩
    · have before := (names q name' r).1 still
      rw [others r (apart has before here)]
      exact (kept.same q name' r before).imp_right fun broken => ⟨failed, .inl broken.2⟩

end

section

variable {cfg : Config} {tid : Tid} {t t₁ t₂ t₃ t' : Trial} {p : Place} {name : Bytes} {r : Ref} {c : Cmd}
  {reply : c.Reply}

theorem exec_like (run : t.exec tid c reply t') (harmless : c.Harmless) : Like t t' := by
  have ledger := Node.exec_harmless run.1 harmless
  refine ⟨by rw [ledger], by unfold objects; rw [ledger], run.2.trans ?_⟩
  cases c
  case close | destroySnapshot | unregister => exact harmless.elim
  all_goals exact Bool.or_false _

/-- What comes before and after an attempt and changes nothing. -/
theorem Attempt.between (before : Like t t₁) (attempt : Attempt p name t₁ t₂) (after : Like t₂ t') :
    Attempt p name t t' := by
  have has₁ := has_of_names before.names
  have has₂ := has_of_names after.names
  cases attempt with
  | kept like => exact .kept (before.trans (like.trans after))
  | removed has names others fine =>
    refine .removed ((has₁ _ _ _).1 has) (fun q name' r => ?_) (fun r' other => ?_)
      (after.fine.trans (fine.trans before.fine))
    · rw [has₂, names, has₁]
    · rw [after.objects, others r' other, before.objects]
  | broken has names others found closed failed =>
    refine .broken ((has₁ _ _ _).1 has) (fun q name' r => ?_) (fun r' other => ?_)
      (by rw [after.objects]; exact found)
      closed (after.fine.trans failed)
    · rw [has₂, names, has₁]
    · rw [after.objects, others r' other, before.objects]

/-- A call of the snapshot touches the registry only. -/
structure Called (ok : Bool) (t t' : Trial) : Prop where
  names : t'.node.ledger.names = t.node.ledger.names
  objects : t'.objects = t.objects
  outcome : t'.failed = (t.failed || !ok)

theorem called_of_unregister {ok : Bool}
    (after : t'.node.ledger = if ok then t.node.ledger.unregister p.id name else t.node.ledger)
    (outcome : t'.failed = (t.failed || !ok)) : Called ok t t' := by
  have same : t'.node.ledger.names = t.node.ledger.names ∧ t'.node.ledger.objects = t.node.ledger.objects := by
    rw [after]
    cases ok <;> exact ⟨rfl, rfl⟩
  exact ⟨same.1, same.2, outcome⟩

theorem snapshotCall_called {ok : Bool} {call : Prog Bool} (calls : call.Runs (exec tid) t ok t' → Called ok t t')
    (run : (cfg.snapshotCall call).Runs (exec tid) t ok t') : Called ok t t' := by
  unfold Config.snapshotCall at run
  split at run
  · exact calls run
  · obtain ⟨rfl, rfl⟩ := run
    exact ⟨rfl, rfl, (Bool.or_false _).symm⟩

theorem destroySnapshot_called {ok : Bool}
    (run : (cfg.snapshotCall (act (.destroySnapshot p name))).Runs (exec tid) t ok t') : Called ok t t' := by
  refine snapshotCall_called ?_ run
  rintro ⟨_, _, ⟨call, outcome⟩, rfl, rfl⟩
  exact called_of_unregister (Node.exec_destroySnapshot_ledger call) outcome

theorem unregister_called {ok : Bool}
    (run : (cfg.snapshotCall (act (.unregister p name))).Runs (exec tid) t ok t') : Called ok t t' := by
  refine snapshotCall_called ?_ run
  rintro ⟨_, _, ⟨call, outcome⟩, rfl, rfl⟩
  exact called_of_unregister (Node.exec_unregister_ledger call) outcome

/-- `Close` closes the storage of the object, and no other. -/
theorem close_object {ok : Bool} (run : t.exec tid (.close r) ok t') :
    t'.node.ledger.names = t.node.ledger.names ∧ (∀ r', r' ≠ r → t'.objects r' = t.objects r') ∧
      (∃ str log, t'.objects r = some (str, log) ∧ str.closed = true) ∧ t'.failed = (t.failed || !ok) := by
  obtain ⟨str, log, munmapOk, found, rfl, after⟩ := Node.exec_close_ledger run.1
  refine ⟨by rw [after]; rfl, fun r' other => ?_, ⟨_, log, ?_, Storage.close_closed str munmapOk⟩, run.2⟩
  · rw [objects, after]
    exact Function.update_of_ne other _ _
  · rw [objects, after]
    exact Function.update_self ..

/-- `Close` fails. -/
theorem broken_of_close (has : t.Has p name r) (close : t.exec tid (.close r) false t') : Attempt p name t t' := by
  obtain ⟨names, others, ⟨str, log, found, closed⟩, failed⟩ := close_object close
  exact .broken has (has_of_names names) others found closed (failed.trans (Bool.or_true _))

/-- `Close` has closed the storage, and the call of the snapshot fails. -/
theorem broken_of_call (has : t.Has p name r) (close : t.exec tid (.close r) true t₁) (call : Called false t₁ t') :
    Attempt p name t t' := by
  obtain ⟨names, others, ⟨str, log, found, closed⟩, _⟩ := close_object close
  refine .broken has (has_of_names (call.names.trans names)) (fun r' other => ?_) (by rw [call.objects]; exact found)
    closed (call.outcome.trans (Bool.or_true _))
  rw [call.objects, others r' other]

/-- Every call succeeds, and the name is removed. -/
theorem removed_of_call (has : t.Has p name r) (close : t.exec tid (.close r) true t₁) (call : Called true t₁ t₂)
    (remove : t₂.exec tid (.remove p name) () t') : Attempt p name t t' := by
  obtain ⟨names, others, _, fine⟩ := close_object close
  have erased : t'.node.ledger = t₂.node.ledger.eraseName p name := by
    rw [show t'.node = _ from remove.1, Node.ledger_eraseName]
  refine .removed has (fun q name' r => ?_) (fun r' other => ?_) ?_
  · rw [Has, erased, Ledger.eraseName_has]
    exact and_congr_right fun _ => has_of_names (call.names.trans names) q name' r
  · rw [objects, erased]
    exact (congrFun call.objects r').trans (others r' other)
  · rw [remove.2, call.outcome, fine]
    simp [Cmd.fails]

theorem destroyIn_attempt {ok : Bool} (run : (cfg.destroyIn name p).Runs (exec tid) t ok t') :
    Attempt p name t t' ∧ t'.failed = (t.failed || !ok) := by
  obtain ⟨found, t₁, load, run⟩ := run
  have before := exec_like load trivial
  cases found with
  | none =>
    obtain ⟨rfl, rfl⟩ := run
    exact ⟨.kept before, load.2⟩
  | some r =>
    have has : t₁.Has p name r := (has_of_names before.names p name r).2 load.1.1.symm
    obtain ⟨closed, t₂, close, run⟩ := run
    cases closed with
    | false =>
      obtain ⟨rfl, rfl⟩ := run
      exact ⟨.between before (broken_of_close has close) (.refl _), by rw [close.2, before.fine]; rfl⟩
    | true =>
      dsimp only [ret_bind, bind_eq] at run
      obtain ⟨done, t₃, destroy, run⟩ := runs_bind.1 run
      have call := destroySnapshot_called destroy
      cases done with
      | false =>
        obtain ⟨rfl, rfl⟩ := run
        exact ⟨.between before (broken_of_call has close call) (.refl _),
          by rw [call.outcome, Bool.not_false, Bool.or_true, Bool.or_true]⟩
      | true =>
        obtain ⟨_, t₄, remove, rfl, rfl⟩ := run
        refine ⟨.between before (removed_of_call has close call remove) (.refl _), ?_⟩
        rw [remove.2, call.outcome, close.2, before.fine]
        simp [Cmd.fails]

theorem deleteStaleDMap_attempt (has : t.Has p name r)
    (run : (cfg.deleteStaleDMap p name r).Runs (exec tid) t () t') : Attempt p name t t' := by
  obtain ⟨_, t₁, lock, run⟩ := run
  dsimp only [ret_bind, bind_eq] at run
  obtain ⟨_, t₂, body, _, t₃, unlock, rfl, rfl⟩ := runs_bind.1 run
  obtain ⟨len, t₄, length, body⟩ := body
  have before := (exec_like lock trivial).trans (exec_like length trivial)
  have has := (has_of_names before.names p name r).2 has
  refine .between before ?_ (exec_like unlock trivial)
  dsimp only [ret_bind, bind_eq] at body
  split at body
  · obtain ⟨_, rfl⟩ := body
    exact .kept (.refl _)
  · obtain ⟨closed, t₅, close, body⟩ := body
    cases closed with
    | false =>
      obtain ⟨_, rfl⟩ := body
      exact broken_of_close has close
    | true =>
      dsimp only [ret_bind, bind_eq] at body
      obtain ⟨done, t₆, unregister, body⟩ := runs_bind.1 body
      have call := unregister_called unregister
      cases done with
      | false =>
        obtain ⟨_, rfl⟩ := body
        exact broken_of_call has close call
      | true =>
        obtain ⟨_, t₇, remove, _, t₈, count, _, rfl⟩ := body
        exact .between (.refl _) (removed_of_call has close call remove) (exec_like count trivial)

end

section

variable {cfg : Config} {tid : Tid} {l : Ledger} {tried : Place → Bytes → Prop} {t t' : Trial} {p : Place}
  {name : Bytes}
  (once : ∀ p q name name' r, l.Has p name r → l.Has q name' r → p = q ∧ name = name')
include once

/-- The loop of a destroy ends at the first failure. -/
theorem destroyEach_kept {places : List Place} {answer : Response} (kept : Kept l tried t) (fine : t.failed = false)
    (run : (cfg.destroyEach name places).Runs (exec tid) t answer t') : ∃ tried', Kept l tried' t' := by
  induction places generalizing t tried with
  | nil =>
    obtain ⟨_, rfl⟩ := run
    exact ⟨tried, kept⟩
  | cons p places ih =>
    obtain ⟨ok, t₁, destroy, run⟩ := runs_bind.1 run
    obtain ⟨attempt, failed⟩ := destroyIn_attempt destroy
    have kept₁ := attempt.keeps kept once (by rw [fine]; nofun)
    cases ok with
    | false =>
      obtain ⟨_, rfl⟩ := run
      exact ⟨_, kept₁⟩
    | true => exact ih kept₁ (by rw [failed, fine]; rfl) run

/-- The janitor tries every dmap of a partition once. -/
theorem janitor_kept (kept : Kept l tried t) (first : ∀ name, ¬ tried p name)
    (run : (cfg.janitor p).Runs (exec tid) t () t') :
    ∃ tried', Kept l tried' t' ∧ ∀ q name, q ≠ p → tried' q name → tried q name := by
  obtain ⟨names, t₁, list, run⟩ := run
  let Inv (rest : List Bytes) (t : Trial) : Prop := rest.Nodup ∧ ∃ tried', Kept l tried' t ∧
    (∀ name ∈ rest, ¬ tried' p name) ∧ ∀ q name, q ≠ p → tried' q name → tried q name
  have start : Inv names t₁ :=
    ⟨list.1.1, tried, kept.like (exec_like list trivial), fun name _ => first name, fun _ _ _ => id⟩
  have ended : Inv [] t' := by
    refine Runs.forEach_invariant Inv (fun name rest s s' inv round => ?_) start run
    obtain ⟨nodup, tried', kept, first, others⟩ := inv
    have nodup := List.nodup_cons.1 nodup
    obtain ⟨found, s₁, load, round⟩ := round
    have like := exec_like load trivial
    have kept := kept.like like
    cases found with
    | none =>
      obtain ⟨_, rfl⟩ := round
      exact ⟨nodup.2, tried', kept, fun name' mem => first name' (List.mem_cons_of_mem _ mem), others⟩
    | some r =>
      have attempt := deleteStaleDMap_attempt ((has_of_names like.names p name r).2 load.1.1.symm) round
      refine ⟨nodup.2, _, attempt.keeps kept once fun _ => first name List.mem_cons_self, ?_, ?_⟩
      · rintro name' mem (tried | ⟨_, rfl⟩)
        · exact first name' (List.mem_cons_of_mem _ mem) tried
        · exact nodup.1 mem
      · rintro q name' other (tried | ⟨rfl, _⟩)
        · exact others q name' other tried
        · exact absurd rfl other
  obtain ⟨_, tried', kept', _, others⟩ := ended
  exact ⟨tried', kept', others⟩

theorem janitors_kept {places : List Place} (nodup : places.Nodup) (kept : Kept l (fun _ _ => False) t)
    (run : (forEach cfg.janitor places).Runs (exec tid) t () t') : ∃ tried', Kept l tried' t' := by
  let Inv (rest : List Place) (t : Trial) : Prop :=
    rest.Nodup ∧ ∃ tried', Kept l tried' t ∧ ∀ p ∈ rest, ∀ name, ¬ tried' p name
  have ended : Inv [] t' := by
    refine Runs.forEach_invariant Inv (fun p rest s s' inv round => ?_) ⟨nodup, _, kept, fun _ _ _ => id⟩ run
    obtain ⟨nodup, tried, kept, first⟩ := inv
    have nodup := List.nodup_cons.1 nodup
    obtain ⟨tried', kept', others⟩ := janitor_kept once kept (first p List.mem_cons_self) round
    refine ⟨nodup.2, tried', kept', fun q mem name tried => ?_⟩
    have other : q ≠ p := by
      rintro rfl
      exact nodup.1 mem
    exact first q (List.mem_cons_of_mem _ mem) name (others q name other tried)
  obtain ⟨_, tried', kept', _⟩ := ended
  exact ⟨tried', kept'⟩

end

end Trial

theorem Config.stalePlaces_nodup (cfg : Config) : cfg.stalePlaces.Nodup := by
  refine List.nodup_flatMap.2 ⟨fun _ _ => by simp, List.nodup_range.imp_of_mem fun {i j} inRange inRange' differs =>
    ?_⟩
  have bound := cfg.partitionCount.toNat_lt
  have apart : UInt64.ofNat i ≠ UInt64.ofNat j := by
    intro same
    have equal := congrArg UInt64.toNat same
    rw [UInt64.toNat_ofNat_of_lt' ((List.mem_range.1 inRange).trans bound),
      UInt64.toNat_ofNat_of_lt' ((List.mem_range.1 inRange').trans bound)] at equal
    exact differs equal
  simp [Function.onFun, List.disjoint_left, apart]

/-- The calls that destroy dmaps. -/
inductive Config.Destroys (cfg : Config) : Prog Response → Prop
  | destroyDMapOperation (name : Bytes) : Destroys cfg (cfg.destroyDMapOperation name)
  | deleteStaleDMaps : Destroys cfg (answered cfg.deleteStaleDMaps)

namespace Node

/-- No two names have the same dmap object. -/
def ObjectsOnce (s : Node) : Prop := ∀ p q name name' r, (s.partition p).m.lookup name = some r →
  (s.partition q).m.lookup name' = some r → p = q ∧ name = name'

/-- Every stored dmap has an open storage. -/
def StoredOpen (s : Node) : Prop := ∀ p name r, (s.partition p).m.lookup name = some r →
  ∃ dm, s.dmaps r = some dm ∧ dm.str.closed = false

/-- What is still stored in `s'` has an open storage, the one that it had. -/
def LeavesOpen (s s' : Node) : Prop := ∀ p name r, (s'.partition p).m.lookup name = some r →
  ∃ dm dm', s.dmaps r = some dm ∧ s'.dmaps r = some dm' ∧ dm'.str = dm.str ∧ dm'.str.closed = false

end Node

/-- A destroy, or a pass of the janitor, leaves every dmap removed or as it was if, and only if, no
call of `Close` or of the snapshot fails. -/
theorem leavesOpen_iff_not_failed {cfg : Config} {prog : Prog Response} {tid : Tid} {s s' : Node} {failed : Bool}
    {answer : Response} (destroys : cfg.Destroys prog) (once : s.ObjectsOnce) (allOpen : s.StoredOpen)
    (run : prog.Runs (Trial.exec tid) ⟨s, false⟩ answer ⟨s', failed⟩) : s.LeavesOpen s' ↔ failed = false := by
  have start : Trial.Kept s.ledger (fun _ _ => False) ⟨s, false⟩ :=
    ⟨fun _ _ _ => id, fun _ _ _ _ => .inl rfl, nofun⟩
  obtain ⟨tried, kept⟩ : ∃ tried, Trial.Kept s.ledger tried ⟨s', failed⟩ := by
    cases destroys with
    | destroyDMapOperation name => exact Trial.destroyEach_kept once start rfl run
    | deleteStaleDMaps =>
      obtain ⟨_, mid, run, _, rfl⟩ := runs_bind.1 run
      exact Trial.janitors_kept once cfg.stalePlaces_nodup start run
  constructor
  · intro leaves
    cases failed with
    | false => rfl
    | true =>
      obtain ⟨p, name, r, str, log, _, has, found, closed⟩ := kept.closed rfl
      obtain ⟨_, dm', _, found', _, isOpen⟩ := leaves p name r has
      rw [Trial.objects, Node.ledger_found found'] at found
      cases found
      exact absurd (closed.symm.trans isOpen) (by decide)
  · rintro rfl p name r has
    obtain ⟨dm, found, isOpen⟩ := allOpen p name r (kept.has p name r has)
    rcases kept.same p name r has with same | ⟨failed, _⟩
    · rw [Node.ledger_found found] at same
      obtain ⟨dm', found', str, _⟩ := Node.ledger_objects.1 same
      exact ⟨dm, dm', found, found', str, str ▸ isOpen⟩
    · cases failed

theorem restoredNode_once : restoredNode.ObjectsOnce ∧ restoredNode.StoredOpen := by
  have only {p : Place} {name : Bytes} {r : Ref} (found : (restoredNode.partition p).m.lookup name = some r) :
      p = ⟨false, 0⟩ ∧ name = [100] ∧ r = 0 := by
    simp only [restoredNode] at found
    split at found
    next here =>
      dsimp only at found
      have named : name = [100] :=
        (Finmap.mem_singleton (β := fun _ => Ref) name [100] 0).1 (Finmap.mem_iff.2 ⟨r, found⟩)
      subst named
      rw [Finmap.lookup_singleton_eq] at found
      exact ⟨here, rfl, (Option.some.inj found).symm⟩
    · simp at found
  constructor
  · intro p q name name' r found found'
    obtain ⟨rfl, rfl, _⟩ := only found
    obtain ⟨rfl, rfl, _⟩ := only found'
    exact ⟨rfl, rfl⟩
  · intro p name r found
    obtain ⟨_, _, rfl⟩ := only found
    exact ⟨_, rfl, rfl⟩

/-- A destroy in which every call succeeds. -/
theorem destroy_without_failure : ∃ s',
    (savingConfig.destroyDMapOperation [100]).Runs (Trial.exec 0) ⟨restoredNode, false⟩
    (.ok []) ⟨s', false⟩ ∧ restoredNode.LeavesOpen s' := by
  have start : (savingConfig.destroyDMapOperation [100]).Reaches (Trial.exec 0) ⟨restoredNode, false⟩ _ ⟨_, _⟩ :=
    .refl
  have loads := Trial.andThen (c := .load ⟨false, 0⟩ [100]) start (some 0) ⟨restoredNode_lookup.symm, rfl⟩
  have closes := Trial.andThen (c := .close 0) loads true ⟨_, true, rfl, rfl, rfl⟩
  have destroys := Trial.andThen (c := .destroySnapshot ⟨false, 0⟩ [100]) closes true ⟨rfl, rfl⟩
  have removes := Trial.andThen (c := .remove ⟨false, 0⟩ [100]) destroys () rfl
  have run := removes.runs (a := Response.ok [])
  exact ⟨_, run, (leavesOpen_iff_not_failed (.destroyDMapOperation [100]) restoredNode_once.1
    restoredNode_once.2 run).2 rfl⟩

/-- The snapshot has no record of a dmap that has never been synced, so `DestroyDMap` fails; the
storage is closed by then. -/
theorem unsynced_dmap_half_destroyed :
    (∃ snapshot, Snapshot.empty.registerDMap Snapshot.firstDMap ⟨[], false, false⟩ = (snapshot, none) ∧
      (snapshot.destroyDMap .primary 0 [100]).2 = some .keyNotFound) ∧
    ∃ s s', (savingConfig.handle (fun _ => 7) (.deletePrev [100] [107])).Runs (Node.exec 0) emptyNode (.ok []) s ∧
      (savingConfig.destroyDMapOperation [100]).Runs (Trial.exec 0) ⟨s, false⟩ .failed ⟨s', true⟩ ∧
      (s'.partition ⟨false, 0⟩).m.lookup [100] = some 0 ∧ ∃ dm, s'.dmaps 0 = some dm ∧ dm.str.closed = true := by
  have made : ∃ s, (savingConfig.handle (fun _ => 7) (.deletePrev [100] [107])).Runs (Node.exec 0) emptyNode
    (.ok []) s ∧
      (s.partition ⟨false, 0⟩).m.lookup [100] = some 0 ∧ s.syncing = [] ∧ ∃ dm, s.dmaps 0 = some dm := by
    have start : (savingConfig.handle (fun _ => 7) (.deletePrev [100] [107])).Reaches (Node.exec 0) emptyNode _ _ :=
      .refl
    have looks := start.andThen (c := Cmd.load ⟨false, 0⟩ [100]) none ⟨by simp [emptyNode], rfl⟩
    have locksPartition := looks.andThen (c := Cmd.lockPartition ⟨false, 0⟩) () ⟨rfl, rfl⟩
    have looksAgain := locksPartition.andThen (c := Cmd.load ⟨false, 0⟩ [100]) none
      ⟨by simp [emptyNode, Node.setPartition], rfl⟩
    have creates := looksAgain.andThen (c := Cmd.newStorage) (some 0) ⟨rfl, _, rfl, rfl⟩
    have locker := creates.andThen (c := Cmd.setLocker 0) () ⟨_, rfl, rfl⟩
    have registers := locker.andThen (c := Cmd.register ⟨false, 0⟩ [100] 0) true ⟨rfl, _, rfl, rfl⟩
    have stores := registers.andThen (c := Cmd.store ⟨false, 0⟩ [100] 0) () rfl
    have counts := stores.andThen (c := Cmd.addCount ⟨false, 0⟩ 1) () rfl
    have unlocksPartition := counts.andThen (c := Cmd.unlockPartition ⟨false, 0⟩) () rfl
    have locks := unlocksPartition.andThen (c := Cmd.lock 0) () ⟨_, rfl, rfl, rfl⟩
    have deletes := locks.andThen (c := Cmd.delete 0 7) none ⟨_, true, _, rfl, rfl, rfl⟩
    have logs := deletes.andThen (c := Cmd.log 0 7 .delete) () ⟨_, _, rfl, rfl, rfl⟩
    have unlocks := logs.andThen (c := Cmd.unlock 0) () ⟨_, rfl, rfl⟩
    refine ⟨_, unlocks.runs (a := Response.ok []), ?_, rfl, _, rfl⟩
    simp [emptyNode, Node.setPartition, Node.setDMap, Node.setOplogs]
  obtain ⟨s, made, stored, idle, dm, found⟩ := made
  have places : savingConfig.destroyPlaces = [⟨false, 0⟩] := by decide
  have closes : (dm.str.close true).2 = true := by
    unfold Storage.close
    split <;> rfl
  have destroyed : (savingConfig.destroyDMapOperation [100]).Runs (Trial.exec 0) ⟨s, false⟩ .failed
      ⟨s.setDMap 0 { dm with str := (dm.str.close true).1 }, true⟩ := by
    unfold Config.destroyDMapOperation
    rw [places]
    exact ⟨some 0, ⟨s, false⟩, ⟨⟨stored.symm, rfl⟩, rfl⟩, true, ⟨_, false⟩,
      ⟨⟨dm, true, found, closes.symm, rfl⟩, rfl⟩, false, ⟨_, true⟩, ⟨⟨idle, rfl⟩, rfl⟩, rfl, rfl⟩
  exact ⟨⟨_, rfl, rfl⟩, s, _, made, destroyed, stored, _, setDMap_found.2 (.inl ⟨rfl, rfl⟩), Storage.close_closed _ _⟩

end Olric
