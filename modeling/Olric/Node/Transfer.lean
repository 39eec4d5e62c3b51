import Olric.Node.Issued

namespace Olric

open Program

/-- How far a goroutine has got in `moveDMap`. From `locked` to `leaving` it holds the mutex of the
dmap. -/
inductive Move
  | start
  | locked
  | unused
  | exported (tr : Transport)
  | accepted
  | removed
  | leaving
  | done

/-- The commands of `moveDMap`, in their order. Only owners look at the lock count. -/
def moving (p : Place) (name : Bytes) (r : Ref) (owner : Host) : Discipline Cmd Cmd.Reply Move where
  allows
    | .start, c => c = .lock r
    | .locked, c => c = .lockerLength r
    | .unused, c => c = .exportTable r
    | .exported tr, c => c = .request owner (.moveDMap p.backup ⟨p.id, name, some tr⟩)
    | .accepted, c => c = .remove p name
    | .removed, c => c = .addCount p (-1) ∨ c = .close r ∨ c = .destroySnapshot p name ∨ c = .unlock r
    | .leaving, c => c = .unlock r
    | .done, _ => False
  after
    | .start, .lock _, _ => if p.backup then .unused else .locked
    | .locked, .lockerLength _, n => if n = 0 then .unused else .leaving
    | .unused, .exportTable _, .ok tr => .exported tr
    | .unused, .exportTable _, .error _ => .leaving
    | .exported _, .request .., .ok _ => .accepted
    | .exported _, .request .., _ => .leaving
    | .accepted, .remove .., _ => .removed
    | .removed, .unlock _, _ | .leaving, .unlock _, _ => .done
    | g, _, _ => g

section

variable {cfg : Config} {p : Place} {name : Bytes} {r : Ref} {owner : Host}

theorem lockCount_moves : (Config.lockCount p r).Follows (moving p name r owner)
    ((moving p name r owner).after .start (.lock r) ()) fun n g => g = if n = 0 then .unused else .leaving := by
  unfold Config.lockCount
  cases backup : p.backup with
  | true => simp [moving, backup]
  | false =>
    have inside : (moving p name r owner).after .start (.lock r) () = .locked := by simp [moving, backup]
    rw [inside]
    exact ⟨rfl, fun n => rfl⟩

theorem dropMoved_moves : (cfg.dropMoved p name r).Follows (moving p name r owner) .accepted fun _ g =>
    g = .removed := by
  refine ⟨rfl, fun _ => ⟨.inl rfl, fun _ => ⟨.inr (.inl rfl), fun _ => ?_⟩⟩⟩
  unfold Config.snapshotCall
  split
  · exact ⟨.inr (.inr (.inl rfl)), fun _ => rfl⟩
  · rfl

theorem moveDMap_moves : (cfg.moveDMap p name r owner).Follows (moving p name r owner) .start fun _ g =>
    g = .done := by
  refine ⟨rfl, fun _ => ?_⟩
  dsimp only [ret_bind]
  refine Follows.bind (Q := fun _ g => g = .removed ∨ g = .leaving) (lockCount_moves.bind ?_) ?_
  · rintro n _ rfl
    by_cases zero : n = 0
    · subst zero
      refine ⟨rfl, fun exported => ?_⟩
      cases exported with
      | error e => exact .inr rfl
      | ok tr =>
        refine ⟨rfl, fun answer => ?_⟩
        cases answer with
        | ok value => exact dropMoved_moves.mono fun _ _ ended => .inl ended
        | keyNotFound | noSuchLock | failed => exact .inr rfl
    · simp [zero]
  · rintro _ g (rfl | rfl)
    · exact ⟨.inr (.inr (.inr rfl)), fun _ => rfl⟩
    · exact ⟨rfl, fun _ => rfl⟩

end

/-- How far a goroutine has got in `mergeDMaps`. `fresh` is the imported dmap, and `left` are its
entries that have not had their turn. An imported storage has one table; with any other number
the goroutine is `astray`. -/
inductive Merge
  | start
  | imported (fresh : Ref)
  | absent (fresh : Ref)
  | stored (fresh : Ref)
  | found (fresh r : Ref)
  | locked (fresh r : Ref)
  | merging (r : Ref) (left : List (UInt64 × VData))
  | missing (r : Ref) (hkey : UInt64) (entry : VData) (left : List (UInt64 × VData))
  | failing (r : Ref)
  | astray (r : Ref)
  | merged (r : Ref)
  | failed

/-- The commands of `mergeDMaps`, in their order. -/
def merging (p : Place) (name : Bytes) (tr : Transport) : Discipline Cmd Cmd.Reply Merge where
  allows
    | .start, c => c = .importStorage tr
    | .imported _, c => c = .load p name
    | .absent fresh, c => c = .setLocker fresh ∨ c = .store p name fresh
    | .found _ r, c => c = .lock r
    | .locked fresh _, c => c = .visits fresh
    | .merging r [], c => c = .unlock r
    | .merging r ((hkey, _) :: _), c => c = .check r hkey
    | .missing r hkey entry _, c => c = .put r hkey entry
    | .failing r, c => c = .unlock r
    | .astray r, c => (∃ hkey, c = .check r hkey) ∨ (∃ hkey entry, c = .put r hkey entry) ∨ c = .unlock r
    | .stored _, _ | .merged _, _ | .failed, _ => False
  after
    | .start, .importStorage _, reply => reply.elim .failed .imported
    | .imported fresh, .load .., reply => reply.elim (.absent fresh) (.found fresh)
    | .absent fresh, .store .., _ => .stored fresh
    | .found fresh r, .lock _, _ => .locked fresh r
    | .locked _ r, .visits _, [entries] => .merging r entries
    | .locked _ r, .visits _, _ => .astray r
    | .merging r [], .unlock _, _ => .merged r
    | .merging r ((hkey, entry) :: left), .check .., reply =>
      bif reply then .merging r left else .missing r hkey entry left
    | .missing r _ _ left, .put .., reply => reply.elim (.merging r left) fun _ => .failing r
    | .failing _, .unlock _, _ => .failed
    | g, _, _ => g

/-- What `mergeDMaps` answers where it ends. -/
def Merge.Answers (answer : Response) : Merge → Prop
  | .stored _ | .merged _ => answer = .ok []
  | .failed => answer = .failed
  | .astray _ => True
  | _ => False

section

variable {p : Place} {name : Bytes} {tr : Transport} {r : Ref}

theorem mergeInto_astray (merr : Option StorageError) (tables : List (List (UInt64 × VData))) :
    (Config.mergeInto r merr tables).Follows (merging p name tr) (.astray r) fun _ g => g = .astray r :=
  .steady (Config.mergeInto_only (fun hkey => ⟨.inl ⟨hkey, rfl⟩, fun _ => rfl⟩)
    fun hkey entry => ⟨.inr (.inl ⟨hkey, entry, rfl⟩), fun _ => rfl⟩)

/-- Without an error every entry has had its turn. -/
theorem mergeTableInto_merges (entries : List (UInt64 × VData)) :
    (Config.mergeTableInto r none entries).Follows (merging p name tr) (.merging r entries)
      fun err g => g = err.elim (.merging r []) fun _ => .failing r := by
  induction entries with
  | nil => rfl
  | cons e entries ih =>
    refine ⟨rfl, fun there => ?_⟩
    cases there with
    | true => exact ih
    | false =>
      refine ⟨rfl, fun err => ?_⟩
      cases err with
      | some _ => rfl
      | none => exact ih

theorem mergeInto_merges (entries : List (UInt64 × VData)) :
    (Config.mergeInto r none [entries]).Follows (merging p name tr) (.merging r entries)
      fun err g => g = err.elim (.merging r []) fun _ => .failing r := by
  refine (mergeTableInto_merges entries).bind ?_
  rintro err _ rfl
  rfl

theorem mergeDMaps_merges (box : DMapBox) (payload : box.payload = some tr) :
    (Config.mergeDMaps p box).Follows (merging p box.name tr) .start fun answer g => g.Answers answer := by
  unfold Config.mergeDMaps
  rw [payload]
  refine ⟨rfl, fun imported => ?_⟩
  cases imported with
  | none => exact rfl
  | some fresh =>
    refine ⟨rfl, fun found => ?_⟩
    cases found with
    | none =>
      unfold Config.newOwnerLocker
      split
      · exact ⟨.inr rfl, fun _ => rfl⟩
      · exact ⟨.inl rfl, fun _ => ⟨.inr rfl, fun _ => rfl⟩⟩
    | some r =>
      refine ⟨rfl, fun _ => ⟨rfl, fun tables => ?_⟩⟩
      dsimp only [ret_bind]
      -- What the callback reports is returned after the mutex has been given back.
      refine Follows.bind (Q := fun answer g => (merging p box.name tr).allows g (.unlock r) ∧
        ((merging p box.name tr).after g (.unlock r) ()).Answers answer) ?_ fun answer g ends =>
          ⟨ends.1, fun _ => ends.2⟩
      have astray : (Config.mergeInto r none tables).Follows (merging p box.name tr) (.astray r) fun _ g =>
          g = .astray r :=
        mergeInto_astray none tables
      rcases tables with _ | ⟨entries, _ | ⟨more, tables⟩⟩
      · refine astray.bind ?_
        rintro err _ rfl
        cases err <;> exact ⟨.inr (.inr rfl), trivial⟩
      · refine (mergeInto_merges entries).bind ?_
        rintro err _ rfl
        cases err <;> exact ⟨rfl, rfl⟩
      · refine astray.bind ?_
        rintro err _ rfl
        cases err <;> exact ⟨.inr (.inr rfl), trivial⟩

end

end Olric
