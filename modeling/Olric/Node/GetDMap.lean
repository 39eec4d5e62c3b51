import Olric.Node.Stored

namespace Olric

open Program

/-- How far a goroutine has got in `getDMap`. From `inside` to `leaving` it holds the lock of the
partition. -/
inductive Search
  | start
  | missing
  | inside
  | absent
  | made (r : Ref)
  | stored (r : Ref)
  | leaving
  | found (r : Ref)
  | failed

/-- The commands of `getDMap`, in their order. -/
def searching (p : Place) (name : Bytes) : Discipline Cmd Cmd.Reply Search where
  allows
    | .start, c => c = .load p name
    | .missing, c => c = .lockPartition p
    | .inside, c => c = .load p name
    | .absent, c => c = .newStorage
    | .made r, c => c = .setLocker r ∨ c = .register p name r ∨ c = .store p name r ∨ c = .unlockPartition p
    | .stored _, c => c = .addCount p 1 ∨ c = .unlockPartition p
    | .leaving, c => c = .unlockPartition p
    | .found _, _ | .failed, _ => False
  after
    | .start, .load .., reply => reply.elim .missing .found
    | .missing, .lockPartition .., _ => .inside
    | .inside, .load .., reply => reply.elim .absent .stored
    | .absent, .newStorage, reply => reply.elim .leaving .made
    | .made r, .store .., _ => .stored r
    | .made _, .unlockPartition .., _ => .failed
    | .stored r, .unlockPartition .., _ => .found r
    | .leaving, .unlockPartition .., _ => .failed
    | g, _, _ => g

section

variable {cfg : Config} {p : Place} {name : Bytes} {r : Ref}

theorem registration_searches : (cfg.snapshotCall (act (.register p name r))).Follows (searching p name) (.made r)
    fun _ g => g = .made r := by
  unfold Config.snapshotCall
  split
  · exact ⟨.inr (.inl rfl), fun _ => rfl⟩
  · rfl

/-- Where the goroutine is before it gives the lock of the partition back. -/
def Search.Made (dm : Option Ref) (g : Search) : Prop :=
  match dm with
  | some r => g = .stored r
  | none => g = .leaving ∨ ∃ r, g = .made r

theorem createFresh_searches :
    (cfg.createFresh p name).Follows (searching p name) .absent fun dm g => g.Made dm := by
  refine ⟨rfl, fun made => ?_⟩
  cases made with
  | none => exact .inl rfl
  | some r =>
    refine ⟨.inl rfl, fun _ => registration_searches.bind ?_⟩
    rintro registered g rfl
    cases registered with
    | false => exact .inr ⟨r, rfl⟩
    | true => exact ⟨.inr (.inr (.inl rfl)), fun _ => ⟨.inl rfl, fun _ => rfl⟩⟩

theorem createDMap_searches :
    (cfg.createDMap p name).Follows (searching p name) .missing fun dm g => g = dm.elim .failed .found := by
  have leave (dm : Option Ref) (g : Search) (made : g.Made dm) :
      (searching p name).allows g (.unlockPartition p) ∧
        (searching p name).after g (.unlockPartition p) () = dm.elim .failed .found := by
    cases dm with
    | some r =>
      obtain rfl := made
      exact ⟨.inr rfl, rfl⟩
    | none =>
      rcases made with rfl | ⟨r, rfl⟩
      · exact ⟨rfl, rfl⟩
      · exact ⟨.inr (.inr (.inr rfl)), rfl⟩
  refine ⟨rfl, fun _ => ?_⟩
  dsimp only [ret_bind]
  refine Follows.bind (Q := fun dm g => g.Made dm) ?_ fun dm g made => ?_
  · refine ⟨rfl, fun found => ?_⟩
    cases found with
    | some r => rfl
    | none => exact createFresh_searches
  · exact ⟨(leave dm g made).1, fun _ => (leave dm g made).2⟩

theorem getDMap_searches :
    (cfg.getDMap p name).Follows (searching p name) .start fun dm g => g = dm.elim .failed .found := by
  refine ⟨rfl, fun found => ?_⟩
  cases found with
  | some r => rfl
  | none => exact createDMap_searches

end

end Olric
