import Olric.Storage.Refinement

namespace Olric

/-- All calls that change a storage, with the outcomes of their mmap calls and the iteration orders
that they meet. `mergeExit` resets the merging flag. -/
inductive StorageCall
  | put (hkey : UInt64) (value : VData) (mmaps : List Bool)
  | putRaw (hkey : UInt64) (raw : Bytes) (mmaps : List Bool)
  | delete (hkey : UInt64) (mmapOk : Bool)
  | merge (order : Nat → List UInt64) (mmapOk : Bool)
  | mergeExit

/-- What a call returns: an error or none, or whether the merge is done. -/
inductive StorageAnswer
  | err (e : Option StorageError)
  | merged (done : Bool)
  | exited
deriving DecidableEq

def StorageOp.call : StorageOp → StorageCall
  | .put hkey value mmaps => .put hkey value mmaps
  | .delete hkey mmapOk => .delete hkey mmapOk
  | .merge order mmapOk => .merge order mmapOk
  | .mergeExit => .mergeExit

namespace Storage

def perform (s : Storage) : StorageCall → Except Halt (StorageAnswer × Storage)
  | .put hkey value mmaps => (s.put mmaps hkey value).map fun r => (.err r.2, r.1)
  | .putRaw hkey raw mmaps => (s.putRaw mmaps hkey raw).map fun r => (.err r.2, r.1)
  | .delete hkey mmapOk => (s.delete mmapOk hkey).map fun r => (.err r.2, r.1)
  | .merge order mmapOk => (s.chunkedMergeTables order mmapOk).map fun r => (.merged r.1, r.2)
  | .mergeExit => .ok (.exited, { s with merging := false })

/-- Merge steps go through the maps in an order that they have. -/
def Meets (s : Storage) : StorageCall → Prop
  | .merge order _ => s.MergeOrder order
  | _ => True

/-- New storages, and all calls on them, failed ones included. -/
def calls : Transitions Storage StorageCall where
  init s := ∃ mmapOk size, new mmapOk size = .ok s
  step s call s' := s.Meets call ∧ ∃ answer, s.perform call = .ok (answer, s')

theorem calls_of_run {allow : Storage → StorageOp → Prop} {ops : List StorageOp} {s : Storage}
    (run : system.Run allow ops s) : calls.AnyRun (ops.map StorageOp.call) s := by
  refine run.map StorageOp.call (fun _ created => created) fun s op s' step => ?_
  cases step with
  | put done => exact ⟨trivial, .err none, by simp [perform, StorageOp.call, done, Except.map]⟩
  | @delete _ _ _ err done => exact ⟨trivial, .err err, by simp [perform, StorageOp.call, done, Except.map]⟩
  | @merge _ _ _ done orders merged =>
    exact ⟨orders, .merged done, by simp [perform, StorageOp.call, merged, Except.map]⟩
  | mergeExit => exact ⟨trivial, .exited, rfl⟩

/-- The call that a step performs, and its outcome. -/
theorem perform_cases {s s' : Storage} {call : StorageCall} {answer : StorageAnswer}
    (run : s.perform call = .ok (answer, s')) :
    (∃ hkey value mmaps err, call = .put hkey value mmaps ∧ s.put mmaps hkey value = .ok (s', err)) ∨
    (∃ hkey raw mmaps err, call = .putRaw hkey raw mmaps ∧ s.putRaw mmaps hkey raw = .ok (s', err)) ∨
    (∃ hkey mmapOk err, call = .delete hkey mmapOk ∧ s.delete mmapOk hkey = .ok (s', err)) ∨
    (∃ order mmapOk done, call = .merge order mmapOk ∧ s.chunkedMergeTables order mmapOk = .ok (done, s')) ∨
    (call = .mergeExit ∧ s' = { s with merging := false }) := by
  have mapped {α : Type} {x : Except Halt α} {f : α → StorageAnswer × Storage} (done : x.map f = .ok (answer, s')) :
      ∃ r, x = .ok r ∧ f r = (answer, s') := by
    cases x with
    | error e => cases done
    | ok r => exact ⟨r, rfl, Except.ok.inj done⟩
  cases call with
  | put hkey value mmaps =>
    obtain ⟨⟨_, err⟩, done, same⟩ := mapped run
    cases same
    exact .inl ⟨hkey, value, mmaps, err, rfl, done⟩
  | putRaw hkey raw mmaps =>
    obtain ⟨⟨_, err⟩, done, same⟩ := mapped run
    cases same
    exact .inr (.inl ⟨hkey, raw, mmaps, err, rfl, done⟩)
  | delete hkey mmapOk =>
    obtain ⟨⟨_, err⟩, done, same⟩ := mapped run
    cases same
    exact .inr (.inr (.inl ⟨hkey, mmapOk, err, rfl, done⟩))
  | merge order mmapOk =>
    obtain ⟨⟨finished, _⟩, done, same⟩ := mapped run
    cases same
    exact .inr (.inr (.inr (.inl ⟨order, mmapOk, finished, rfl, done⟩)))
  | mergeExit =>
    cases run
    exact .inr (.inr (.inr (.inr ⟨rfl, rfl⟩)))

end Storage

end Olric
