import Olric.Protocol.Frame

namespace Olric

/-- The extras that `Read` looks for in a request with the opcode. -/
def Extra.Belongs (op : UInt8) : Extra → Prop
  | .putEx _ => op = OpCode.exPutEx
  | .lockWithTimeout _ => op = OpCode.exLockWithTimeout ∨ op = OpCode.lockPrev
  | .isPartEmpty _ => op = OpCode.isPartEmpty ∨ op = OpCode.isBackupEmpty

theorem readWord_encode (w : UInt64) : readWord (BigEndian.encode 8 w.toNat) = .ok w := by
  have length : (BigEndian.encode 8 w.toNat).length = 8 := BigEndian.encode_length 8 _
  have nonempty : (BigEndian.encode 8 w.toNat).isEmpty = false := by
    rw [List.isEmpty_eq_false_iff, ← List.length_pos_iff, length]
    decide
  have back := BigEndian.decode_encode_of_lt (k := 8) w.toNat_lt
  unfold readWord
  rw [nonempty, if_neg (by decide), if_neg (by omega), List.take_of_length_le (by omega), back, UInt64.ofNat_toNat]

theorem readExtra_belongs {op : UInt8} {e : Extra} (belongs : e.Belongs op) :
    readExtra op e.encode = .ok (some e) := by
  unfold readExtra
  cases e with
  | putEx ttl =>
    rw [if_pos (show op = OpCode.exPutEx from belongs), Extra.encode, readWord_encode]
    simp [Except.map]
  | lockWithTimeout ttl =>
    have other : ¬ op = OpCode.exPutEx := by rcases belongs with rfl | rfl <;> decide
    rw [if_neg other, if_pos (show op = OpCode.exLockWithTimeout ∨ op = OpCode.lockPrev from belongs), Extra.encode,
      readWord_encode]
    simp [Except.map]
  | isPartEmpty partID =>
    have other : ¬ op = OpCode.exPutEx ∧ ¬ (op = OpCode.exLockWithTimeout ∨ op = OpCode.lockPrev) := by
      rcases belongs with rfl | rfl <;> decide
    rw [if_neg other.1, if_neg other.2,
      if_pos (show op = OpCode.isPartEmpty ∨ op = OpCode.isBackupEmpty from belongs), Extra.encode, readWord_encode]
    rfl

namespace Message

/-- A message that `Write` is meant for: the lengths fit their fields, and only requests have extras,
which are those of the opcode. -/
structure Sendable (maxValueSize : Int) (m : Message) : Prop where
  magic : m.magic = magicReq ∨ m.magic = magicRes
  dmapShort : m.dmap.length < 65536
  keyShort : m.key.length < 65536
  small : m.value.length ≤ maxValueSize
  short : m.body.length < 2 ^ 32
  extra : (m.extra = none ∧ m.extraLen = 0) ∨ ∃ e, m.extra = some e ∧ m.magic = magicReq ∧ e.Belongs m.op

/-- The message with the lengths that `Write` has filled in. -/
def written (m : Message) : Message := { m with toHeader := m.writeHeader }

/-- Read messages one after the other, at most `fuel`, until there is an error. What is left on the
connection before that is returned, too. -/
def readAll (maxValueSize : Int) : Nat → Bytes → List Message × Bytes
  | 0, conn => ([], conn)
  | fuel + 1, conn =>
    match read maxValueSize conn with
    | .ok m rest =>
      let (messages, left) := readAll maxValueSize fuel rest
      (m :: messages, left)
    | _ => ([], conn)

variable {maxValueSize : Int} {m : Message}

theorem read_sendable (sendable : m.Sendable maxValueSize) (rest : Bytes) :
    read maxValueSize (m.write ++ rest) = .ok m.written rest := by
  have own : m.magic = magicReq ∨ m.extra = none := by
    rcases sendable.extra with ⟨none, _⟩ | ⟨_, _, isReq, _⟩
    · exact .inr none
    · exact .inl isReq
  have framed : m.Framed := by
    refine ⟨sendable.short, ?_⟩
    rcases sendable.extra with ⟨_, zero⟩ | ⟨e, some, _⟩
    · exact .inr zero
    · exact .inl (by simp [some])
  have extra : m.extraRead = .ok m.extra := by
    unfold extraRead
    rcases sendable.extra with ⟨none, _⟩ | ⟨e, some, _, belongs⟩
    · rw [none]
      rfl
    · rw [some]
      exact readExtra_belongs belongs
  obtain ⟨extra', decoded, reads⟩ :=
    read_written sendable.magic own framed sendable.dmapShort sendable.keyShort sendable.small
  cases decoded.symm.trans extra
  exact reads rest

theorem write_length (m : Message) : headerSize ≤ m.write.length := by
  rw [write, List.length_append, Header.encode_length]
  exact Nat.le_add_right _ _

theorem readAll_nil (maxValueSize : Int) (fuel : Nat) : readAll maxValueSize fuel [] = ([], []) := by
  cases fuel <;> rfl

/-- Messages that are written one after the other are read back, each as it was with the lengths that
`Write` has filled in, and nothing is left. -/
theorem readAll_written (maxValueSize : Int) (messages : List Message)
    (sendable : ∀ m ∈ messages, m.Sendable maxValueSize) :
    readAll maxValueSize ((messages.flatMap write).length + 1) (messages.flatMap write) =
      (messages.map written, []) := by
  -- Every message takes a header at least, so the fuel lasts.
  have enough (fuel : Nat) (lasts : (messages.flatMap write).length ≤ fuel) :
      readAll maxValueSize fuel (messages.flatMap write) = (messages.map written, []) := by
    induction messages generalizing fuel with
    | nil => exact readAll_nil maxValueSize fuel
    | cons m messages ih =>
      rw [List.flatMap_cons] at lasts ⊢
      have long := m.write_length
      rw [List.length_append] at lasts
      rw [headerSize] at long
      obtain ⟨fuel, rfl⟩ := Nat.exists_eq_add_of_le' (show 1 ≤ fuel by omega)
      have rest := ih (fun m' mem => sendable m' (List.mem_cons_of_mem _ mem)) fuel (by omega)
      unfold readAll
      rw [read_sendable (sendable m List.mem_cons_self)]
      dsimp only
      rw [rest]
      rfl
  exact enough _ (Nat.le_succ _)

/-- A `PutEx` request and an answer. -/
theorem readAll_request_and_answer :
    let request : Message := ⟨⟨magicReq, OpCode.exPutEx, 0, 0, 0, 0, 0⟩, some (.putEx 5), [100], [107], [1, 2]⟩
    let answer : Message := ⟨⟨magicRes, OpCode.exPutEx, 0, 0, 0, statusOK, 0⟩, none, [], [], []⟩
    (∀ m ∈ [request, answer], m.Sendable 1048576) ∧
      readAll 1048576 (([request, answer].flatMap write).length + 1) ([request, answer].flatMap write) =
        ([request, answer].map written, []) := by
  intro request answer
  have sendable : ∀ m ∈ [request, answer], m.Sendable 1048576 := by
    intro m listed
    simp only [List.mem_cons, List.not_mem_nil, or_false] at listed
    rcases listed with rfl | rfl
    · exact ⟨.inl rfl, by decide, by decide, by decide, by decide, .inr ⟨_, rfl, rfl, rfl⟩⟩
    · exact ⟨.inr rfl, by decide, by decide, by decide, by decide, .inl ⟨rfl, rfl⟩⟩
  exact ⟨sendable, readAll_written 1048576 [request, answer] sendable⟩

end Message

end Olric
