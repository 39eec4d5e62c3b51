import Olric.Protocol.Frame

namespace Olric.Message

/-- The extras of a request, from the front of its body. -/
def extras (h : Header) (body : Bytes) : Except ReadError (Option Extra) :=
  if h.magic = magicReq ∧ 0 < h.extraLen then readExtra h.op (body.take h.extraLen.toNat) else .ok none

/-- The fields are as long as the header says, and together with the extras they are the body. -/
structure Consistent (m : Message) : Prop where
  dmap : m.dmap.length = m.dmapLen.toNat
  key : m.key.length = m.keyLen.toNat
  value : (m.value.length : Int) = valueLen m.toHeader
  body : m.extraLen.toNat + m.dmap.length + m.key.length + m.value.length = m.bodyLen.toNat

variable {h : Header} {body rest : Bytes}

theorem readBody_error {e : ReadError} (refused : extras h body = .error e) :
    readBody h body rest = .error e h rest := by
  unfold extras at refused
  unfold readBody
  split at refused
  · next has => simp [has, refused]
  · cases refused

/-- The value is allocated before anything is compared with what is there. -/
theorem readBody_panic {extra : Option Extra} (read : extras h body = .ok extra) (negative : valueLen h < 0) :
    readBody h body rest = .panic := by
  unfold extras at read
  unfold readBody
  split at read
  · next has => simp [has, read, negative]
  · next without => simp [without, negative]

/-- If the value length is not negative, no field is cut short. -/
theorem readBody_ok {extra : Option Extra} (read : extras h body = .ok extra) (nonneg : 0 ≤ valueLen h)
    (whole : body.length = h.bodyLen.toNat) :
    ∃ m, readBody h body rest = .ok m rest ∧ m.toHeader = h ∧ m.extra = extra ∧ m.Consistent := by
  have total : (h.bodyLen.toNat : Int) = h.extraLen.toNat + h.keyLen.toNat + h.dmapLen.toNat + valueLen h := by
    unfold valueLen
    omega
  have notNegative : ¬ valueLen h < 0 := by omega
  -- What is left of the body after the extras, if they are taken at all.
  obtain ⟨left, long, eq⟩ : ∃ left : Bytes, h.dmapLen.toNat + h.keyLen.toNat + (valueLen h).toNat ≤ left.length ∧
      readBody h body rest = .ok { h with
        extra, dmap := left.take h.dmapLen.toNat, key := (left.drop h.dmapLen.toNat).take h.keyLen.toNat
        value := ((left.drop h.dmapLen.toNat).drop h.keyLen.toNat).take (valueLen h).toNat ++
          List.replicate ((valueLen h).toNat -
            (((left.drop h.dmapLen.toNat).drop h.keyLen.toNat).take (valueLen h).toNat).length) 0 } rest := by
    unfold extras at read
    unfold readBody
    split at read
    · next has =>
      refine ⟨body.drop h.extraLen.toNat, ?_, ?_⟩
      · rw [List.length_drop]
        omega
      · simp only [if_pos has, read, if_neg notNegative]
    · next without =>
      cases read
      refine ⟨body, by omega, ?_⟩
      simp only [if_neg without, if_neg notNegative]
  refine ⟨_, eq, rfl, rfl, ?_⟩
  constructor <;> simp only [List.length_take, List.length_drop, List.length_append, List.length_replicate] <;> omega

/-- The header at the front of a connection, and the body that it announces. -/
def header (conn : Bytes) : Header := Header.decode (conn.take headerSize)

def announced (conn : Bytes) : Bytes := (conn.drop headerSize).take (header conn).bodyLen.toNat

/-- `Read` gets as far as the fields of the message. -/
structure Readable (maxValueSize : Int) (conn : Bytes) : Prop where
  long : headerSize ≤ conn.length
  magic : (header conn).magic = magicReq ∨ (header conn).magic = magicRes
  small : valueLen (header conn) ≤ maxValueSize
  whole : (announced conn).length = (header conn).bodyLen.toNat
  extras : ∃ extra, extras (header conn) (announced conn) = .ok extra

theorem read_eq (maxValueSize : Int) (conn : Bytes) : read maxValueSize conn =
    if conn.length < headerSize then .error .eof ⟨0, 0, 0, 0, 0, 0, 0⟩ []
    else if (header conn).magic ≠ magicReq ∧ (header conn).magic ≠ magicRes then
      .error .invalidMessage (header conn) (conn.drop headerSize)
    else if valueLen (header conn) > maxValueSize then .error .valueTooBig (header conn) (conn.drop headerSize)
    else if (conn.drop headerSize).length < (header conn).bodyLen.toNat then .error .eof (header conn) []
    else readBody (header conn) (announced conn) ((conn.drop headerSize).drop (header conn).bodyLen.toNat) := rfl

/-- An error, or what `readBody` makes of a readable message. -/
theorem read_error_or_readable (maxValueSize : Int) (conn : Bytes) :
    (¬ Readable maxValueSize conn ∧ ∃ e h rest, read maxValueSize conn = .error e h rest) ∨
      Readable maxValueSize conn ∧ read maxValueSize conn =
        readBody (header conn) (announced conn) ((conn.drop headerSize).drop (header conn).bodyLen.toNat) := by
  rw [read_eq]
  split
  · next short => exact .inl ⟨fun readable => absurd readable.long (Nat.not_le.2 short), _, _, _, rfl⟩
  split
  · next unknown => exact .inl ⟨fun readable => (readable.magic.elim unknown.1 unknown.2).elim, _, _, _, rfl⟩
  split
  · next tooBig => exact .inl ⟨fun readable => absurd readable.small (Int.not_le.2 tooBig), _, _, _, rfl⟩
  have length : (announced conn).length = min (header conn).bodyLen.toNat (conn.drop headerSize).length :=
    List.length_take
  split
  · next missing =>
    refine .inl ⟨fun readable => ?_, _, _, _, rfl⟩
    have whole := readable.whole
    omega
  next long known small there =>
    cases read : extras (header conn) (announced conn) with
    | error e =>
      rw [readBody_error read]
      refine .inl ⟨fun readable => ?_, _, _, _, rfl⟩
      obtain ⟨extra, ok⟩ := readable.extras
      cases read.symm.trans ok
    | ok extra =>
      refine .inr ⟨⟨Nat.not_lt.1 long, ?_, Int.not_lt.1 small, by omega, extra, read⟩, rfl⟩
      by_contra unknown
      exact known (not_or.1 unknown)

/-- A message has the extras that were at the front of its body. -/
theorem extras_of_read {maxValueSize : Int} {conn : Bytes} {m : Message}
    (accepted : read maxValueSize conn = .ok m rest) : ∃ body, extras m.toHeader body = .ok m.extra := by
  rcases read_error_or_readable maxValueSize conn with ⟨_, e, h, rest', failed⟩ | ⟨readable, read⟩
  · cases failed.symm.trans accepted
  · obtain ⟨extra, ok⟩ := readable.extras
    have nonneg : 0 ≤ valueLen (header conn) := by
      by_contra negative
      cases (read.trans (readBody_panic ok (Int.not_le.1 negative))).symm.trans accepted
    obtain ⟨m', body, same, own, _⟩ := readBody_ok ok nonneg readable.whole
    cases (read.trans body).symm.trans accepted
    exact ⟨announced conn, by rw [same, own, ok]⟩

/-- `Read` panics exactly on a readable message whose header has more extras, key and name than body.
All lengths of a message that it accepts are those of the header. -/
theorem read_panics_iff (maxValueSize : Int) (conn : Bytes) :
    (read maxValueSize conn = .panic ↔ Readable maxValueSize conn ∧ valueLen (header conn) < 0) ∧
      ∀ m rest, read maxValueSize conn = .ok m rest → m.Consistent := by
  rcases read_error_or_readable maxValueSize conn with ⟨not, e, h, rest, failed⟩ | ⟨readable, read⟩
  · rw [failed]
    exact ⟨⟨nofun, fun bad => absurd bad.1 not⟩, nofun⟩
  · obtain ⟨extra, ok⟩ := readable.extras
    rw [read]
    by_cases negative : valueLen (header conn) < 0
    · rw [readBody_panic ok negative]
      exact ⟨⟨fun _ => ⟨readable, negative⟩, fun _ => rfl⟩, nofun⟩
    · obtain ⟨m, accepted, _, _, consistent⟩ := readBody_ok ok (Int.not_lt.1 negative) readable.whole
      rw [accepted]
      refine ⟨⟨nofun, fun bad => absurd bad.2 negative⟩, fun m' rest same => ?_⟩
      cases same
      exact consistent

/-- A request for a name of one byte whose body is empty. -/
theorem read_panics_on_short_body : read 1048576 [0xE2, 0, 0, 1, 0, 0, 0, 0, 0, 0, 0, 0] = .panic := by decide

end Olric.Message
