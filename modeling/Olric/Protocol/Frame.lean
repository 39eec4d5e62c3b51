import Olric.Protocol.Message

namespace Olric

theorem Header.encode_length (h : Header) : h.encode.length = headerSize := by
  simp [Header.encode, BigEndian.encode_length, headerSize]

theorem Header.decode_encode (h : Header) : Header.decode h.encode = h := by
  obtain ⟨magic, op, dmapLen, keyLen, extraLen, status, bodyLen⟩ := h
  have dmapBack := BigEndian.decode_encode_of_lt (k := 2) dmapLen.toNat_lt
  have keyBack := BigEndian.decode_encode_of_lt (k := 2) keyLen.toNat_lt
  have bodyBack := BigEndian.decode_encode_of_lt (k := 4) bodyLen.toNat_lt
  simp only [BigEndian.encode] at dmapBack keyBack bodyBack
  simp [Header.encode, Header.decode, BigEndian.encode] at *
  simp [dmapBack, keyBack, bodyBack]

theorem Extra.encode_length (e : Extra) : e.encode.length = 8 := by
  cases e <;> exact BigEndian.encode_length 8 _

/-- Whatever the opcode makes of them, the extras that `Write` puts on the wire are readable. -/
theorem readExtra_encode (op : UInt8) (e : Extra) : ∃ extra, readExtra op e.encode = .ok extra := by
  have readable : ∃ w, readWord e.encode = .ok w := by
    refine ⟨_, if_neg ?_ |>.trans (if_neg ?_)⟩
    · simp [List.isEmpty_iff, ← List.length_eq_zero_iff, e.encode_length]
    · simp [e.encode_length]
  obtain ⟨w, read⟩ := readable
  unfold readExtra
  rw [read]
  split
  · exact ⟨_, rfl⟩
  split
  · exact ⟨_, rfl⟩
  split <;> exact ⟨_, rfl⟩

namespace Message

variable {m : Message} {maxValueSize : Int} {rest : Bytes}

/-- The body length in the header of the message tells how many bytes `Write` puts after the header. -/
def Framed (m : Message) : Prop :=
  m.body.length < 2 ^ 32 ∧ (m.extra.isSome ∨ m.extraLen = 0)

instance : Decidable m.Framed := inferInstanceAs (Decidable (_ ∧ _))

theorem body_length (m : Message) :
    m.body.length = (if m.extra.isSome then 8 else 0) + m.dmap.length + m.key.length + m.value.length := by
  unfold body
  cases m.extra <;> simp [Extra.encode_length] <;> omega

theorem writeHeader_extraLen (m : Message) :
    m.writeHeader.extraLen.toNat = if m.extra.isSome then 8 else m.extraLen.toNat := by
  unfold writeHeader
  cases m.extra <;> simp

theorem writeHeader_bodyLen (m : Message) : m.writeHeader.bodyLen.toNat =
    (m.dmap.length + m.key.length + m.value.length + m.writeHeader.extraLen.toNat) % 2 ^ 32 := by
  simp [writeHeader]

theorem bodyLen_eq_iff (m : Message) : m.writeHeader.bodyLen.toNat = m.body.length ↔ m.Framed := by
  have lengths := m.body_length
  have extras := m.writeHeader_extraLen
  have short := m.extraLen.toNat_lt
  rw [writeHeader_bodyLen, Framed, ← UInt8.toNat_inj]
  cases present : m.extra.isSome <;> simp [present] at lengths extras ⊢ <;> omega

/-- What the header does not count to the name and the key counts to the value. -/
theorem valueLen_add (framed : m.Framed) :
    valueLen m.writeHeader + m.writeHeader.dmapLen.toNat + m.writeHeader.keyLen.toNat =
      m.dmap.length + m.key.length + m.value.length := by
  have total := (bodyLen_eq_iff m).2 framed
  have lengths := m.body_length
  have extras := m.writeHeader_extraLen
  have noExtra := framed.2
  rw [← UInt8.toNat_inj] at noExtra
  unfold valueLen
  cases present : m.extra.isSome <;> simp [present] at lengths extras noExtra <;> omega

theorem valueLen_of_framed (framed : m.Framed) (dmapShort : m.dmap.length < 65536) (keyShort : m.key.length < 65536) :
    valueLen m.writeHeader = m.value.length := by
  have dmapLen : m.writeHeader.dmapLen.toNat = m.dmap.length := by simp [writeHeader]; omega
  have keyLen : m.writeHeader.keyLen.toNat = m.key.length := by simp [writeHeader]; omega
  have total := valueLen_add framed
  omega

theorem valueLen_of_empty (empty : m.body = []) : valueLen m.writeHeader = 0 := by
  have lengths := m.body_length
  rw [empty, List.length_nil] at lengths
  have short := m.writeHeader.extraLen.toNat_lt
  have total := m.writeHeader_bodyLen
  have dmapLen : m.writeHeader.dmapLen.toNat = 0 := by simp [writeHeader]; omega
  have keyLen : m.writeHeader.keyLen.toNat = 0 := by simp [writeHeader]; omega
  unfold valueLen
  omega

/-- `Read` of a written message followed by anything else, by the header that `Write` filled in. -/
theorem read_write_append (known : m.magic = magicReq ∨ m.magic = magicRes) :
    read maxValueSize (m.write ++ rest) =
      if valueLen m.writeHeader > maxValueSize then .error .valueTooBig m.writeHeader (m.body ++ rest)
      else if (m.body ++ rest).length < m.writeHeader.bodyLen.toNat then .error .eof m.writeHeader []
      else readBody m.writeHeader ((m.body ++ rest).take m.writeHeader.bodyLen.toNat)
        ((m.body ++ rest).drop m.writeHeader.bodyLen.toNat) := by
  have taken : (m.write ++ rest).take headerSize = m.writeHeader.encode := by
    simp [write, ← m.writeHeader.encode_length]
  have dropped : (m.write ++ rest).drop headerSize = m.body ++ rest := by
    simp [write, ← m.writeHeader.encode_length]
  have long : ¬ (m.write ++ rest).length < headerSize := by
    simp [write, m.writeHeader.encode_length]
  have magic : ¬ (m.writeHeader.magic ≠ magicReq ∧ m.writeHeader.magic ≠ magicRes) := by
    rintro ⟨notReq, notRes⟩
    exact known.elim notReq notRes
  unfold read
  simp only [if_neg long, taken, dropped, Header.decode_encode, if_neg magic]

/-- The name and the key are as short as their fields in the header say. -/
theorem readBody_cases {h : Header} {buf : Bytes} :
    (∃ q, readBody h buf rest = .ok q rest ∧ q.dmap.length < 65536 ∧ q.key.length < 65536) ∨
      (∃ e, readBody h buf rest = .error e h rest) ∨ readBody h buf rest = .panic := by
  unfold readBody
  dsimp only
  split
  · exact .inr (.inl ⟨_, rfl⟩)
  · split
    · exact .inr (.inr rfl)
    · refine .inl ⟨_, rfl, ?_, ?_⟩
      · exact Nat.lt_of_le_of_lt (List.length_take_le ..) (UInt16.toNat_lt _)
      · exact Nat.lt_of_le_of_lt (List.length_take_le ..) (UInt16.toNat_lt _)

/-- What `Read` makes of the extras, by the opcode. -/
def extraRead (m : Message) : Except ReadError (Option Extra) :=
  m.extra.elim (.ok none) fun e => readExtra m.op e.encode

theorem writeHeader_extras (m : Message) (known : m.magic = magicReq ∨ m.extra = none) (framed : m.Framed) :
    ∃ extra, m.extraRead = .ok extra ∧ (if m.writeHeader.magic = magicReq ∧ 0 < m.writeHeader.extraLen then
      (readExtra m.writeHeader.op (m.body.take m.writeHeader.extraLen.toNat),
        m.body.drop m.writeHeader.extraLen.toNat)
    else (.ok none, m.body)) = (.ok extra, m.dmap ++ m.key ++ m.value) := by
  cases found : m.extra with
  | none =>
    have noExtra : m.writeHeader.extraLen = 0 := by simpa [writeHeader, found] using framed.2
    exact ⟨none, by simp [extraRead, found], by simp [noExtra, body, found]⟩
  | some e =>
    have magic : m.writeHeader.magic = magicReq := known.resolve_right (by simp [found])
    have eight : m.writeHeader.extraLen = 8 := by simp [writeHeader, found]
    obtain ⟨extra, read⟩ := readExtra_encode m.op e
    have parts : m.body = e.encode ++ (m.dmap ++ m.key ++ m.value) := by simp [body, found]
    have taken : m.body.take 8 = e.encode := by rw [parts, ← e.encode_length, List.take_left]
    have dropped : m.body.drop 8 = m.dmap ++ m.key ++ m.value := by rw [parts, ← e.encode_length, List.drop_left]
    refine ⟨extra, by simp [extraRead, found, read], ?_⟩
    rw [if_pos ⟨magic, by rw [eight]; decide⟩, eight]
    exact Prod.ext (by rw [← read, ← taken]; rfl) dropped

/-- The body of a framed message is read back part by part. -/
theorem readBody_framed (known : m.magic = magicReq ∨ m.extra = none) (framed : m.Framed)
    (dmapShort : m.dmap.length < 65536) (keyShort : m.key.length < 65536) :
    ∃ extra, m.extraRead = .ok extra ∧
      ∀ rest, readBody m.writeHeader m.body rest = .ok { m with toHeader := m.writeHeader, extra := extra } rest := by
  obtain ⟨extra, decoded, extras⟩ := m.writeHeader_extras known framed
  have dmapLen : m.writeHeader.dmapLen.toNat = m.dmap.length := by simp [writeHeader]; omega
  have keyLen : m.writeHeader.keyLen.toNat = m.key.length := by simp [writeHeader]; omega
  have nonneg : ¬ (m.value.length : Int) < 0 := by omega
  refine ⟨extra, decoded, fun rest => ?_⟩
  unfold readBody
  simp [extras, dmapLen, keyLen, valueLen_of_framed framed dmapShort keyShort, if_neg nonneg]

/-- `Read` of a framed message that is not too big, whatever is sent after it. -/
theorem read_written (known : m.magic = magicReq ∨ m.magic = magicRes) (own : m.magic = magicReq ∨ m.extra = none)
    (framed : m.Framed) (dmapShort : m.dmap.length < 65536) (keyShort : m.key.length < 65536)
    (small : m.value.length ≤ maxValueSize) : ∃ extra, m.extraRead = .ok extra ∧
      ∀ rest, read maxValueSize (m.write ++ rest) =
        .ok { m with toHeader := m.writeHeader, extra := extra } rest := by
  obtain ⟨extra, decoded, body⟩ := readBody_framed own framed dmapShort keyShort
  refine ⟨extra, decoded, fun rest => ?_⟩
  rw [read_write_append known, (bodyLen_eq_iff m).2 framed, valueLen_of_framed framed dmapShort keyShort,
    if_neg (by omega), if_neg (by simp)]
  simp [body]

/-- `Read` finds the connection at its end, panics, or takes at least a header off it. -/
theorem read_cases (maxValueSize : Int) (conn : Bytes) :
    (∃ h, read maxValueSize conn = .error .eof h []) ∨ read maxValueSize conn = .panic ∨
      ∃ tail, tail.length < conn.length ∧
        ((∃ q, read maxValueSize conn = .ok q tail ∧ q.dmap.length < 65536 ∧ q.key.length < 65536) ∨
          ∃ e h, read maxValueSize conn = .error e h tail) := by
  unfold read
  split
  · exact .inl ⟨_, rfl⟩
  next long =>
    rw [headerSize] at *
    have shorter : ∀ k, ((conn.drop 12).drop k).length < conn.length := by
      intro k
      simp only [List.length_drop]
      omega
    dsimp only
    split
    · exact .inr (.inr ⟨_, shorter 0, .inr ⟨_, _, rfl⟩⟩)
    split
    · exact .inr (.inr ⟨_, shorter 0, .inr ⟨_, _, rfl⟩⟩)
    split
    · exact .inl ⟨_, rfl⟩
    rcases readBody_cases with accepted | ⟨e, failed⟩ | panicked
    · exact .inr (.inr ⟨_, shorter _, .inl accepted⟩)
    · exact .inr (.inr ⟨_, shorter _, .inr ⟨e, _, failed⟩⟩)
    · exact .inr (.inl panicked)

/-- A request as clients and other members build it. -/
structure IsRequest (m : Message) : Prop where
  magic : m.magic = magicReq
  dmapShort : m.dmap.length < 65536
  keyShort : m.key.length < 65536

/-- The value is not too big and the body length is right, or a negative limit refuses a request
that has no body. -/
def Receivable (maxValueSize : Int) (m : Message) : Prop :=
  (m.value.length ≤ maxValueSize ∧ m.Framed) ∨ (m.body = [] ∧ maxValueSize < 0)

/-- A framed request that is not too big arrives, whatever is sent after it. -/
theorem read_framed (request : m.IsRequest) (small : m.value.length ≤ maxValueSize) (framed : m.Framed) :
    ∃ q, (q.op = m.op ∧ q.dmap = m.dmap ∧ q.key = m.key ∧ q.value = m.value) ∧ m.extraRead = .ok q.extra ∧
      ∀ rest, read maxValueSize (m.write ++ rest) = .ok q rest := by
  obtain ⟨extra, decoded, read⟩ := read_written (.inl request.magic) (.inl request.magic) framed request.dmapShort
    request.keyShort small
  exact ⟨{ m with toHeader := m.writeHeader, extra := extra }, ⟨rfl, rfl, rfl, rfl⟩, decoded, read⟩

theorem read_tooBig (request : m.IsRequest) (framed : m.Framed) (big : maxValueSize < m.value.length) (rest : Bytes) :
    read maxValueSize (m.write ++ rest) = .error .valueTooBig m.writeHeader (m.body ++ rest) := by
  rw [read_write_append (.inl request.magic), valueLen_of_framed framed request.dmapShort request.keyShort,
    if_pos big]

theorem read_receivable (request : m.IsRequest) (receivable : m.Receivable maxValueSize) :
    (∃ q, (q.op = m.op ∧ q.dmap = m.dmap ∧ q.key = m.key ∧ q.value = m.value) ∧
      ∀ rest, read maxValueSize (m.write ++ rest) = .ok q rest) ∨
    ∃ h, ∀ rest, read maxValueSize (m.write ++ rest) = .error .valueTooBig h rest := by
  rcases receivable with ⟨small, framed⟩ | ⟨empty, negative⟩
  · obtain ⟨q, own, _, read⟩ := read_framed request small framed
    exact .inl ⟨q, own, read⟩
  · refine .inr ⟨m.writeHeader, fun rest => ?_⟩
    rw [read_write_append (.inl request.magic), valueLen_of_empty empty, if_pos (by omega), empty, List.nil_append]

/-- If `Read` leaves exactly what was sent after the request, the request is receivable. -/
theorem receivable_of_read (request : m.IsRequest)
    (read : (∃ q, read maxValueSize (m.write ++ rest) = .ok q rest) ∨
      ∃ e h, e ≠ .eof ∧ read maxValueSize (m.write ++ rest) = .error e h rest) :
    m.Receivable maxValueSize := by
  rw [read_write_append (.inl request.magic)] at read
  split at read
  next big =>
    have empty : m.body = [] := by rcases read with ⟨q, ok⟩ | ⟨e, h, _, failed⟩ <;> simp_all
    rw [valueLen_of_empty empty] at big
    exact .inr ⟨empty, big⟩
  next small =>
    split at read
    next =>
      rcases read with ⟨q, ok⟩ | ⟨e, h, notEof, failed⟩
      · cases ok
      · cases failed
        exact absurd rfl notEof
    next long =>
      have same : (m.body ++ rest).drop m.writeHeader.bodyLen.toNat = rest := by
        rcases readBody_cases with ⟨q, ok, _⟩ | ⟨e, failed⟩ | panicked
        · rw [ok] at read
          simpa using read
        · rw [failed] at read
          rcases read with ⟨q, ok⟩ | ⟨e, h, _, failed⟩
          · cases ok
          · exact (ReadResult.error.inj failed).2.2
        · rw [panicked] at read
          simp at read
      have lengths := congrArg List.length same
      rw [List.length_drop, List.length_append] at lengths
      rw [List.length_append] at long
      have framed : m.Framed := (bodyLen_eq_iff m).1 (by omega)
      rw [valueLen_of_framed framed request.dmapShort request.keyShort] at small
      exact .inl ⟨by omega, framed⟩

end Message

end Olric
