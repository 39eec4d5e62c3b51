import Olric.Cluster.BackupRead

namespace Olric

open Program

namespace Message

variable {m : Message} {maxValueSize : Int}

/-- The bytes that the header leaves to the value. The lengths of the name and of the key are
truncated to 16 bits, and what is cut off from them is counted as the value. -/
def leftToValue (m : Message) : Nat :=
  m.dmap.length / 65536 * 65536 + m.key.length / 65536 * 65536 + m.value.length

/-- The parts of a body without extras, as `Read` takes them. -/
def cutDMap (m : Message) : Bytes := (m.dmap ++ m.key ++ m.value).take (m.dmap.length % 65536)

def cutKey (m : Message) : Bytes :=
  ((m.dmap ++ m.key ++ m.value).drop (m.dmap.length % 65536)).take (m.key.length % 65536)

def cutValue (m : Message) : Bytes :=
  ((m.dmap ++ m.key ++ m.value).drop (m.dmap.length % 65536)).drop (m.key.length % 65536)

theorem writeHeader_dmapLen (m : Message) : m.writeHeader.dmapLen.toNat = m.dmap.length % 65536 := by
  simp [writeHeader]

theorem writeHeader_keyLen (m : Message) : m.writeHeader.keyLen.toNat = m.key.length % 65536 := by
  simp [writeHeader]

theorem valueLen_eq (framed : m.Framed) : valueLen m.writeHeader = m.leftToValue := by
  have total := valueLen_add framed
  have dmapLen := m.writeHeader_dmapLen
  have keyLen := m.writeHeader_keyLen
  unfold leftToValue
  omega

theorem cutKey_length (m : Message) : m.cutKey.length = m.key.length % 65536 := by
  have dmapLess := Nat.mod_le m.dmap.length 65536
  have keyLess := Nat.mod_le m.key.length 65536
  simp only [cutKey, List.length_take, List.length_drop, List.length_append]
  omega

theorem cutDMap_length (m : Message) : m.cutDMap.length = m.dmap.length % 65536 := by
  have dmapLess := Nat.mod_le m.dmap.length 65536
  simp only [cutDMap, List.length_take, List.length_append]
  omega

theorem cutValue_length (m : Message) : m.cutValue.length = m.leftToValue := by
  have dmapParts := Nat.div_add_mod m.dmap.length 65536
  have keyParts := Nat.div_add_mod m.key.length 65536
  simp only [cutValue, leftToValue, List.length_drop, List.length_append]
  omega

/-- `Read` of a framed request, however long its name and its key are. -/
theorem read_long (request : m.magic = magicReq) (framed : m.Framed) : ∃ extra, m.extraRead = .ok extra ∧
    read maxValueSize m.write = if maxValueSize < m.leftToValue then .error .valueTooBig m.writeHeader m.body
      else .ok ⟨m.writeHeader, extra, m.cutDMap, m.cutKey, m.cutValue⟩ [] := by
  obtain ⟨extra, decoded, extras⟩ := m.writeHeader_extras (.inl request) framed
  have whole : read maxValueSize m.write = read maxValueSize (m.write ++ []) := by rw [List.append_nil]
  have nonneg : ¬ (m.leftToValue : Int) < 0 := by omega
  have exact_ : m.cutValue.take m.leftToValue = m.cutValue := List.take_of_length_le (by rw [cutValue_length])
  refine ⟨extra, decoded, ?_⟩
  rw [whole, read_write_append (.inl request), valueLen_eq framed, (bodyLen_eq_iff m).2 framed, List.append_nil,
    if_neg (lt_irrefl _), List.take_length, List.drop_length]
  congr 1
  unfold readBody
  rw [extras, m.writeHeader_dmapLen, m.writeHeader_keyLen, valueLen_eq framed]
  dsimp only
  rw [if_neg nonneg, Int.toNat_natCast]
  change ReadResult.ok ⟨_, _, m.cutDMap, m.cutKey, m.cutValue.take m.leftToValue ++
    List.replicate (m.leftToValue - (m.cutValue.take m.leftToValue).length) 0⟩ _ = _
  rw [exact_, cutValue_length, Nat.sub_self, List.replicate_zero, List.append_nil]

/-- Every `Read` of what is left on the connection fails, until its end. -/
inductive Barren (maxValueSize : Int) : Bytes → Prop
  | ends {conn h rest} : read maxValueSize conn = .error .eof h rest → Barren maxValueSize conn
  | refused {conn e h rest} : read maxValueSize conn = .error e h rest → e ≠ .eof → Barren maxValueSize rest →
      Barren maxValueSize conn

/-- The first message that is not refused, with which the server may also panic. -/
inductive Takes (maxValueSize : Int) : Bytes → Option Message → Prop
  | message {conn q rest} : read maxValueSize conn = .ok q rest → Takes maxValueSize conn (some q)
  | panic {conn} : read maxValueSize conn = .panic → Takes maxValueSize conn none
  | refused {conn e h rest q} : read maxValueSize conn = .error e h rest → e ≠ .eof → Takes maxValueSize rest q →
      Takes maxValueSize conn q

theorem barren_or_takes (maxValueSize : Int) (conn : Bytes) :
    Barren maxValueSize conn ∨ ∃ q, Takes maxValueSize conn q := by
  induction length : conn.length using Nat.strong_induction_on generalizing conn with
  | _ n ih =>
    rcases read_cases maxValueSize conn with ⟨h, ended⟩ | panicked | ⟨rest, shorter, ⟨q, ok, _⟩ | ⟨e, h, failed⟩⟩
    · exact .inl (.ends ended)
    · exact .inr ⟨_, .panic panicked⟩
    · exact .inr ⟨_, .message ok⟩
    · by_cases eof : e = .eof
      · subst eof
        exact .inl (.ends failed)
      · rcases ih rest.length (length ▸ shorter) rest rfl with barren | ⟨q, takes⟩
        · exact .inl (.refused failed eof barren)
        · exact .inr ⟨q, .refused failed eof takes⟩

theorem Takes.short {conn : Bytes} {q : Option Message} (takes : Takes maxValueSize conn q) :
    ∀ m, q = some m → m.dmap.length < 65536 ∧ m.key.length < 65536 := by
  induction takes with
  | @message conn q rest read =>
    rintro m ⟨⟩
    rcases read_cases maxValueSize conn with ⟨h, ended⟩ | panicked | ⟨_, _, ⟨q, ok, short⟩ | ⟨e, h, failed⟩⟩
    · cases read.symm.trans ended
    · cases read.symm.trans panicked
    · cases read.symm.trans ok
      exact short
    · cases read.symm.trans failed
  | panic => nofun
  | refused _ _ _ ih => exact ih

/-- Bytes are barren if none that `Read` finds at the start of a header is a magic byte. -/
theorem barren_of_headers {conn : Bytes}
    (headers : ∀ k b, conn[headerSize * k]? = some b → b ≠ magicReq ∧ b ≠ magicRes) :
    Barren maxValueSize conn := by
  induction length : conn.length using Nat.strong_induction_on generalizing conn with
  | _ n ih =>
    by_cases short : conn.length < headerSize
    · exact .ends (if_pos short)
    · cases conn with
      | nil => exact absurd (by decide) short
      | cons b conn =>
        have first : b ≠ magicReq ∧ b ≠ magicRes := headers 0 b rfl
        refine .refused (h := Header.decode ((b :: conn).take headerSize))
          ((if_neg short).trans (if_pos first)) nofun ?_
        refine ih _ ?_ (fun k b' there => headers (k + 1) b' ?_) rfl
        · rw [List.length_drop]
          have : 0 < headerSize := by decide
          omega
        · rw [List.getElem?_drop] at there
          rwa [Nat.mul_succ, Nat.add_comm]

end Message

theorem requestMessage_body_length (op : UInt8) (extra : Option Extra) (dmap key value : Bytes) :
    (requestMessage op extra dmap key value).body.length =
      (extra.elim [] Extra.encode).length + (dmap.length + key.length + value.length) := by
  simp only [Message.body, requestMessage, List.length_append]
  omega

/-- The opcode and the extras of a put depend on its timeout only. -/
theorem ClientOp.put_message (timeout : Int64) : ∃ op extra, ∀ name key value,
    (ClientOp.put name key value timeout).message = requestMessage op extra name key value := by
  by_cases zero : timeout = 0
  · exact ⟨_, _, fun _ _ _ => if_pos zero⟩
  · exact ⟨_, _, fun _ _ _ => if_neg zero⟩

/-- A put arrives with the parts that `Read` takes. -/
theorem ClientOp.put_arrives {maxValueSize : Int} {name key value : Bytes} {timeout : Int64} {m : Message}
    (sent : (ClientOp.put name key value timeout).message = m) (framed : m.Framed)
    (small : m.leftToValue ≤ maxValueSize) : ∃ q, Message.read maxValueSize m.write = .ok q [] ∧
      q.request = some (.external (.put m.cutDMap m.cutKey m.cutValue timeout)) := by
  obtain ⟨op, extra, message⟩ := ClientOp.put_message timeout
  obtain rfl := (message name key value).symm.trans sent
  obtain ⟨extra', decoded, read⟩ := Message.read_long rfl framed
  rw [if_neg (Int.not_lt.2 small)] at read
  have cut (name key value : Bytes) : (Request.external (.put name key value timeout)).message =
    some (requestMessage op extra name key value) := congrArg some (message ..)
  exact ⟨_, read, Request.request_of_read (cut ..) ⟨rfl, rfl, rfl, rfl⟩ decoded⟩

/-- The put that arrives is as large as the one that was sent. -/
theorem ClientOp.put_fits {maxValueSize : Int} {name key value : Bytes} {timeout : Int64} {m : Message}
    (sent : (ClientOp.put name key value timeout).message = m) (framed : m.Framed)
    (small : m.leftToValue ≤ maxValueSize) :
    (Request.external (.put m.cutDMap m.cutKey m.cutValue timeout)).Fits maxValueSize := by
  obtain ⟨op, extra, message⟩ := ClientOp.put_message timeout
  obtain rfl := (message name key value).symm.trans sent
  have dmapLen := Message.cutDMap_length (requestMessage op extra name key value)
  have keyLen := Message.cutKey_length (requestMessage op extra name key value)
  have valueLen := Message.cutValue_length (requestMessage op extra name key value)
  refine ⟨_, congrArg some (message ..), ⟨rfl, ?_, ?_⟩, ?_, ?_, .inr rfl⟩
  · rw [requestMessage, dmapLen]
    exact Nat.mod_lt _ (by decide)
  · rw [requestMessage, keyLen]
    exact Nat.mod_lt _ (by decide)
  · rw [requestMessage, valueLen]
    exact small
  · have same := framed.1
    have dmapParts := Nat.div_add_mod name.length 65536
    have keyParts := Nat.div_add_mod key.length 65536
    rw [requestMessage_body_length] at same ⊢
    simp only [Message.leftToValue] at valueLen
    simp only [requestMessage] at dmapLen keyLen valueLen ⊢
    omega

/-- What does not change the entries of any member. -/
abbrev Setting.SameEntries : Nodes → Nodes → Prop := KeepsIn fun _ => True

namespace Setting

variable {w : Setting} {tid : Tid} {depth : Nat} {host dst : Host} {nodes nodes' : Nodes} {name key value : Bytes}
  {hkey : UInt64} {timeout : Int64}

/-- The storage refuses a large key. -/
theorem put_large {s s' : Node} {p : Place} {r : Ref} {err : Option StorageError} {entry : VData} (sound : s.Sound)
    (has : s.Has p name r) (short : entry.value.length < 2 ^ 32) (large : maxKeyLen ≤ entry.key.length)
    (run : w.acts tid s (.put r hkey entry) err s') : err ≠ none ∧ s.Keeps s' ∧ s'.view = s.view := by
  have refused : err ≠ none := by
    rintro rfl
    obtain ⟨⟨_, _, _, _, stored, _⟩, _⟩ := run
    exact absurd (Storage.put_small stored) (Nat.not_lt.2 large)
  obtain ⟨keeps, view⟩ := put_keeps sound has short run
  rw [if_neg refused] at view
  exact ⟨refused, keeps, view⟩

theorem putBackupOperation_large {s s' : Node} {cfg : Config} {timeout : Option Int64} {answer : Response}
    (sound : s.Sound) (short : value.length < 2 ^ 32) (large : maxKeyLen ≤ key.length)
    (run : (cfg.putBackupOperation hkey name key value timeout).Runs (w.acts tid) s answer s') :
    s.Keeps s' ∧ s'.view = s.view := by
  obtain ⟨dm, s₁, found, run⟩ := runs_bind.1 run
  obtain ⟨keeps₁, same₁, has⟩ := getDMap_keeps sound found
  cases dm with
  | none =>
    obtain ⟨_, rfl⟩ := run
    exact ⟨keeps₁, same₁⟩
  | some r =>
    obtain ⟨ttl, s₂, timed, run⟩ := runs_bind.1 run
    obtain ⟨rfl, rfl⟩ := ttlOf_runs timed
    obtain ⟨err, s₃, put, run⟩ := run
    obtain ⟨refused, keeps₂, same₂⟩ := put_large keeps₁.sound (has r rfl) short large put
    cases err with
    | none => exact absurd rfl refused
    | some e =>
      obtain ⟨_, rfl⟩ := run
      exact ⟨keeps₁.trans keeps₂, same₂.trans same₁⟩

/-- The backup owners refuse it. -/
theorem answers_putBackup_large {dsts : List Host} {replies : List Response} (sound : ∀ h, (nodes h).Sound)
    (short : value.length < 2 ^ 32) (large : maxKeyLen ≤ key.length)
    (fits : (Config.putBackupRequest name key value timeout).Fits w.maxValueSize)
    (run : w.answers (w.serve tid depth) (Config.putBackupRequest name key value timeout) dsts nodes replies nodes') :
    SameEntries nodes nodes' := by
  induction dsts generalizing nodes replies with
  | nil =>
    cases replies with
    | nil =>
      obtain rfl := run
      exact .refl sound
    | cons => exact run.elim
  | cons dst dsts ih =>
    cases replies with
    | nil => exact run.elim
    | cons reply replies =>
      obtain ⟨mid, first, rest⟩ := run
      rw [answer_of_fits fits] at first
      change ((w.config dst).putBackupOperation _ name key value none).Runs _ _ _ _ at first
      rw [runs_local putBackupOperation_local] at first
      obtain ⟨s', first, rfl⟩ := first
      obtain ⟨keeps, view⟩ := putBackupOperation_large (sound dst) short large first
      have same : SameEntries nodes (Function.update nodes dst s') := .update sound keeps fun _ _ _ => by rw [view]
      exact same.trans (ih same.sound rest)

theorem backUp_large {ok : Bool} (sound : ∀ h, (nodes h).Sound) (short : value.length < 2 ^ 32)
    (large : maxKeyLen ≤ key.length) (fits : (Config.putBackupRequest name key value timeout).Fits w.maxValueSize)
    (run : ((w.config host).backUp hkey name key value timeout).Runs (w.serve tid depth host) nodes ok nodes') :
    SameEntries nodes nodes' := by
  obtain ⟨depth', replies, answered⟩ := backUp_answers run
  exact answers_putBackup_large sound short large fits answered

theorem putKeyVal_large {answer : Response} (sound : ∀ h, (nodes h).Sound) (short : value.length < 2 ^ 32)
    (large : maxKeyLen ≤ key.length) (fits : (Config.putBackupRequest name key value timeout).Fits w.maxValueSize)
    (run : ((w.config host).putKeyVal hkey name key value timeout).Runs (w.serve tid depth host) nodes
      answer nodes') :
    answer = .failed ∧ SameEntries nodes nodes' := by
  obtain ⟨dm, nodes₁, found, run⟩ := runs_bind.1 run
  obtain ⟨s₁, foundHere, rfl⟩ := (runs_local getDMap_local).1 found
  obtain ⟨keeps₁, view₁, has⟩ := getDMap_keeps (sound host) foundHere
  have same₁ : SameEntries nodes (Function.update nodes host s₁) := .update sound keeps₁ fun _ _ _ => by rw [view₁]
  cases dm with
  | none =>
    obtain ⟨rfl, rfl⟩ := run
    exact ⟨rfl, same₁⟩
  | some r =>
    obtain ⟨_, nodes₂, locked, run⟩ := run
    dsimp only [ret_bind, bind_eq] at run
    obtain ⟨_, nodes₃, inner, _, nodes₄, unlocked, rfl, rfl⟩ := runs_bind.1 run
    obtain ⟨same₂, _⟩ := serve_calm (P := fun _ => True) (c := .lock r) ⟨rfl, nofun⟩ trivial same₁.sound locked
    obtain ⟨backedUp, nodes₅, backups, inner⟩ := runs_bind.1 inner
    have same₅ := backUp_large same₂.sound short large fits backups
    -- The mutex is released in every case.
    suffices failed : answer = .failed ∧ SameEntries nodes₅ nodes₃ by
      obtain ⟨same₄, _⟩ :=
        serve_calm (P := fun _ => True) (c := .unlock r) ⟨rfl, nofun⟩ trivial failed.2.sound unlocked
      exact ⟨failed.1, (((same₁.trans same₂).trans same₅).trans failed.2).trans same₄⟩
    cases backedUp with
    | false =>
      obtain ⟨rfl, rfl⟩ := inner
      exact ⟨rfl, .refl same₅.sound⟩
    | true =>
      obtain ⟨ttl, nodes₆, timed, inner⟩ := runs_bind.1 inner
      obtain ⟨s₆, timedHere, rfl⟩ := (runs_local ttlOf_local).1 timed
      obtain ⟨rfl, rfl⟩ := ttlOf_runs timedHere
      rw [Function.update_eq_self] at inner
      obtain ⟨err, nodes₇, put, inner⟩ := inner
      obtain ⟨s₇, putHere, rfl⟩ := (serve_local (c := .put ..) ⟨rfl, nofun⟩).1 put
      have has₅ : (nodes₅ host).Has ((w.config host).place false hkey) name r := by
        refine (same₅.keeps host).grows _ _ _ ((same₂.keeps host).grows _ _ _ ?_)
        rw [Function.update_self]
        exact has r rfl
      obtain ⟨refused, keeps₇, view₇⟩ := put_large (same₅.sound host) has₅ short large putHere
      cases err with
      | none => exact absurd rfl refused
      | some e =>
        obtain ⟨rfl, rfl⟩ := inner
        exact ⟨rfl, .update same₅.sound keeps₇ fun _ _ _ => by rw [view₇]⟩

/-- On the member that the routing table names, the operation runs at once. -/
theorem onOwner_here {op : ClientOp} {here : Prog Response} {answer : Response}
    (owned : (w.routing ((w.config host).place false hkey)).getLast? = some (w.config host).this)
    (run : here.Runs (w.serve tid depth host) nodes answer nodes') :
    ((w.config host).onOwner hkey op here).Runs (w.serve tid depth host) nodes answer nodes' := by
  have owners : w.serve tid depth host nodes (.owners ((w.config host).place false hkey))
      (w.routing ((w.config host).place false hkey)) nodes := by
    refine (serve_local ⟨rfl, by rintro _ ⟨⟩⟩).2 ⟨_, ⟨⟨fun _ => ?_, rfl⟩, rfl, trivial, trivial⟩, ?_⟩
    · intro empty
      rw [empty] at owned
      cases owned
    · exact (Function.update_eq_self ..).symm
  refine runs_bind.2 ⟨_, _, ⟨_, _, owners, rfl, rfl⟩, ?_⟩
  rw [owned]
  dsimp only
  rwa [if_pos rfl]

/-- A put that is not refused on its way to an owner is not refused on its way to a backup. -/
theorem putBackup_fits {maxValueSize : Int}
    (fits : (Request.external (.put name key value timeout)).Fits maxValueSize) :
    (Config.putBackupRequest name key value timeout).Fits maxValueSize := by
  obtain ⟨m, sent, request, small, framed⟩ := fits
  by_cases zero : timeout = 0
  · subst zero
    cases sent
    exact ⟨_, rfl, ⟨rfl, request.dmapShort, request.keyShort⟩, small, framed.1, .inr rfl⟩
  · obtain rfl : requestMessage OpCode.exPutEx (some (.putEx timeout)) name key value = m :=
      (if_neg zero).symm.trans (Option.some.inj sent)
    have sentBackup : (Config.putBackupRequest name key value timeout).message =
        some (requestMessage OpCode.putBackup (some (.putEx timeout)) name key value) := by
      simp only [Config.putBackupRequest, if_neg zero, Request.message, Option.map_some]
    exact ⟨_, sentBackup, ⟨rfl, request.dmapShort, request.keyShort⟩, small, framed.1, .inr rfl⟩

/-- A put with a large key fails on the owner, or as the member does that it is passed on to. -/
theorem clientPut_large_here {answer : Response} (sound : ∀ h, (nodes h).Sound) (large : maxKeyLen ≤ key.length)
    (fits : (Request.external (.put name key value timeout)).Fits w.maxValueSize)
    (passedOn : ∀ dst mid reply mid', (∀ h, (mid h).Sound) →
      w.serve tid depth host mid (.request dst (.external (.put name key value timeout))) reply mid' →
      reply = .failed ∧ SameEntries mid mid')
    (run : ((w.config host).handle w.sum64 (.external (.put name key value timeout))).Runs
      (w.serve tid depth host) nodes
      answer nodes') : answer = .failed ∧ SameEntries nodes nodes' := by
  have backup := putBackup_fits fits
  obtain ⟨inner, mid, run, rest⟩ := runs_bind.1 run
  suffices failed : inner = .failed ∧ SameEntries nodes mid by
    obtain ⟨rfl, same⟩ := failed
    obtain ⟨rfl, rfl⟩ := rest
    exact ⟨rfl, same⟩
  obtain ⟨owner, mid₁, located, run⟩ := runs_bind.1 run
  obtain ⟨owners, mid₂, routed, _, rfl⟩ := located
  obtain ⟨same, _⟩ := serve_calm (P := fun _ => True) (c := .owners _) ⟨rfl, nofun⟩ trivial sound routed
  suffices failed : inner = .failed ∧ SameEntries mid₁ mid from ⟨failed.1, same.trans failed.2⟩
  cases owner with
  | none =>
    obtain ⟨rfl, rfl⟩ := run
    exact ⟨rfl, .refl same.sound⟩
  | some member =>
    dsimp only at run
    split at run
    · exact putKeyVal_large same.sound (putBackup_short backup) large backup run
    · obtain ⟨reply, mid₃, asked, rfl, rfl⟩ := run
      exact passedOn _ _ _ _ same.sound asked

/-- Wherever a put with a large key is passed on to, it fails there. -/
theorem clientPut_large {answer : Response} (sound : ∀ h, (nodes h).Sound) (large : maxKeyLen ≤ key.length)
    (fits : (Request.external (.put name key value timeout)).Fits w.maxValueSize)
    (run : ((w.config host).handle w.sum64 (.external (.put name key value timeout))).Runs
      (w.serve tid depth host) nodes
      answer nodes') : answer = .failed ∧ SameEntries nodes nodes' := by
  induction depth generalizing host nodes answer nodes' with
  | zero =>
    refine clientPut_large_here sound large fits (fun dst mid reply mid' sound asked => ?_) run
    exact absurd asked.1.1 nofun
  | succ depth ih =>
    refine clientPut_large_here sound large fits (fun dst mid reply mid' sound asked => ?_) run
    exact ih sound ((answer_of_fits fits).1 asked)

end Setting

/-- The loop of `handleConn` on a member that gets the bytes before the peer closes the connection, with
the answers that it writes. -/
inductive Setting.HandlesConn (w : Setting) (serve : Acting) (dst : Host) :
    Bytes → Nodes → List Response → Nodes → Prop
  | closed {conn nodes h rest} : Message.read w.maxValueSize conn = .error .eof h rest →
      HandlesConn w serve dst conn nodes [] nodes
  | refused {conn nodes nodes' replies e h rest} : Message.read w.maxValueSize conn = .error e h rest → e ≠ .eof →
      HandlesConn w serve dst rest nodes replies nodes' →
          HandlesConn w serve dst conn nodes (.failed :: replies) nodes'
  | served {conn nodes mid nodes' reply replies q rest req} : Message.read w.maxValueSize conn = .ok q rest →
      q.request = some req → ((w.config dst).handle w.sum64 req).Runs (serve dst) nodes reply mid →
      HandlesConn w serve dst rest mid replies nodes' → HandlesConn w serve dst conn nodes (reply :: replies) nodes'

namespace Setting

variable {w : Setting} {serve : Acting} {dst : Host} {conn : Bytes} {nodes nodes' : Nodes} {replies : List Response}

theorem handlesConn_barren (barren : Message.Barren w.maxValueSize conn) :
    ∃ replies, w.HandlesConn serve dst conn nodes replies nodes := by
  induction barren with
  | ends read => exact ⟨[], .closed read⟩
  | refused read notEof _ ih =>
    obtain ⟨replies, run⟩ := ih
    exact ⟨_, .refused read notEof run⟩

theorem HandlesConn.barren (run : w.HandlesConn serve dst conn nodes replies nodes')
    (barren : Message.Barren w.maxValueSize conn) : nodes' = nodes := by
  induction run with
  | closed => rfl
  | refused read notEof _ ih =>
    cases barren with
    | ends read' =>
      cases read.symm.trans read'
      exact absurd rfl notEof
    | refused read' _ rest =>
      cases read.symm.trans read'
      exact ih rest
  | served read =>
    cases barren with
    | ends read' | refused read' => cases read.symm.trans read'

end Setting

/-- The header leaves more to the value than the receiver takes, and `Read` finds no other message in the
body, which stays on the connection. -/
def Message.Refused (maxValueSize : Int) (m : Message) : Prop :=
  maxValueSize < m.leftToValue ∧ Barren maxValueSize m.body

/-- A put whose key is too large for the storage, also with a truncated length. -/
def ClientOp.KeyTooLarge : ClientOp → Prop
  | .put _ key _ _ => maxKeyLen ≤ key.length % 65536
  | _ => False

theorem ClientOp.message_magic (op : ClientOp) : op.message.magic = magicReq := by
  cases op with
  | put name key value timeout =>
    obtain ⟨op, extra, message⟩ := ClientOp.put_message timeout
    rw [message]
    rfl
  | get | delete | lockWithTimeout | unlock => rfl

/-- The message is refused, or its key is too large for the storage in any case. -/
def ClientOp.Fails (maxValueSize : Int) (op : ClientOp) : Prop :=
  op.message.Refused maxValueSize ∨ op.message.leftToValue ≤ maxValueSize ∧ op.KeyTooLarge

/-- A put that fails is refused, or its key is refused wherever it is put. -/
theorem ClientOp.Fails.handled {w : Setting} {tid : Tid} {depth : Nat} {dst : Host} {nodes nodes' : Nodes}
    {op : ClientOp} {replies : List Response} (sound : ∀ h, (nodes h).Sound) (framed : op.message.Framed)
    (fails : op.Fails w.maxValueSize)
    (run : w.HandlesConn (w.serve tid depth) dst op.message.write nodes replies nodes') :
    (∃ later, replies = .failed :: later) ∧ ∀ h, (nodes' h).view = (nodes h).view := by
  obtain ⟨extra, _, read⟩ := Message.read_long op.message_magic framed
  rcases fails with ⟨big, barren⟩ | ⟨small, large⟩
  · rw [if_pos big] at read
    cases run with
    | closed read' => cases read.symm.trans read'
    | served read' => cases read.symm.trans read'
    | refused read' _ rest =>
      cases read.symm.trans read'
      obtain rfl := rest.barren barren
      exact ⟨⟨_, rfl⟩, fun _ => rfl⟩
  · cases op with
    | get | delete | lockWithTimeout | unlock => exact large.elim
    | put name key value timeout =>
      obtain ⟨q, read, request⟩ := ClientOp.put_arrives rfl framed small
      have fits := ClientOp.put_fits rfl framed small
      have cutLarge : maxKeyLen ≤ (ClientOp.put name key value timeout).message.cutKey.length := by
        obtain ⟨op, extra, message⟩ := ClientOp.put_message timeout
        rw [Message.cutKey_length, message]
        exact large
      cases run with
      | closed read' => cases read.symm.trans read'
      | refused read' => cases read.symm.trans read'
      | served read' request' handled rest =>
        cases read.symm.trans read'
        cases request.symm.trans request'
        obtain ⟨rfl, same⟩ := Setting.clientPut_large sound cutLarge fits handled
        obtain rfl := rest.barren (.ends rfl)
        exact ⟨⟨_, rfl⟩, fun h => funext fun p => funext fun name => same.views h p name trivial⟩

/-- The name or the key is longer than its field in the header can say. -/
def Message.Long (m : Message) : Prop := 65536 ≤ m.dmap.length ∨ 65536 ≤ m.key.length

/-- Otherwise the server takes a message out of the bytes that nobody has sent, or it panics. -/
theorem ClientOp.taken_of_not_fails {maxValueSize : Int} {op : ClientOp} (framed : op.message.Framed)
    (long : op.message.Long) (fails : ¬ op.Fails maxValueSize) : ∃ q, Message.Takes maxValueSize op.message.write q ∧
      ∀ m, q = some m → m.dmap ≠ op.message.dmap ∨ m.key ≠ op.message.key := by
  obtain ⟨extra, _, read⟩ := Message.read_long op.message_magic framed
  obtain ⟨q, takes⟩ : ∃ q, Message.Takes maxValueSize op.message.write q := by
    by_cases big : maxValueSize < op.message.leftToValue
    · rw [if_pos big] at read
      rcases Message.barren_or_takes maxValueSize op.message.body with barren | ⟨q, takes⟩
      · exact absurd (.inl ⟨big, barren⟩) fails
      · exact ⟨q, .refused read nofun takes⟩
    · rw [if_neg big] at read
      exact ⟨_, .message read⟩
  refine ⟨q, takes, fun m same => ?_⟩
  obtain ⟨dmapShort, keyShort⟩ := takes.short m same
  rcases long with long | long
  · refine .inl fun same => ?_
    rw [same] at dmapShort
    omega
  · refine .inr fun same => ?_
    rw [same] at keyShort
    omega

end Olric
