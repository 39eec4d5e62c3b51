import Olric.Basic
import Olric.Lib.BigEndian

namespace Olric

def magicReq : UInt8 := 0xE2
def magicRes : UInt8 := 0xE3

namespace OpCode

def exPut : UInt8 := 0
def exPutEx : UInt8 := 1
def exGet : UInt8 := 2
def exDelete : UInt8 := 3
def exDestroy : UInt8 := 4
def exLockWithTimeout : UInt8 := 5
def exUnlock : UInt8 := 6
def exIncr : UInt8 := 7
def exDecr : UInt8 := 8
def exGetPut : UInt8 := 9
def updateRouting : UInt8 := 10
def putBackup : UInt8 := 11
def deletePrev : UInt8 := 12
def getPrev : UInt8 := 13
def getBackup : UInt8 := 14
def findLock : UInt8 := 15
def lockPrev : UInt8 := 16
def unlockPrev : UInt8 := 17
def deleteBackup : UInt8 := 18
def destroyDMap : UInt8 := 19
def moveDMap : UInt8 := 20
def backupMoveDMap : UInt8 := 21
def isPartEmpty : UInt8 := 22
def isBackupEmpty : UInt8 := 23

end OpCode

def statusOK : UInt8 := 0
def statusInternalServerError : UInt8 := 1

def headerSize : Nat := 12

structure Header where
  magic : UInt8
  op : UInt8
  dmapLen : UInt16
  keyLen : UInt16
  extraLen : UInt8
  status : UInt8
  bodyLen : UInt32
deriving DecidableEq

/-- The extras a message can carry; each is one 8-byte word on the wire. -/
inductive Extra
  | lockWithTimeout (ttl : Int64)
  | putEx (ttl : Int64)
  | isPartEmpty (partID : UInt64)
deriving DecidableEq

structure Message extends Header where
  extra : Option Extra
  dmap : Bytes
  key : Bytes
  value : Bytes
deriving DecidableEq

inductive ReadError
  | eof
  | unexpectedEOF
  | invalidMessage
  | valueTooBig
deriving DecidableEq

/-- The text of the error. -/
def ReadError.text : ReadError → String
  | .eof => "EOF"
  | .unexpectedEOF => "unexpected EOF"
  | .invalidMessage => "invalid message"
  | .valueTooBig => "value too big"

/-- What `Read` leaves behind: the message, or the header of a message that was refused, and the
bytes of the connection that are still unread. A negative value length panics in `make`. -/
inductive ReadResult
  | ok (m : Message) (rest : Bytes)
  | error (e : ReadError) (h : Header) (rest : Bytes)
  | panic
deriving DecidableEq

def Header.encode (h : Header) : Bytes :=
  [h.magic, h.op] ++ BigEndian.encode 2 h.dmapLen.toNat ++ BigEndian.encode 2 h.keyLen.toNat ++
    [h.extraLen, h.status] ++ BigEndian.encode 4 h.bodyLen.toNat

def Header.decode (raw : Bytes) : Header where
  magic := raw.getD 0 0
  op := raw.getD 1 0
  dmapLen := UInt16.ofNat (BigEndian.decode ((raw.drop 2).take 2))
  keyLen := UInt16.ofNat (BigEndian.decode ((raw.drop 4).take 2))
  extraLen := raw.getD 6 0
  status := raw.getD 7 0
  bodyLen := UInt32.ofNat (BigEndian.decode ((raw.drop 8).take 4))

def Extra.encode : Extra → Bytes
  | .lockWithTimeout ttl => BigEndian.encode 8 ttl.toUInt64.toNat
  | .putEx ttl => BigEndian.encode 8 ttl.toUInt64.toNat
  | .isPartEmpty partID => BigEndian.encode 8 partID.toNat

/-- `binary.Read` of one 8-byte field. -/
def readWord (raw : Bytes) : Except ReadError UInt64 :=
  if raw.isEmpty then .error .eof
  else if raw.length < 8 then .error .unexpectedEOF
  else .ok (UInt64.ofNat (BigEndian.decode (raw.take 8)))

/-- The extras of a request, by opcode. Other opcodes skip the bytes. -/
def readExtra (op : UInt8) (raw : Bytes) : Except ReadError (Option Extra) :=
  if op = OpCode.exPutEx then (readWord raw).map fun w => some (.putEx w.toInt64)
  else if op = OpCode.exLockWithTimeout ∨ op = OpCode.lockPrev then
    (readWord raw).map fun w => some (.lockWithTimeout w.toInt64)
  else if op = OpCode.isPartEmpty ∨ op = OpCode.isBackupEmpty then
    (readWord raw).map fun w => some (.isPartEmpty w)
  else .ok none

namespace Message

/-- The value length that the header implies. -/
def valueLen (h : Header) : Int :=
  (h.bodyLen.toNat : Int) - h.extraLen.toNat - h.keyLen.toNat - h.dmapLen.toNat

/-- The part of `Read` after the body bytes are in the buffer. -/
def readBody (h : Header) (buf rest : Bytes) : ReadResult :=
  let extras := if h.magic = magicReq ∧ 0 < h.extraLen then
      (readExtra h.op (buf.take h.extraLen.toNat), buf.drop h.extraLen.toNat)
    else (.ok none, buf)
  match extras with
  | (.error e, _) => .error e h rest
  | (.ok extra, buf) =>
    let dmap := buf.take h.dmapLen.toNat
    let buf := buf.drop h.dmapLen.toNat
    let key := buf.take h.keyLen.toNat
    let buf := buf.drop h.keyLen.toNat
    let vlen := valueLen h
    if vlen < 0 then .panic
    else
      let value := buf.take vlen.toNat
      .ok { h with extra, dmap, key, value := value ++ List.replicate (vlen.toNat - value.length) 0 } rest

/-- Read one message from what is left on the connection, after which the peer has closed it. -/
def read (maxValueSize : Int) (conn : Bytes) : ReadResult :=
  if conn.length < headerSize then .error .eof ⟨0, 0, 0, 0, 0, 0, 0⟩ []
  else
    let h := Header.decode (conn.take headerSize)
    let conn := conn.drop headerSize
    if h.magic ≠ magicReq ∧ h.magic ≠ magicRes then .error .invalidMessage h conn
    else if valueLen h > maxValueSize then .error .valueTooBig h conn
    else if conn.length < h.bodyLen.toNat then .error .eof h []
    else readBody h (conn.take h.bodyLen.toNat) (conn.drop h.bodyLen.toNat)

/-- The header fields that `Write` fills in. -/
def writeHeader (m : Message) : Header :=
  let extraLen := if m.extra.isSome then UInt8.ofNat 8 else m.extraLen
  { m.toHeader with
    dmapLen := UInt16.ofNat m.dmap.length
    keyLen := UInt16.ofNat m.key.length
    extraLen := extraLen
    bodyLen := UInt32.ofNat (m.dmap.length + m.key.length + m.value.length + extraLen.toNat) }

def body (m : Message) : Bytes := (m.extra.elim [] Extra.encode) ++ m.dmap ++ m.key ++ m.value

def write (m : Message) : Bytes := m.writeHeader.encode ++ m.body

end Message

/-- The response built by `Error`, with the text of the error as its value. -/
def Header.error (h : Header) (status : UInt8) (text : String) : Message where
  toHeader := ⟨magicRes, h.op, 0, 0, 0, status, 0⟩
  extra := none
  dmap := []
  key := []
  value := text.toUTF8.data.toList

/-- The response built by `Success`. -/
def Header.success (h : Header) : Message where
  toHeader := ⟨magicRes, h.op, 0, 0, 0, statusOK, 0⟩
  extra := none
  dmap := []
  key := []
  value := []

end Olric
