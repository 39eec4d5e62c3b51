import Mathlib.Data.Finmap
import Olric.Basic
import Olric.Lib.BigEndian
import Olric.Lib.ByteMemory

namespace Olric

structure VData where
  key : Bytes
  ttl : Int64
  value : Bytes
deriving DecidableEq

inductive StorageError
  | notEnoughSpace
  | keyTooLarge
  | keyNotFound
  | fragmented
  | mmap
deriving DecidableEq

def maxKeyLen : Nat := 256

def minimumSize : Int := 2 ^ 20

/-- One mmap'd region with its index. `inuse` and `garbage` are Go `int`s that
`delete` adjusts in opposite directions, so they are kept signed. -/
structure Table where
  hkeys : Finmap fun _ : UInt64 => Nat
  memory : ByteMemory
  offset : Nat
  allocated : Nat
  inuse : Int
  garbage : Int

/-- `mmapOk` is the outcome of the mmap system call in `malloc`. -/
def newTable (mmapOk : Bool) (size : Int) : Except StorageError Table :=
  let size := if size < minimumSize then minimumSize else size
  if mmapOk then
    .ok { hkeys := ∅, memory := .zeroed size.toNat, offset := 0, allocated := size.toNat, inuse := 0, garbage := 0 }
  else .error .mmap

namespace Table

/-- The recurring pair `copy(t.memory[t.offset:], bytes); t.offset += len(bytes)`. -/
def append (t : Table) (bytes : Bytes) : Table :=
  { t with memory := t.memory.copy t.offset bytes, offset := t.offset + bytes.length }

def putRaw (t : Table) (hkey : UInt64) (value : Bytes) : Except StorageError Table :=
  let inuse := value.length
  if t.allocated ≤ inuse + t.offset then .error .notEnoughSpace
  else
    let t := { t with hkeys := t.hkeys.insert hkey t.offset, inuse := t.inuse + inuse }
    .ok (t.append value)

/-- The returned flag is the source's `prev`: the key is not here, try an older table. -/
def delete (t : Table) (hkey : UInt64) : Bool × Table :=
  match t.hkeys.lookup hkey with
  | none => (true, t)
  | some offset =>
    let klen := (t.memory.byte offset).toNat
    let offset := offset + (1 + klen) + 8
    let vlen := BigEndian.decode (t.memory.slice offset 4)
    let garbage := 1 + klen + 8 + (4 + vlen)
    (false, { t with hkeys := t.hkeys.erase hkey, garbage := t.garbage + garbage, inuse := t.inuse - garbage })

def put (t : Table) (hkey : UInt64) (value : VData) : Except StorageError Table :=
  if maxKeyLen ≤ value.key.length then .error .keyTooLarge
  else
    let inuse := value.key.length + value.value.length + 13
    if t.allocated ≤ inuse + t.offset then .error .notEnoughSpace
    else
      let t := if hkey ∈ t.hkeys then (t.delete hkey).2 else t
      let t := { t with hkeys := t.hkeys.insert hkey t.offset, inuse := t.inuse + inuse }
      let t := t.append [UInt8.ofNat value.key.length]
      let t := t.append value.key
      let t := t.append (BigEndian.encode 8 value.ttl.toUInt64.toNat)
      let t := t.append (BigEndian.encode 4 value.value.length)
      .ok (t.append value.value)

/-- The copy is one byte longer than the entry: `make([]byte, (end-start)+1)`. -/
def getRaw (t : Table) (hkey : UInt64) : Option Bytes :=
  (t.hkeys.lookup hkey).map fun start =>
    let klen := (t.memory.byte start).toNat
    let stop := start + 1 + klen + 8
    let vlen := BigEndian.decode (t.memory.slice stop 4)
    let stop := stop + 4 + vlen
    t.memory.slice start (stop - start) ++ [0]

def get (t : Table) (hkey : UInt64) : Option VData :=
  (t.hkeys.lookup hkey).map fun offset =>
    let klen := (t.memory.byte offset).toNat
    let offset := offset + 1
    let key := t.memory.slice offset klen
    let offset := offset + klen
    let ttl := (UInt64.ofNat (BigEndian.decode (t.memory.slice offset 8))).toInt64
    let offset := offset + 8
    let vlen := BigEndian.decode (t.memory.slice offset 4)
    let offset := offset + 4
    { key, ttl, value := t.memory.slice offset vlen }

end Table

end Olric
