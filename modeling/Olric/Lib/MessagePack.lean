import Olric.Lib.BigEndian

/-! The part of MessagePack that structs of numbers, strings, byte slices and maps need. Numbers
take nine bytes, as the encoder keeps their type. -/

namespace MessagePack

open BigEndian

def mapLen (n : Nat) : List UInt8 :=
  if n < 16 then [UInt8.ofNat (0x80 + n)]
  else if n < 65536 then 0xde :: encode 2 n
  else 0xdf :: encode 4 n

def strLen (n : Nat) : List UInt8 :=
  if n < 32 then [UInt8.ofNat (0xa0 + n)]
  else if n < 256 then 0xd9 :: encode 1 n
  else if n < 65536 then 0xda :: encode 2 n
  else 0xdb :: encode 4 n

def binLen (n : Nat) : List UInt8 :=
  if n < 256 then 0xc4 :: encode 1 n
  else if n < 65536 then 0xc5 :: encode 2 n
  else 0xc6 :: encode 4 n

def uint64 (n : UInt64) : List UInt8 := 0xcf :: encode 8 n.toNat

/-- An `int`, in two's complement. -/
def int64 (n : Int) : List UInt8 := 0xd3 :: encode 8 (n % 2 ^ 64).toNat

def str (s : List UInt8) : List UInt8 := strLen s.length ++ s

def bin (bytes : List UInt8) : List UInt8 := binLen bytes.length ++ bytes

/-- A map, from its encoded keys and values. -/
def map (entries : List (List UInt8 × List UInt8)) : List UInt8 :=
  mapLen entries.length ++ entries.flatMap fun e => e.1 ++ e.2

/-- A struct is the map of its field names to the fields. -/
def struct (fields : List (String × List UInt8)) : List UInt8 :=
  map (fields.map fun field => (str field.1.toUTF8.data.toList, field.2))

/-- The bytes in front of a map, a string and a byte slice of a given length. -/
def mapHead (n : Nat) : Nat := if n < 16 then 1 else if n < 65536 then 3 else 5

def strHead (n : Nat) : Nat := if n < 32 then 1 else if n < 256 then 2 else if n < 65536 then 3 else 5

def binHead (n : Nat) : Nat := if n < 256 then 2 else if n < 65536 then 3 else 5

@[simp] theorem mapLen_length (n : Nat) : (mapLen n).length = mapHead n := by
  unfold mapLen mapHead
  split_ifs <;> simp [encode_length]

@[simp] theorem strLen_length (n : Nat) : (strLen n).length = strHead n := by
  unfold strLen strHead
  split_ifs <;> simp [encode_length]

@[simp] theorem binLen_length (n : Nat) : (binLen n).length = binHead n := by
  unfold binLen binHead
  split_ifs <;> simp [encode_length]

@[simp] theorem uint64_length (n : UInt64) : (uint64 n).length = 9 := by simp [uint64, encode_length]

@[simp] theorem int64_length (n : Int) : (int64 n).length = 9 := by simp [int64, encode_length]

@[simp] theorem str_length (s : List UInt8) : (str s).length = strHead s.length + s.length := by simp [str]

@[simp] theorem bin_length (bytes : List UInt8) : (bin bytes).length = binHead bytes.length + bytes.length := by
  simp [bin]

theorem map_length (entries : List (List UInt8 × List UInt8)) :
    (map entries).length = mapHead entries.length + (entries.map fun e => e.1.length + e.2.length).sum := by
  simp [map, List.length_flatMap]

/-- A map whose keys and values all take the same room. -/
theorem map_length_of_uniform {α : Type} (xs : List α) (key value : α → List UInt8) {k v : Nat}
    (keys : ∀ x, (key x).length = k) (values : ∀ x, (value x).length = v) :
    (map (xs.map fun x => (key x, value x))).length = mapHead xs.length + (k + v) * xs.length := by
  rw [map_length, List.map_map, List.length_map]
  congr 1
  induction xs with
  | nil => rfl
  | cons x xs ih =>
    simp only [List.map_cons, List.sum_cons, List.length_cons, ih, Function.comp_apply, keys, values]
    ring

theorem struct_length (fields : List (String × List UInt8)) : (struct fields).length =
    mapHead fields.length + (fields.map fun field =>
      (str field.1.toUTF8.data.toList).length + field.2.length).sum := by
  rw [struct, map_length, List.length_map, List.map_map]
  rfl

end MessagePack
