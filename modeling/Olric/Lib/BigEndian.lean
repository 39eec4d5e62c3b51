import Mathlib.Tactic.Ring
import Mathlib.Data.Nat.ModEq

namespace BigEndian

/-- The `k` low-order bytes of a number, most significant byte first. Higher
bytes are dropped, as a conversion to a `k`-byte word drops them. -/
def encode : Nat → Nat → List UInt8
  | 0, _ => []
  | k + 1, n => UInt8.ofNat (n / 256 ^ k) :: encode k n

def decode (bytes : List UInt8) : Nat :=
  bytes.foldl (fun acc byte => acc * 256 + byte.toNat) 0

theorem encode_length (k n : Nat) : (encode k n).length = k := by
  induction k with
  | zero => rfl
  | succ k ih => simp [encode, ih]

theorem decode_foldl_encode (k n acc : Nat) :
    (encode k n).foldl (fun acc byte => acc * 256 + byte.toNat) acc = acc * 256 ^ k + n % 256 ^ k := by
  induction k generalizing acc with
  | zero => simp [encode, Nat.mod_one]
  | succ k ih =>
    have split : n % 256 ^ (k + 1) = n % 256 ^ k + 256 ^ k * (n / 256 ^ k % 256) := by
      rw [pow_succ, Nat.mod_mul]
    simp only [encode, List.foldl_cons, ih, UInt8.toNat_ofNat', split]
    ring

/-- Reading back a written word gives the number modulo the word size. -/
theorem decode_encode (k n : Nat) : decode (encode k n) = n % 256 ^ k := by
  simp [decode, decode_foldl_encode]

theorem decode_encode_of_lt {k n : Nat} (fits : n < 256 ^ k) : decode (encode k n) = n := by
  rw [decode_encode, Nat.mod_eq_of_lt fits]

theorem encode_injective {k m n : Nat} (mFits : m < 256 ^ k) (nFits : n < 256 ^ k)
    (same : encode k m = encode k n) : m = n := by
  rw [← decode_encode_of_lt mFits, same, decode_encode_of_lt nFits]

theorem decode_foldl (bytes : List UInt8) (acc : Nat) :
    bytes.foldl (fun acc byte => acc * 256 + byte.toNat) acc = acc * 256 ^ bytes.length + decode bytes := by
  induction bytes generalizing acc with
  | nil => simp [decode]
  | cons byte bytes ih =>
    have first : decode (byte :: bytes) = byte.toNat * 256 ^ bytes.length + decode bytes := by
      rw [decode, List.foldl_cons, ih, Nat.zero_mul, Nat.zero_add]
    rw [List.foldl_cons, ih, first, List.length_cons, pow_succ]
    ring

theorem decode_cons (byte : UInt8) (bytes : List UInt8) :
    decode (byte :: bytes) = byte.toNat * 256 ^ bytes.length + decode bytes := by
  rw [decode, List.foldl_cons, decode_foldl, Nat.zero_mul, Nat.zero_add]

theorem decode_lt (bytes : List UInt8) : decode bytes < 256 ^ bytes.length := by
  induction bytes with
  | nil => simp [decode]
  | cons byte bytes ih =>
    rw [decode_cons, List.length_cons, pow_succ]
    have small : byte.toNat ≤ 255 := Nat.le_of_lt_succ byte.toNat_lt
    have scaled := Nat.mul_le_mul_right (256 ^ bytes.length) small
    omega

/-- The bytes above the word do not matter. -/
theorem encode_add (k high n : Nat) : encode k (high * 256 ^ k + n) = encode k n := by
  induction k generalizing high with
  | zero => rfl
  | succ k ih =>
    have shifted : high * 256 ^ (k + 1) + n = high * 256 * 256 ^ k + n := by ring
    have top : (high * 256 * 256 ^ k + n) / 256 ^ k = high * 256 + n / 256 ^ k := by
      rw [Nat.add_comm, Nat.add_mul_div_right _ _ (Nat.pow_pos (by decide)), Nat.add_comm]
    rw [shifted, encode, encode, ih, top]
    congr 1
    apply UInt8.toNat_inj.1
    simp only [UInt8.toNat_ofNat']
    omega

/-- Writing a word that has been read gives its bytes again. -/
theorem encode_decode (bytes : List UInt8) : encode bytes.length (decode bytes) = bytes := by
  induction bytes with
  | nil => rfl
  | cons byte bytes ih =>
    have top : (byte.toNat * 256 ^ bytes.length + decode bytes) / 256 ^ bytes.length = byte.toNat := by
      rw [Nat.add_comm, Nat.add_mul_div_right _ _ (Nat.pow_pos (by decide)), Nat.div_eq_of_lt (decode_lt bytes),
        Nat.zero_add]
    rw [decode_cons, List.length_cons, encode, encode_add, ih, top, UInt8.ofNat_toNat]

end BigEndian
