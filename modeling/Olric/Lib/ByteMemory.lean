import Mathlib.Data.List.Range

/-- A fixed-size region of bytes. Addresses at or past `size` are outside the
region; `byte` gives them an arbitrary value that no bounded access looks at. -/
structure ByteMemory where
  size : Nat
  byte : Nat → UInt8

namespace ByteMemory

def zeroed (size : Nat) : ByteMemory := ⟨size, fun _ => 0⟩

/-- Copy `bytes` to the addresses from `start` on, stopping at the end of the region. -/
def copy (m : ByteMemory) (start : Nat) (bytes : List UInt8) : ByteMemory where
  size := m.size
  byte i := if start ≤ i ∧ i < m.size then (bytes[i - start]?).getD (m.byte i) else m.byte i

def slice (m : ByteMemory) (start length : Nat) : List UInt8 :=
  (List.range length).map fun i => m.byte (start + i)

@[simp] theorem slice_length (m : ByteMemory) (start length : Nat) :
    (m.slice start length).length = length := by simp [slice]

theorem slice_getElem (m : ByteMemory) (start length i : Nat) (bound : i < (m.slice start length).length) :
    (m.slice start length)[i] = m.byte (start + i) := by simp [slice]

theorem slice_append (m : ByteMemory) (start a b : Nat) :
    m.slice start (a + b) = m.slice start a ++ m.slice (start + a) b := by
  simp [slice, List.range_add, Function.comp_def, Nat.add_assoc]

theorem slice_succ (m : ByteMemory) (start n : Nat) :
    m.slice start (n + 1) = m.byte start :: m.slice (start + 1) n := by
  rw [Nat.add_comm n 1, slice_append]
  simp [slice]

theorem copy_byte_before (m : ByteMemory) {start i : Nat} (bytes : List UInt8) (before : i < start) :
    (m.copy start bytes).byte i = m.byte i := by
  simp [copy, Nat.not_le.mpr before]

theorem copy_byte_inside (m : ByteMemory) {start i : Nat} {bytes : List UInt8}
    (fits : start + bytes.length ≤ m.size) (inside : i < bytes.length) :
    (m.copy start bytes).byte (start + i) = bytes[i] := by
  have bound : start + i < m.size := by omega
  simp [copy, bound, inside]

/-- A copy that fits is read back unchanged. -/
theorem slice_copy_self (m : ByteMemory) {start : Nat} {bytes : List UInt8}
    (fits : start + bytes.length ≤ m.size) : (m.copy start bytes).slice start bytes.length = bytes := by
  apply List.ext_getElem
  · simp
  · intro i _ inside
    rw [slice_getElem, copy_byte_inside m fits inside]

/-- A copy leaves everything below its start address alone. -/
theorem slice_copy_before (m : ByteMemory) {start lo n : Nat} (bytes : List UInt8) (before : lo + n ≤ start) :
    (m.copy start bytes).slice lo n = m.slice lo n := by
  apply List.ext_getElem
  · simp
  · intro i bound _
    rw [slice_length] at bound
    rw [slice_getElem, slice_getElem, copy_byte_before m bytes (by omega)]

/-- Two adjacent copies are one copy of the concatenation. -/
theorem copy_copy_adjacent (m : ByteMemory) (start : Nat) (first second : List UInt8) :
    (m.copy start first).copy (start + first.length) second = m.copy start (first ++ second) := by
  simp only [copy, ByteMemory.mk.injEq, true_and]
  funext i
  by_cases bound : i < m.size
  · by_cases before : i < start
    · simp [Nat.not_le.mpr before, show ¬ start + first.length ≤ i by omega]
    · have after : start ≤ i := by omega
      by_cases inFirst : i < start + first.length
      · simp [bound, after, Nat.not_le.mpr inFirst,
          List.getElem?_append_left (show i - start < first.length by omega)]
      · have past : start + first.length ≤ i := by omega
        have shift : i - start - first.length = i - (start + first.length) := by omega
        have none : first[i - start]? = none := List.getElem?_eq_none (by omega)
        simp [bound, after, past, List.getElem?_append_right (show first.length ≤ i - start by omega), shift, none]
  · simp [bound]

end ByteMemory
