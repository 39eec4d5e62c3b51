import Mathlib.Tactic.Common

namespace Olric

/-- A Go string or byte slice. -/
abbrev Bytes := List UInt8

/-- How a call ends without returning: a Go panic, or a loop that is still
running when the outcomes of system calls it was given are used up. -/
inductive Halt
  | panic
  | running
deriving DecidableEq

end Olric
