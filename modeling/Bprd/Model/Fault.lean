/-
Module: Bprd.Model.Fault
Layer: Model
Purpose: The ways in which the daemon stops or leaves defined behaviour. `BPRD_LOG_ERR` exits through
  `logger_log`, a failed `assert` aborts, an integer division by zero traps, and a read or write outside
  an object is undefined behaviour in C. A function that can do one of these returns `Except Fault`.
Imports: none
Trusted boundary: human-reviewed spec
Main exports: Fault
-/

namespace Bprd

/-- An abnormal end of the process. -/
inductive Fault where
  /-- `BPRD_LOG_ERR(message)`: the message is logged and `logger_log` calls `exit(1)`. -/
  | logErr (message : String)
  /-- `assert(condition)` with a false condition. -/
  | assertion (condition : String)
  /-- Integer division or remainder by zero. -/
  | divideByZero
  /-- Use of a null pointer. -/
  | nullPointer
  /-- A copy outside the object it is meant for. -/
  | outOfBounds
deriving Repr, DecidableEq

end Bprd
