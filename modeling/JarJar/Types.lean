import Mathlib.Algebra.Group.Nat.Defs
import Mathlib.Data.Nat.Basic

/- The base types of the kernel: the fixed-width integers every module computes
   with, the result codes of the kernel calls and the window through which the
   kernel reaches physical memory.

   Correspondence (C ↔ Lean):
     `u8`, `u16`, `u32`, `u64`     ↔ `U8`, `U16`, `U32`, `U64` (bit vectors, wrapping)
     `jar_result_t`                ↔ `JarResult`, `JarResult.code`
     `PHYS_TO_VIRT`                ↔ `physToVirt` -/
namespace JarJar

abbrev U8 := BitVec 8
abbrev U16 := BitVec 16
abbrev U32 := BitVec 32
abbrev U64 := BitVec 64

/-- The result of a kernel operation. -/
inductive JarResult where
  | ok | error | nomem | inval | notfound | exists | access | busy | timeout | io | corrupt | learning
  deriving DecidableEq, Repr

/-- The value a result has in C. -/
def JarResult.code : JarResult → Int
  | .ok => 0
  | .error => -1
  | .nomem => -2
  | .inval => -3
  | .notfound => -4
  | .exists => -5
  | .access => -6
  | .busy => -7
  | .timeout => -8
  | .io => -9
  | .corrupt => -10
  | .learning => -11

/-- Where the kernel's window onto physical memory starts. -/
def kernelVirtualBase : U64 := 0xFFFF800000000000#64

/-- The address through which the kernel reaches physical address `addr`. -/
def physToVirt (addr : U64) : U64 := addr + kernelVirtualBase

theorem physToVirt_inj {a b : U64} (h : physToVirt a = physToVirt b) : a = b := by
  simpa [physToVirt] using h

end JarJar
