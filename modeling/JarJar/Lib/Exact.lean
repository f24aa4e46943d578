import Mathlib.Algebra.Group.Nat.Defs
import Mathlib.Data.Nat.Basic

/- Machine arithmetic that remembers whether it was exact. A computation with words
   of `w` bits carries, beside its value, whether every operation in it had the
   value it has on the natural numbers: no sum or product reached 2^w, no
   subtraction went below zero and nothing was divided by zero. `Holds x P` says
   that `x` was exact and that its value satisfies `P`; the rules take a computation
   apart one operation at a time, each with its own side condition. -/
namespace MachineArith

structure Traced (α : Type) where
  val : α
  wasExact : Bool

instance : Monad Traced where
  pure a := ⟨a, true⟩
  bind x f := ⟨(f x.val).val, x.wasExact && (f x.val).wasExact⟩

section Operations
variable {w : Nat}

def add (a b : BitVec w) : Traced (BitVec w) := ⟨a + b, a.toNat + b.toNat < 2^w⟩
def sub (a b : BitVec w) : Traced (BitVec w) := ⟨a - b, b.toNat ≤ a.toNat⟩
def mul (a b : BitVec w) : Traced (BitVec w) := ⟨a * b, a.toNat * b.toNat < 2^w⟩
def div (a b : BitVec w) : Traced (BitVec w) := ⟨a / b, b.toNat ≠ 0⟩

end Operations

def Holds {α : Type} (x : Traced α) (P : α → Prop) : Prop := x.wasExact = true ∧ P x.val

section Rules
variable {α β : Type} {w : Nat} {a b : BitVec w} {P : α → Prop} {Q : β → Prop}

theorem Holds.pure {v : α} (h : P v) : Holds (Pure.pure v) P := ⟨rfl, h⟩

theorem Holds.bind {x : Traced α} {f : α → Traced β} (hx : Holds x P)
    (hf : ∀ v, P v → Holds (f v) Q) : Holds (x >>= f) Q := by
  obtain ⟨hexact, hv⟩ := hx
  obtain ⟨hexact', hq⟩ := hf x.val hv
  refine ⟨?_, hq⟩
  show (x.wasExact && (f x.val).wasExact) = true
  rw [hexact, hexact']
  rfl

theorem holds_add (h : a.toNat + b.toNat < 2^w) :
    Holds (add a b) fun c => c.toNat = a.toNat + b.toNat := by
  refine ⟨decide_eq_true h, ?_⟩
  show (a + b).toNat = _
  rw [BitVec.toNat_add, Nat.mod_eq_of_lt h]

theorem holds_sub (h : b.toNat ≤ a.toNat) :
    Holds (sub a b) fun c => c.toNat = a.toNat - b.toNat :=
  ⟨decide_eq_true h, BitVec.toNat_sub_of_le h⟩

theorem holds_mul (h : a.toNat * b.toNat < 2^w) :
    Holds (mul a b) fun c => c.toNat = a.toNat * b.toNat := by
  refine ⟨decide_eq_true h, ?_⟩
  show (a * b).toNat = _
  rw [BitVec.toNat_mul, Nat.mod_eq_of_lt h]

theorem holds_div (h : b.toNat ≠ 0) :
    Holds (div a b) fun c => c.toNat = a.toNat / b.toNat :=
  ⟨decide_eq_true h, BitVec.toNat_udiv⟩

end Rules

end MachineArith
