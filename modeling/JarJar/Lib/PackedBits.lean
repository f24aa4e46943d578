import Mathlib.Logic.Function.Basic

/- A bit array packed eight to a byte: bit `i` is bit `i % 8` of byte `i / 8`.
   The two updates touch one byte each and change one bit of it. -/
namespace PackedBits

/-- Bit `i` of the array. -/
def bit (m : Nat → BitVec 8) (i : Nat) : Bool := (m (i / 8)).getLsbD (i % 8)

/-- The byte whose only one is bit `i % 8`. -/
def mask (i : Nat) : BitVec 8 := 1#8 <<< (i % 8)

/-- The array with bit `i` set. -/
def setBit (m : Nat → BitVec 8) (i : Nat) : Nat → BitVec 8 :=
  Function.update m (i / 8) (m (i / 8) ||| mask i)

/-- The array with bit `i` cleared. -/
def clearBit (m : Nat → BitVec 8) (i : Nat) : Nat → BitVec 8 :=
  Function.update m (i / 8) (m (i / 8) &&& ~~~mask i)

theorem mask_getLsbD (i k : Nat) : (mask i).getLsbD k = decide (k = i % 8) := by
  have hi : i % 8 < 8 := Nat.mod_lt i (by decide)
  by_cases hk : k = i % 8
  · subst hk; simp [mask, hi]
  · simp [mask, hk]; omega

/-- Two positions are one when byte and offset agree. -/
theorem position_eq {i j : Nat} : j = i ↔ j / 8 = i / 8 ∧ j % 8 = i % 8 := by omega

theorem and_mask_eq_zero (m : Nat → BitVec 8) (i : Nat) :
    m (i / 8) &&& mask i = 0#8 ↔ bit m i = false := by
  have hi : i % 8 < 8 := Nat.mod_lt i (by decide)
  constructor
  · intro h
    have := congrArg (fun b => BitVec.getLsbD b (i % 8)) h
    simpa [mask_getLsbD, bit] using this
  · intro h
    apply BitVec.eq_of_getLsbD_eq
    intro k hk
    by_cases hki : k = i % 8
    · subst hki
      rw [BitVec.getLsbD_and, show (m (i / 8)).getLsbD (i % 8) = false from h]
      simp
    · simp [mask_getLsbD, hki]

@[simp] theorem bit_setBit (m : Nat → BitVec 8) (i j : Nat) :
    bit (setBit m i) j = (decide (j = i) || bit m j) := by
  have hj : j % 8 < 8 := Nat.mod_lt j (by decide)
  by_cases hb : j / 8 = i / 8
  · simp [bit, setBit, hb, mask_getLsbD, position_eq (i := i), Bool.or_comm]
  · have hne : j ≠ i := fun h => hb (by rw [h])
    simp [bit, setBit, hb, hne]

@[simp] theorem bit_clearBit (m : Nat → BitVec 8) (i j : Nat) :
    bit (clearBit m i) j = (!decide (j = i) && bit m j) := by
  have hj : j % 8 < 8 := Nat.mod_lt j (by decide)
  by_cases hb : j / 8 = i / 8
  · simp only [bit, clearBit, hb, Function.update_self, BitVec.getLsbD_and, BitVec.getLsbD_not,
      mask_getLsbD, hj, decide_true, Bool.true_and, position_eq (i := i) (j := j), true_and]
    exact Bool.and_comm _ _
  · have hne : j ≠ i := fun h => hb (by rw [h])
    simp [bit, clearBit, hb, hne]

end PackedBits
