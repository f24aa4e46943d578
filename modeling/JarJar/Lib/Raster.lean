import Mathlib.Algebra.Order.Field.Basic
import Mathlib.Algebra.Order.Field.Rat
import Mathlib.Algebra.Order.Ring.Int
import Mathlib.Tactic.FieldSimp
import Mathlib.Tactic.Linarith
import Mathlib.Tactic.Ring

/- A line on the grid, one step after the other. Every turn takes a step along the longer
   axis, and one along the shorter axis as well when the error of the points seen so far
   allows it. `Tracks` says how far the error can be off, `Walk` that the walk is between
   the two ends as well. From it follow how close the walk stays to the line (`Walk.near`)
   and that it meets the end of both axes in the same turn (`Walk.arrives`). -/
namespace Raster

/-- The error after `p` steps along the longer and `q` along the shorter axis. -/
structure Tracks (long short p q err : Int) : Prop where
  closed : err = (q + 1) * long - (p + 1) * short
  low : long - 2 * short ≤ 2 * err
  high : 2 * err ≤ 3 * long - 2 * short

namespace Tracks
variable {long short p q err : Int}

theorem start (hshort : 0 ≤ short) (hle : short ≤ long) :
    Tracks long short 0 0 (long - short) where
  closed := by ring
  low := by linarith
  high := by linarith

/-- The step along the longer axis is always taken. -/
theorem along (h : Tracks long short p q err) (hle : short ≤ long) : -short ≤ 2 * err := by
  have hlow := h.low
  linarith

theorem straight (h : Tracks long short p q err) (hshort : 0 ≤ short) (hfar : ¬ 2 * err ≤ long) :
    Tracks long short (p + 1) q (err - short) where
  closed := by rw [h.closed]; ring
  low := by linarith
  high := by linarith [h.high]

theorem across (h : Tracks long short p q err) (hle : short ≤ long) (hnear : 2 * err ≤ long) :
    Tracks long short (p + 1) (q + 1) (err - short + long) where
  closed := by rw [h.closed]; ring
  low := by linarith [h.low]
  high := by linarith

theorem bounded (h : Tracks long short p q err) (hle : short ≤ long) (hshort : 0 ≤ short) :
    -long ≤ 2 * err ∧ 2 * err ≤ 3 * long := by
  have hlow := h.low
  have hhigh := h.high
  exact ⟨by linarith, by linarith⟩

theorem near (h : Tracks long short p q err) : |2 * (q * long - p * short)| ≤ long := by
  have hclosed := h.closed
  have hlow := h.low
  have hhigh := h.high
  rw [abs_le]
  constructor
  · linarith
  · linarith

theorem inside (h : Tracks long short p q err) (hlong : 0 < long) (hshort : 0 ≤ short)
    (hp : 0 ≤ p) (hle : p ≤ long) : 0 ≤ q ∧ q ≤ short := by
  obtain ⟨hbelow, habove⟩ := abs_le.mp h.near
  constructor
  · by_contra hq
    have hback : q * long ≤ -1 * long := Int.mul_le_mul_of_nonneg_right (by omega) (by omega)
    have hforth : 0 ≤ p * short := Int.mul_nonneg hp hshort
    linarith
  · by_contra hq
    have hfar : (short + 1) * long ≤ q * long := Int.mul_le_mul_of_nonneg_right (by omega) (by omega)
    have hgone : p * short ≤ long * short := Int.mul_le_mul_of_nonneg_right hle hshort
    linarith

theorem arrives (h : Tracks long short long q err) (hlong : 0 < long) : q = short := by
  obtain ⟨hbelow, habove⟩ := abs_le.mp h.near
  by_contra hne
  obtain hlt | hgt := Int.lt_or_gt_of_ne hne
  · have hback : q * long ≤ (short - 1) * long :=
      Int.mul_le_mul_of_nonneg_right (by omega) (by omega)
    linarith
  · have hfar : (short + 1) * long ≤ q * long :=
      Int.mul_le_mul_of_nonneg_right (by omega) (by omega)
    linarith

theorem swap (h : Tracks long long p q err) : Tracks long long q p (-err) where
  closed := by rw [h.closed]; ring
  low := by linarith [h.high]
  high := by linarith [h.low]

end Tracks

/-- The walk is between the two ends of the line. -/
structure Walk (long short p q err : Int) : Prop extends Tracks long short p q err where
  forward : 0 ≤ p ∧ p ≤ long
  sideways : 0 ≤ q ∧ q ≤ short

namespace Walk
variable {long short p q err : Int}

theorem start (hshort : 0 ≤ short) (hle : short ≤ long) : Walk long short 0 0 (long - short) where
  toTracks := Tracks.start hshort hle
  forward := by omega
  sideways := by omega

theorem straight (h : Walk long short p q err) (hp : p < long) (hfar : ¬ 2 * err ≤ long) :
    Walk long short (p + 1) q (err - short) where
  toTracks := by
    have hsideways := h.sideways
    exact h.toTracks.straight (by omega) hfar
  forward := by
    have hforward := h.forward
    omega
  sideways := h.sideways

theorem across (h : Walk long short p q err) (hle : short ≤ long) (hp : p < long)
    (hnear : 2 * err ≤ long) : Walk long short (p + 1) (q + 1) (err - short + long) := by
  have hforward := h.forward
  have hsideways := h.sideways
  have hnext := h.toTracks.across hle hnear
  exact ⟨hnext, by omega, hnext.inside (by omega) (by omega) (by omega) (by omega)⟩

theorem swap (h : Walk long long p q err) : Walk long long q p (-err) :=
  ⟨h.toTracks.swap, h.sideways, h.forward⟩

theorem arrives (h : Walk long short long q err) (hle : short ≤ long) : q = short := by
  have hforward := h.forward
  have hsideways := h.sideways
  obtain hlong | hnone := Int.lt_or_le 0 long
  · exact h.toTracks.arrives hlong
  · omega

end Walk

/-- The height over `u` of the line from the point `(u₁, v₁)` to the point `(u₂, v₂)`. -/
def lineAt (u₁ u₂ v₁ v₂ u : Int) : ℚ := v₁ + (v₂ - v₁ : Int) * (u - u₁ : Int) / (u₂ - u₁ : Int)

/-- A direction along an axis. -/
def Sign (s : Int) : Prop := s = 1 ∨ s = -1

theorem Sign.abs_cast {s : Int} (h : Sign s) : |(s : ℚ)| = 1 := by
  obtain rfl | rfl := h <;> simp

/-- The walk is never more than half a step beside the line. -/
theorem Walk.close {long short p q err : Int} (h : Walk long short p q err) (hle : short ≤ long)
    {u v su sv : Int} (hsu : Sign su) (hsv : Sign sv) :
    |((v + sv * q : Int) : ℚ) -
      lineAt u (u + su * long) v (v + sv * short) (u + su * p)| ≤ 1 / 2 := by
  have hforward := h.forward
  have hsideways := h.sideways
  have hsquare : (su : ℚ) ≠ 0 := by
    obtain rfl | rfl := hsu <;> simp
  obtain hlong | hnone := Int.lt_or_le 0 long
  · have hpositive : (0 : ℚ) < long := by exact_mod_cast hlong
    have hdistance : ((v + sv * q : Int) : ℚ) -
        lineAt u (u + su * long) v (v + sv * short) (u + su * p) =
          sv * ((q * long - p * short : Int) / long) := by
      rw [lineAt, add_sub_cancel_left, add_sub_cancel_left, add_sub_cancel_left]
      push_cast
      field_simp
      ring
    have hnear : |((2 * (q * long - p * short) : Int) : ℚ)| ≤ long := by exact_mod_cast h.near
    rw [Int.cast_mul, abs_mul, Int.cast_ofNat, abs_two] at hnear
    rw [hdistance, abs_mul, hsv.abs_cast, one_mul, abs_div, abs_of_pos hpositive, div_le_iff₀ hpositive]
    linarith
  · obtain rfl : q = 0 := by omega
    obtain rfl : long = 0 := by omega
    simp [lineAt]

end Raster
