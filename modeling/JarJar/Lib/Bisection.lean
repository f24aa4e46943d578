import Mathlib.Algebra.Group.Nat.Defs
import Mathlib.Data.Nat.Basic

/- Search by bisection. `f i` is what comparing with the `i`th of `n` things gives, and its sign
   falls. The things that are searched for, those with `f i = 0`, are kept inside of an interval
   that is halved at every turn. -/
namespace Bisection

/-- The sign does not grow from one thing to the next. -/
def Falling (f : Nat → Int) (n : Nat) : Prop :=
  ∀ i j, i ≤ j → j < n → (f j).sign ≤ (f i).sign

/-- All that is searched for stands from `lo` on, before `hi`. -/
structure Encloses (f : Nat → Int) (n lo hi : Nat) : Prop where
  le : hi ≤ n
  inside : ∀ i < n, f i = 0 → lo ≤ i ∧ i < hi

variable {f : Nat → Int} {n lo hi mid k : Nat}

theorem encloses_all (f : Nat → Int) (n : Nat) : Encloses f n 0 n :=
  ⟨Nat.le_refl n, fun i hi _ => ⟨Nat.zero_le i, hi⟩⟩

theorem Encloses.ne_zero (h : Encloses f n lo hi) (hempty : hi ≤ lo) : ∀ i < n, f i ≠ 0 := by
  intro i hi' hzero
  have hin := h.inside i hi' hzero
  omega

theorem Encloses.lower (h : Encloses f n lo hi) (hf : Falling f n) (hmid : mid < hi)
    (hneg : f mid < 0) : Encloses f n lo mid := by
  have hmid' : mid < n := Nat.lt_of_lt_of_le hmid h.le
  refine ⟨Nat.le_of_lt hmid', fun i hi' hzero => ⟨(h.inside i hi' hzero).1, ?_⟩⟩
  apply Nat.lt_of_not_le
  intro hle
  have hsign : (f i).sign ≤ (f mid).sign := hf mid i hle hi'
  rw [hzero, Int.sign_zero, Int.sign_eq_neg_one_of_neg hneg] at hsign
  exact absurd hsign (by decide)

theorem Encloses.upper (h : Encloses f n lo hi) (hf : Falling f n) (hmid : mid < hi)
    (hpos : 0 < f mid) : Encloses f n (mid + 1) hi := by
  have hmid' : mid < n := Nat.lt_of_lt_of_le hmid h.le
  refine ⟨h.le, fun i hi' hzero => ⟨?_, (h.inside i hi' hzero).2⟩⟩
  apply Nat.lt_of_not_le
  intro hle
  have hsign : (f mid).sign ≤ (f i).sign := hf i mid hle hmid'
  rw [hzero, Int.sign_zero, Int.sign_eq_one_of_pos hpos] at hsign
  exact absurd hsign (by decide)

/-- The middle of an interval that is not empty is in it, and either half of what is left has
half its width at most. -/
theorem middle_spec (hlt : lo < hi) (hwidth : hi - lo < 2^(k + 1)) (hmid : mid = lo + (hi - lo) / 2) :
    lo ≤ mid ∧ mid < hi ∧ mid - lo < 2^k ∧ hi - (mid + 1) < 2^k := by
  have hpow : 2^(k + 1) = 2 * 2^k := Nat.pow_succ'
  omega

end Bisection
