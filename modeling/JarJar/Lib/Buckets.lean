import Mathlib.Algebra.Group.Nat.Defs
import Mathlib.Data.Nat.Basic

/- Numbers sorted into consecutive buckets. Bucket `n` holds `size n` numbers and
   starts behind all the earlier ones, at `before size n`. The loop
   `while (size n <= x) { x -= size n; n++; }` finds the bucket of a number, and leaves
   the place in it. -/
namespace Buckets

def before (size : Nat → Nat) : Nat → Nat
  | 0 => 0
  | n + 1 => before size n + size n

/-- Bucket `n` has the number `x`. -/
def InBucket (size : Nat → Nat) (n x : Nat) : Prop := before size n ≤ x ∧ x < before size (n + 1)

variable {size : Nat → Nat} {m n x : Nat}

theorem before_mono (h : m ≤ n) : before size m ≤ before size n := by
  induction h with
  | refl => exact Nat.le_refl _
  | step _ ih => exact Nat.le_trans ih (Nat.le_add_right _ _)

theorem mul_le_before {c : Nat} (hc : ∀ i, c ≤ size i) : n * c ≤ before size n := by
  induction n with
  | zero => exact Nat.le_of_eq (Nat.zero_mul c)
  | succ n ih =>
    rw [Nat.succ_mul]
    exact Nat.add_le_add ih (hc n)

theorem exists_bucket (hx : x < before size n) : ∃ i, i < n ∧ InBucket size i x := by
  induction n with
  | zero => exact absurd hx (Nat.not_lt_zero x)
  | succ n ih =>
    by_cases hlast : before size n ≤ x
    · exact ⟨n, Nat.lt_succ_self n, hlast, hx⟩
    · obtain ⟨i, hi, hbucket⟩ := ih (Nat.lt_of_not_le hlast)
      exact ⟨i, Nat.lt_succ_of_lt hi, hbucket⟩

/-- The loop goes on exactly before it has reached the bucket. -/
theorem InBucket.goes_on_iff (hx : InBucket size n x) (hm : m ≤ n) :
    size m ≤ x - before size m ↔ m < n := by
  obtain ⟨hstart, hend⟩ := hx
  refine ⟨fun hle => ?_, fun hlt => ?_⟩
  · by_contra hge
    obtain rfl : m = n := Nat.le_antisymm hm (Nat.le_of_not_lt hge)
    rw [before] at hend
    omega
  · have hmono : before size (m + 1) ≤ before size n := before_mono hlt
    rw [before] at hmono
    omega

end Buckets
