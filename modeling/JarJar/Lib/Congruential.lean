import Mathlib.Algebra.Group.Int.Even
import Mathlib.Algebra.Order.Ring.Int
import Mathlib.Data.Finset.Card
import Mathlib.Data.Int.ModEq
import Mathlib.Data.Nat.Count
import Mathlib.Data.Nat.ModEq
import Mathlib.Logic.Function.Iterate
import Mathlib.RingTheory.Coprime.Lemmas
import Mathlib.Tactic.LinearCombination
import Mathlib.Tactic.Ring

/- Linear congruential generators modulo a power of two. `n` steps from `x` add to it the
   sum of the first `n` powers of the multiplier, times an odd number (`iterate_sub`). The
   sum has as many factors of two as `n` (`two_pow_dvd_powers`). So the states modulo `2^k`
   come round every `2^k` steps and no sooner (`iterate_modEq_iff`), whatever the start, and in
   one such round each of the `2^k` states comes once (`count_states`). -/
namespace Congruential

/-- One step. -/
def next (a c x : ℤ) : ℤ := a * x + c

/-- The sum of the first `n` powers of `a`. -/
def powers (a : ℤ) : ℕ → ℤ
  | 0 => 0
  | n + 1 => a * powers a n + 1

variable {a c x : ℤ} {m n k : ℕ}

theorem iterate_sub (a c x : ℤ) (n : ℕ) :
    (next a c)^[n] x - x = powers a n * ((a - 1) * x + c) := by
  induction n with
  | zero => simp [powers]
  | succ n ih =>
    rw [Function.iterate_succ_apply', powers, next]
    linear_combination a * ih

theorem powers_add (a : ℤ) (m n : ℕ) : powers a (m + n) = a ^ n * powers a m + powers a n := by
  induction n with
  | zero => simp [powers]
  | succ n ih =>
    rw [← Nat.add_assoc, powers, powers, ih]
    ring

theorem powers_double (a : ℤ) (m : ℕ) : powers a (2 * m) = (a ^ m + 1) * powers a m := by
  rw [Nat.two_mul, powers_add]
  ring

theorem pow_mod_four (ha : a % 4 = 1) (m : ℕ) : a ^ m % 4 = 1 := by
  have hmod : a ≡ 1 [ZMOD 4] := ha
  calc a ^ m % 4 = 1 ^ m % 4 := hmod.pow m
    _ = 1 := by rw [one_pow]; rfl

theorem powers_mod_two (ha : a % 2 = 1) (n : ℕ) : powers a n % 2 = n % 2 := by
  induction n with
  | zero => rfl
  | succ n ih =>
    rw [powers, Int.add_emod, Int.mul_emod, ha, one_mul, ih]
    push_cast
    omega

theorem two_pow_dvd_mul_odd {u v : ℤ} (hu : u % 2 = 1) : 2 ^ k ∣ u * v ↔ 2 ^ k ∣ v := by
  have hcoprime : IsCoprime (2 ^ k) u := by
    apply IsCoprime.pow_left
    exact ⟨-(u / 2), 1, by omega⟩
  exact ⟨hcoprime.dvd_of_dvd_mul_left, fun h => Dvd.dvd.mul_left h u⟩

theorem two_pow_dvd_powers (ha : a % 4 = 1) : (2 : ℤ) ^ k ∣ powers a n ↔ 2 ^ k ∣ n := by
  induction k generalizing n with
  | zero => simp
  | succ k ih =>
    obtain ⟨m, rfl | rfl⟩ := Nat.even_or_odd' n
    · have hfour := pow_mod_four ha m
      obtain ⟨u, hu⟩ : ∃ u, a ^ m + 1 = 2 * u := ⟨(a ^ m + 1) / 2, by omega⟩
      have hodd : u % 2 = 1 := by omega
      calc (2 : ℤ) ^ (k + 1) ∣ powers a (2 * m)
          ↔ 2 * 2 ^ k ∣ 2 * (u * powers a m) := by rw [powers_double, hu, pow_succ', mul_assoc]
        _ ↔ 2 ^ k ∣ u * powers a m := mul_dvd_mul_iff_left two_ne_zero
        _ ↔ 2 ^ k ∣ powers a m := two_pow_dvd_mul_odd hodd
        _ ↔ 2 ^ k ∣ m := ih
        _ ↔ 2 ^ (k + 1) ∣ 2 * m := by rw [pow_succ', Nat.mul_dvd_mul_iff_left Nat.two_pos]
    · have hsum := powers_mod_two (a := a) (by omega) (2 * m + 1)
      refine ⟨fun h => ?_, fun h => ?_⟩
      · have htwo := (Dvd.intro_left (2 ^ k) (pow_succ 2 k).symm).trans h
        omega
      · have htwo := (Dvd.intro_left (2 ^ k) (pow_succ 2 k).symm).trans h
        omega

theorem returns_iff (ha : a % 4 = 1) (hc : c % 2 = 1) :
    (next a c)^[n] x ≡ x [ZMOD 2 ^ k] ↔ 2 ^ k ∣ n := by
  have hodd : ((a - 1) * x + c) % 2 = 1 := by
    have heven : (a - 1) % 2 = 0 := by omega
    rw [Int.add_emod, Int.mul_emod, heven, zero_mul]
    omega
  rw [Int.modEq_comm, Int.modEq_iff_dvd, iterate_sub, mul_comm, two_pow_dvd_mul_odd hodd,
    two_pow_dvd_powers ha]

/-- Two states of a run agree exactly when a multiple of `2^k` steps lies between them. -/
theorem iterate_modEq_iff (ha : a % 4 = 1) (hc : c % 2 = 1) :
    (next a c)^[m] x ≡ (next a c)^[n] x [ZMOD 2 ^ k] ↔ m ≡ n [MOD 2 ^ k] := by
  wlog hle : m ≤ n generalizing m n
  · rw [Int.modEq_comm, Nat.ModEq.comm]
    exact this (Nat.le_of_not_le hle)
  · obtain ⟨d, rfl⟩ := Nat.exists_eq_add_of_le hle
    rw [Nat.add_comm m d, Function.iterate_add_apply, Int.modEq_comm, returns_iff ha hc,
      Nat.modEq_iff_dvd' (Nat.le_add_left m d), Nat.add_sub_cancel]

theorem iterate_congr {y : ℤ} {N : ℤ} (h : x ≡ y [ZMOD N]) (n : ℕ) :
    (next a c)^[n] x ≡ (next a c)^[n] y [ZMOD N] := by
  induction n with
  | zero => exact h
  | succ n ih =>
    rw [Function.iterate_succ_apply', Function.iterate_succ_apply']
    exact (ih.mul_left a).add_right c

theorem count_states (ha : a % 4 = 1) (hc : c % 2 = 1) (x : ℤ) (start : ℕ) (P : ℤ → Prop)
    [DecidablePred P] :
    Nat.count (fun i => P ((next a c)^[start + i] x % 2 ^ k)) (2 ^ k) =
      Nat.count (fun v : ℕ => P v) (2 ^ k) := by
  have hpos : (0 : ℤ) < 2 ^ k := pow_pos two_pos k
  let state (i : ℕ) : ℕ := ((next a c)^[start + i] x % 2 ^ k).toNat
  have hstate (i : ℕ) : ((state i : ℕ) : ℤ) = (next a c)^[start + i] x % 2 ^ k :=
    Int.toNat_of_nonneg (Int.emod_nonneg _ hpos.ne')
  have hinj : Set.InjOn state (Finset.range (2 ^ k)) := by
    intro i hi j hj hij
    have hmod : (next a c)^[start + i] x ≡ (next a c)^[start + j] x [ZMOD 2 ^ k] := by
      rw [Int.ModEq, ← hstate, ← hstate, hij]
    have hdist := (iterate_modEq_iff ha hc).mp hmod
    exact (Nat.ModEq.add_left_cancel' start hdist).eq_of_lt_of_lt
      (Finset.mem_range.mp hi) (Finset.mem_range.mp hj)
  have himage : (Finset.range (2 ^ k)).image state = Finset.range (2 ^ k) := by
    apply Finset.eq_of_subset_of_card_le
    · intro v hv
      obtain ⟨i, -, rfl⟩ := Finset.mem_image.mp hv
      have hlt := Int.emod_lt_of_pos ((next a c)^[start + i] x) hpos
      rw [← hstate] at hlt
      exact Finset.mem_range.mpr (by exact_mod_cast hlt)
    · rw [Finset.card_image_of_injOn hinj]
  rw [Nat.count_eq_card_filter_range, Nat.count_eq_card_filter_range]
  calc ((Finset.range (2 ^ k)).filter fun i => P ((next a c)^[start + i] x % 2 ^ k)).card
      = ((Finset.range (2 ^ k)).filter fun i => P (state i)).card := by simp only [hstate]
    _ = (((Finset.range (2 ^ k)).filter fun i => P (state i)).image state).card :=
        (Finset.card_image_of_injOn (hinj.mono (Finset.filter_subset _ _))).symm
    _ = ((Finset.range (2 ^ k)).filter fun v : ℕ => P v).card := by
        rw [← Finset.filter_image (p := fun v : ℕ => P v), himage]

theorem exists_iterate (ha : a % 4 = 1) (hc : c % 2 = 1) (x y : ℤ) (k : ℕ) :
    ∃ n, (next a c)^[n] x ≡ y [ZMOD 2 ^ k] := by
  have hpos : (0 : ℤ) < 2 ^ k := pow_pos two_pos k
  have hcount := count_states (k := k) ha hc x 0 fun v => v = y % 2 ^ k
  have hone : Nat.count (fun v : ℕ => (v : ℤ) = y % 2 ^ k) (2 ^ k) ≠ 0 := by
    rw [Nat.count_ne_iff_exists]
    have hy := Int.toNat_of_nonneg (Int.emod_nonneg y hpos.ne')
    have hlt := Int.emod_lt_of_pos y hpos
    rw [← hy] at hlt
    exact ⟨(y % 2 ^ k).toNat, by exact_mod_cast hlt, hy⟩
  rw [← hcount, Nat.count_ne_iff_exists] at hone
  obtain ⟨n, -, hn⟩ := hone
  rw [Nat.zero_add] at hn
  exact ⟨n, hn⟩

/-- A step length that is not a whole number of periods reaches half a period. -/
theorem exists_half {p : ℕ} (h : ¬ 2 ^ (k + 1) ∣ p) :
    ∃ t, 2 ^ k ∣ p * t ∧ ¬ 2 ^ (k + 1) ∣ p * t := by
  induction k with
  | zero => exact ⟨1, by simpa using h⟩
  | succ k ih =>
    by_cases hk : 2 ^ (k + 1) ∣ p
    · exact ⟨1, by simpa using ⟨hk, h⟩⟩
    · obtain ⟨t, hdvd, hndvd⟩ := ih hk
      refine ⟨t * 2, ?_, ?_⟩
      · rw [← Nat.mul_assoc, pow_succ]
        exact Nat.mul_dvd_mul_right hdvd 2
      · rwa [← Nat.mul_assoc, pow_succ, Nat.mul_dvd_mul_iff_right Nat.two_pos]

end Congruential
