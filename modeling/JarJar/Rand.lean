import JarJar.Types
import JarJar.Lib.Congruential
import Mathlib.Order.Interval.Finset.Nat

/- The pseudo-random numbers. `rand` steps a linear congruential generator modulo `2^32` and
   returns the bits 16 to 30 of its state, so that bit 31 never counts: what is returned is
   that of a generator modulo `2^31` (`state`).

   Correspondence (C ↔ Lean):
     `static u32 rand_seed`   ↔ a `U32` that is passed on (the program starts with 1)
     `rand`, `srand`          ↔ `rand`, `srand`
   The results of `rand` after one `srand` and no other, counted from zero, are `randAt`. -/
namespace JarJar.Libc
open Congruential

/-- What is returned and the seed after the call. -/
def rand (rand_seed : U32) : Int × U32 :=
  let rand_seed := rand_seed * 1103515245 + 12345
  (((rand_seed >>> 16) &&& 0x7FFF).toInt, rand_seed)

def srand (seed : U32) : U32 := seed

def seedAfter (rand_seed : U32) : Nat → U32
  | 0 => rand_seed
  | n + 1 => (rand (seedAfter rand_seed n)).2

/-- What the call with this number returns after `srand(seed)`. -/
def randAt (seed : U32) (n : Nat) : Int := (rand (seedAfter (srand seed) n)).1

example : (List.range 3).map (randAt 1) = [16838, 5758, 10113] := by decide

/-! The part of the seed that counts. -/

section
variable {seed : U32} {m n p : Nat}

/-- The 31 low bits of the seed. -/
def state (seed : U32) (n : Nat) : Int := (next 1103515245 12345)^[n] seed.toNat % 2 ^ 31

theorem rand_snd_toNat (rand_seed : U32) :
    (rand rand_seed).2.toNat = (rand_seed.toNat * 1103515245 + 12345) % 2 ^ 32 := by
  show (rand_seed * 1103515245 + 12345).toNat = _
  rw [BitVec.toNat_add, BitVec.toNat_mul, Nat.mod_add_mod]
  rfl

theorem seedAfter_modEq (seed : U32) (n : Nat) :
    ((seedAfter seed n).toNat : Int) ≡ (next 1103515245 12345)^[n] seed.toNat [ZMOD 2 ^ 32] := by
  induction n with
  | zero => rfl
  | succ n ih =>
    rw [Function.iterate_succ_apply']
    calc ((seedAfter seed (n + 1)).toNat : Int)
        = ((seedAfter seed n).toNat * 1103515245 + 12345) % 2 ^ 32 := by
          rw [seedAfter, rand_snd_toNat]
          omega
      _ ≡ (seedAfter seed n).toNat * 1103515245 + 12345 [ZMOD 2 ^ 32] := Int.mod_modEq _ _
      _ ≡ next 1103515245 12345 ((next 1103515245 12345)^[n] seed.toNat) [ZMOD 2 ^ 32] := by
          rw [next, Int.mul_comm]
          exact (ih.mul_left _).add_right _

theorem rand_fst (rand_seed : U32) :
    (rand rand_seed).1 = (rand rand_seed).2.toNat % 2 ^ 31 / 2 ^ 16 := by
  have hbits (x : U32) : ((x >>> 16) &&& 0x7FFF).toNat = x.toNat % 2 ^ 31 / 2 ^ 16 := by
    rw [BitVec.toNat_and, BitVec.toNat_ushiftRight, Nat.shiftRight_eq_div_pow]
    have hmask := Nat.and_two_pow_sub_one_eq_mod (x.toNat / 2 ^ 16) 15
    calc x.toNat / 2 ^ 16 &&& (0x7FFF : U32).toNat = x.toNat / 2 ^ 16 % 2 ^ 15 := hmask
      _ = x.toNat % 2 ^ 31 / 2 ^ 16 := by omega
  have hlt := hbits (rand rand_seed).2
  show (((rand rand_seed).2 >>> 16) &&& 0x7FFF).toInt = _
  rw [BitVec.toInt_eq_toNat_of_lt (by omega), hlt]
  push_cast
  rfl

theorem randAt_eq (seed : U32) (n : Nat) : randAt seed n = state seed (n + 1) / 2 ^ 16 := by
  have hmod := (seedAfter_modEq seed (n + 1)).of_dvd (pow_dvd_pow 2 (by decide : 31 ≤ 32))
  rw [randAt, rand_fst, state, ← hmod]
  rfl

/-- Two results come from the same 31 bits exactly a whole number of periods apart. -/
theorem state_eq_iff (seed : U32) : state seed m = state seed n ↔ m ≡ n [MOD 2 ^ 31] :=
  iterate_modEq_iff (by decide) (by decide)

theorem state_ne_of_half (h : 2 ^ 30 ∣ n) (hn : ¬ 2 ^ 31 ∣ n) :
    state seed (m + n) / 2 ^ 16 ≠ state seed m / 2 ^ 16 := by
  have hlow : (next 1103515245 12345)^[m + n] (seed.toNat : Int) ≡
      (next 1103515245 12345)^[m] seed.toNat [ZMOD 2 ^ 30] := by
    rw [iterate_modEq_iff (by decide) (by decide)]
    exact ((Nat.modEq_zero_iff_dvd.mpr h).add_left m)
  have hfull : state seed (m + n) ≠ state seed m := by
    rw [Ne, state_eq_iff]
    intro heq
    exact hn (Nat.modEq_zero_iff_dvd.mp (Nat.ModEq.add_left_cancel' m heq))
  unfold Int.ModEq at hlow
  unfold state at hfull ⊢
  omega

theorem dvd_of_repeats (hperiod : ∀ n, randAt seed (n + p) = randAt seed n) : 2 ^ 31 ∣ p := by
  by_contra hndvd
  obtain ⟨k, hhalf, hnfull⟩ := exists_half hndvd
  have hmany : ∀ k, randAt seed (0 + p * k) = randAt seed 0 := by
    intro k
    induction k with
    | zero => rfl
    | succ k ih => rw [Nat.mul_succ, ← Nat.add_assoc, hperiod, ih]
  have hsame := hmany k
  rw [randAt_eq, randAt_eq, Nat.add_right_comm] at hsame
  exact state_ne_of_half hhalf hnfull hsame

/-- The results repeat after so many calls, whatever the seed, if and only if they make whole
periods of `2^31`. -/
theorem rand_period (seed : U32) (p : Nat) :
    (∀ n, randAt seed (n + p) = randAt seed n) ↔ 2 ^ 31 ∣ p := by
  refine ⟨dvd_of_repeats, fun hdvd n => ?_⟩
  have hstate : state seed (n + p + 1) = state seed (n + 1) := by
    rw [state_eq_iff, Nat.add_right_comm]
    exact (Nat.modEq_zero_iff_dvd.mpr hdvd).add_left (n + 1)
  rw [randAt_eq, randAt_eq, hstate]

theorem count_upper (v : Int) :
    Nat.count (fun x : ℕ => (x : Int) / 2 ^ 16 = v) (2 ^ 31) =
      if 0 ≤ v ∧ v ≤ 32767 then 2 ^ 16 else 0 := by
  rw [Nat.count_eq_card_filter_range]
  split
  next hv =>
    have hrange : (Finset.range (2 ^ 31)).filter (fun x : ℕ => (x : Int) / 2 ^ 16 = v) =
        Finset.Ico (v.toNat * 2 ^ 16) (v.toNat * 2 ^ 16 + 2 ^ 16) := by
      ext x
      rw [Finset.mem_filter, Finset.mem_range, Finset.mem_Ico]
      omega
    rw [hrange, Nat.card_Ico, Nat.add_sub_cancel_left]
  next hv =>
    rw [Finset.card_eq_zero, Finset.filter_eq_empty_iff]
    intro x hx heq
    rw [Finset.mem_range] at hx
    omega

/-- In any `2^31` calls in a row, every number up to `RAND_MAX` is returned equally often. -/
theorem rand_uniform (seed : U32) (start : Nat) (v : Int) :
    Nat.count (fun i => randAt seed (start + i) = v) (2 ^ 31) =
      if 0 ≤ v ∧ v ≤ 32767 then 2 ^ 16 else 0 := by
  have hround := count_states (k := 31) (by decide : (1103515245 : Int) % 4 = 1)
    (by decide : (12345 : Int) % 2 = 1) seed.toNat (start + 1) (fun x => x / 2 ^ 16 = v)
  calc Nat.count (fun i => randAt seed (start + i) = v) (2 ^ 31)
      = Nat.count (fun i => state seed (start + 1 + i) / 2 ^ 16 = v) (2 ^ 31) := by
        simp only [randAt_eq, Nat.add_right_comm]
    _ = Nat.count (fun x : ℕ => (x : Int) / 2 ^ 16 = v) (2 ^ 31) := hround
    _ = _ := count_upper v

/-- Every seed runs through the results of every other, from some place on. -/
theorem randAt_shift (s t : U32) :
    ∃ d, (next 1103515245 12345)^[d] (s.toNat : Int) ≡ t.toNat [ZMOD 2 ^ 31] ∧
      ∀ n, randAt t n = randAt s (n + d) := by
  obtain ⟨d, hd⟩ := exists_iterate (by decide : (1103515245 : Int) % 4 = 1)
    (by decide : (12345 : Int) % 2 = 1) s.toNat t.toNat 31
  refine ⟨d, hd, fun n => ?_⟩
  have hstate : state t (n + 1) = state s (n + d + 1) := by
    calc state t (n + 1)
        = (next 1103515245 12345)^[n + 1] ((next 1103515245 12345)^[d] s.toNat) % 2 ^ 31 :=
          (iterate_congr hd (n + 1)).symm
      _ = state s (n + d + 1) := by
          rw [← Function.iterate_add_apply, Nat.add_right_comm, state]
  rw [randAt_eq, randAt_eq, hstate]

/-- Bit 31 of a seed never counts, and all other bits do. -/
theorem rand_same_iff (s t : U32) :
    (∀ n, randAt s n = randAt t n) ↔ s.toNat % 2 ^ 31 = t.toNat % 2 ^ 31 := by
  refine ⟨fun hsame => ?_, fun hlow n => ?_⟩
  · obtain ⟨d, hd, hshift⟩ := randAt_shift s t
    have hperiod : 2 ^ 31 ∣ d :=
      dvd_of_repeats fun n => by rw [← hshift, hsame]
    have hback : (next 1103515245 12345)^[d] (s.toNat : Int) ≡ s.toNat [ZMOD 2 ^ 31] :=
      (returns_iff (by decide) (by decide)).mpr hperiod
    have hmod := hback.symm.trans hd
    unfold Int.ModEq at hmod
    omega
  · have hmod : (s.toNat : Int) ≡ t.toNat [ZMOD 2 ^ 31] := by
      unfold Int.ModEq
      omega
    have hstate : state s (n + 1) = state t (n + 1) := iterate_congr hmod (n + 1)
    rw [randAt_eq, randAt_eq, hstate]

end

end JarJar.Libc
