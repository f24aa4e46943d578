import JarJar.Types
import JarJar.Lib.Bisection

/- Searching in a sorted array. `bsearch` is a bisection of the indices of its elements.

   Correspondence (C ↔ Lean):
     `arr + mid * size`      ↔ `arr + (mid * size).toNat`, with the product of two `size_t`
     the loop of `bsearch`   ↔ `bsearchLoop`, `none` when the turns run out
     `bsearch`, NULL         ↔ `bsearch`, with `none` for the pointer
   The comparator is a function of the two pointers it is called with, over a memory that does
   not change. With the result comes the list of the elements it was called with, the last one
   first, which is not in the source. -/
namespace JarJar.Libc
open Bisection

def bsearchLoop (compar : Nat → Nat → Int) (key arr : Nat) (size : U64) :
    Nat → U64 → U64 → List Nat → Option (Option Nat × List Nat)
  | 0, left, right, probes => if left < right then none else some (none, probes)
  | fuel + 1, left, right, probes =>
    if left < right then
      let mid := left + (right - left) / 2
      let element := arr + (mid * size).toNat
      let cmp := compar key element
      let probes := element :: probes
      if cmp = 0 then some (some element, probes)
      else if cmp < 0 then bsearchLoop compar key arr size fuel left mid probes
      else bsearchLoop compar key arr size fuel (mid + 1) right probes
    else some (none, probes)

def bsearch (fuel : Nat) (key base : Nat) (nmemb size : U64) (compar : Nat → Nat → Int) :
    Option (Option Nat × List Nat) :=
  bsearchLoop compar key base size fuel 0 nmemb []

/-- Only elements of the array were compared with, and the result is one that is equal to the
key, or NULL when there is none. -/
structure Searched (compar : Nat → Nat → Int) (key base nmemb size : Nat)
    (r : Option Nat × List Nat) : Prop where
  probes : ∀ p ∈ r.2, ∃ i < nmemb, p = base + i * size
  result : (∃ i < nmemb, r.1 = some (base + i * size) ∧ compar key (base + i * size) = 0) ∨
    (r.1 = none ∧ ∀ i < nmemb, compar key (base + i * size) ≠ 0)

section
variable {compar : Nat → Nat → Int} {key base fuel : Nat} {nmemb size left right mid : U64}

/-- The sum of the two bounds is never formed, so that the middle does not wrap. -/
theorem mid_toNat (hlt : left < right) (hmid : mid = left + (right - left) / 2) :
    mid.toNat = left.toNat + (right.toNat - left.toNat) / 2 := by
  have hsub : (right - left).toNat = right.toNat - left.toNat :=
    BitVec.toNat_sub_of_le (BitVec.le_of_lt hlt)
  have hright := right.isLt
  have hlt' : left.toNat < right.toNat := hlt
  rw [hmid, BitVec.toNat_add, BitVec.toNat_udiv, hsub]
  exact Nat.mod_eq_of_lt (by simp; omega)

theorem next_toNat (hlt : mid.toNat < right.toNat) : (mid + 1).toNat = mid.toNat + 1 := by
  have hright := right.isLt
  rw [BitVec.toNat_add]
  exact Nat.mod_eq_of_lt (by simp; omega)

theorem mul_toNat (hfits : base + nmemb.toNat * size.toNat ≤ 2^64) (hmid : mid.toNat < nmemb.toNat) :
    (mid * size).toNat = mid.toNat * size.toNat := by
  have hnext : (mid.toNat + 1) * size.toNat ≤ nmemb.toNat * size.toNat :=
    Nat.mul_le_mul_right _ hmid
  rw [BitVec.toNat_mul]
  apply Nat.mod_eq_of_lt
  rw [Nat.succ_mul] at hnext
  obtain hsize | hsize := Nat.eq_zero_or_pos size.toNat
  · rw [hsize, Nat.mul_zero]
    exact Nat.two_pow_pos 64
  · omega

theorem bsearchLoop_searches (hfits : base + nmemb.toNat * size.toNat ≤ 2^64)
    (hsorted : Falling (fun i => compar key (base + i * size.toNat)) nmemb.toNat)
    (hencloses : Encloses (fun i => compar key (base + i * size.toNat)) nmemb.toNat left.toNat
      right.toNat) (hwidth : right.toNat - left.toNat < 2^fuel) {probes : List Nat}
    (hprobes : ∀ p ∈ probes, ∃ i < nmemb.toNat, p = base + i * size.toNat) :
    ∃ r, bsearchLoop compar key base size fuel left right probes = some r ∧
      Searched compar key base nmemb.toNat size.toNat r := by
  induction fuel generalizing left right probes with
  | zero =>
    have hempty : right.toNat ≤ left.toNat := by omega
    refine ⟨(none, probes), ?_, hprobes, Or.inr ⟨rfl, hencloses.ne_zero hempty⟩⟩
    exact if_neg (Nat.not_lt.mpr hempty)
  | succ fuel ih =>
    rw [bsearchLoop]
    by_cases hlt : left < right
    · obtain ⟨mid, hmid⟩ : ∃ mid : U64, mid = left + (right - left) / 2 := ⟨_, rfl⟩
      obtain ⟨-, hhi, hlower, hupper⟩ := middle_spec hlt hwidth (mid_toNat hlt hmid)
      have hin : mid.toNat < nmemb.toNat := Nat.lt_of_lt_of_le hhi hencloses.le
      have helement : base + (mid * size).toNat = base + mid.toNat * size.toNat := by
        rw [mul_toNat hfits hin]
      have hnext : (mid + 1).toNat = mid.toNat + 1 := next_toNat hhi
      have hprobes' : ∀ p ∈ (base + mid.toNat * size.toNat) :: probes,
          ∃ i < nmemb.toNat, p = base + i * size.toNat :=
        List.forall_mem_cons.mpr ⟨⟨mid.toNat, hin, rfl⟩, hprobes⟩
      simp only [if_pos hlt, ← hmid, helement]
      by_cases hzero : compar key (base + mid.toNat * size.toNat) = 0
      · rw [if_pos hzero]
        exact ⟨_, rfl, hprobes', Or.inl ⟨mid.toNat, hin, rfl, hzero⟩⟩
      · rw [if_neg hzero]
        -- the sign says which half holds the elements that are equal, if any
        by_cases hneg : compar key (base + mid.toNat * size.toNat) < 0
        · rw [if_pos hneg]
          exact ih (hencloses.lower hsorted hhi hneg) hlower hprobes'
        · rw [if_neg hneg]
          have hpos : 0 < compar key (base + mid.toNat * size.toNat) := by omega
          apply ih _ _ hprobes'
          · rw [hnext]
            exact hencloses.upper hsorted hhi hpos
          · rw [hnext]
            exact hupper
    · rw [if_neg hlt]
      exact ⟨_, rfl, hprobes, Or.inr ⟨rfl, hencloses.ne_zero (Nat.not_lt.mp hlt)⟩⟩

end

/-- Over an array whose elements compare with the key in falling order of sign, `bsearch` needs
one turn for each time the number of elements can be halved, and finds an element that is equal
to the key if there is one. -/
theorem bsearch_searches {compar : Nat → Nat → Int} {key base fuel : Nat} {nmemb size : U64}
    (hfits : base + nmemb.toNat * size.toNat ≤ 2^64)
    (hsorted : Falling (fun i => compar key (base + i * size.toNat)) nmemb.toNat)
    (hfuel : nmemb.toNat < 2^fuel) :
    ∃ r, bsearch fuel key base nmemb size compar = some r ∧
      Searched compar key base nmemb.toNat size.toNat r :=
  bsearchLoop_searches hfits hsorted (encloses_all _ _) hfuel
    fun _ hp => absurd hp List.not_mem_nil

/-- Among the three elements at 8, 10 and 12, compared by where they stand. -/
theorem bsearch_searches_three :
    let compar : Nat → Nat → Int := fun key p => key - p
    ∃ r, bsearch 2 10 8 3 2 compar = some r ∧ Searched compar 10 8 3 2 r := by
  intro compar
  have hfalling : ∀ j < 3, ∀ i ≤ j,
      (compar 10 (8 + j * 2)).sign ≤ (compar 10 (8 + i * 2)).sign := by decide
  exact @bsearch_searches compar 10 8 2 3 2 (by decide)
    (fun i j hij hj => hfalling j hj i hij) (by decide)

end JarJar.Libc
