import JarJar.Bsearch
import JarJar.Qsort

/- An array that is sorted once and then searched. Both functions take the same comparator,
   `qsort` on the elements themselves and `bsearch` on their addresses, so that searching what
   was sorted needs nothing but that the comparator orders the elements, and answers for the
   array as it was before.

   Correspondence (C ↔ Lean):
     `bsearch(key, base, nmemb, size, compar)` over a memory   ↔ `searchIn` -/
namespace JarJar.Libc
open Bisection

/-- `bsearch` in a memory; the comparator reads the elements it is called for. -/
def searchIn (m : Memory) (fuel key base : Nat) (nmemb size : U64)
    (compar : Comparator size.toNat) : Option (Option Nat × List Nat) :=
  bsearch fuel key base nmemb size fun a b =>
    compar (m.element size.toNat a) (m.element size.toNat b)

section
variable {size nmemb base : Nat} {compar : Comparator size} {m : Memory}

theorem IsTotalPreorder.not_before (h : IsTotalPreorder compar) (a b : Element size) :
    ¬ Before compar b a ↔ compar a b ≤ 0 := by
  rw [Before, h.swapped, Int.not_lt]

theorem IsTotalPreorder.sign_le (h : IsTotalPreorder compar) {key a b : Element size}
    (hab : compar a b ≤ 0) : (compar key b).sign ≤ (compar key a).sign := by
  obtain hneg | hzero | hpos := Int.lt_trichotomy (compar key a) 0
  · -- otherwise the key would not be in front of `a` either
    have hbefore : compar key b < 0 := by
      apply Int.not_le.mp
      intro hge
      have hbkey : compar b key ≤ 0 := by
        rw [← Int.not_lt, ← h.swapped key b]
        exact Int.not_lt.mpr hge
      have hakey := h.trans a b key hab hbkey
      rw [h.swapped] at hneg
      exact absurd hakey (Int.not_le.mpr hneg)
    have hsame : (compar key b).sign = (compar key a).sign := by
      rw [Int.sign_eq_neg_one_of_neg hneg, Int.sign_eq_neg_one_of_neg hbefore]
    exact Int.le_of_eq hsame
  · have hle := h.trans key a b (Int.le_of_eq hzero) hab
    rw [hzero, Int.sign_zero]
    exact Int.sign_nonpos_iff.mpr hle
  · obtain hb | hb | hb := Int.lt_trichotomy (compar key b) 0
    · rw [Int.sign_eq_neg_one_of_neg hb, Int.sign_eq_one_of_pos hpos]
      decide
    · rw [hb, Int.sign_eq_one_of_pos hpos]
      decide
    · have hsame : (compar key b).sign = (compar key a).sign := by
        rw [Int.sign_eq_one_of_pos hb, Int.sign_eq_one_of_pos hpos]
      exact Int.le_of_eq hsame

/-- The elements after the sort. -/
structure SortedFrom (compar : Comparator size) (base nmemb : Nat) (m m' : Memory) : Prop where
  outside : ∀ x, x < base ∨ base + nmemb * size ≤ x → m'.bytes x = m.bytes x
  perm : (m'.elements size base nmemb).Perm (m.elements size base nmemb)
  ordered : ∀ i j, i < j → j < nmemb → compar (m'.cells size base i) (m'.cells size base j) ≤ 0

theorem qsort_sortedFrom (hsize : 1 ≤ size) (h : IsTotalPreorder compar) (base nmemb : Nat)
    (m : Memory) : SortedFrom compar base nmemb m (qsort compar base nmemb m) := by
  have hqsort := qsort_cells hsize compar base 0 nmemb m
  simp only [Nat.zero_mul, Nat.add_zero] at hqsort
  obtain ⟨hcells, htouches⟩ := hqsort
  refine ⟨htouches.outside, ?_, fun i j hij hj => ?_⟩
  · have hperm := (Lomuto.quicksort_within (Before compar) 0 nmemb (m.cells size base)).perm
    simp only [Nat.zero_add] at hperm
    rw [Memory.elements, hcells]
    exact hperm
  · rw [hcells, ← h.not_before]
    refine Lomuto.quicksort_sorted (fun a b hab => ?_) (fun a b c hab hbc => ?_) 0 nmemb _ i j
      (Nat.zero_le i) hij (by rwa [Nat.zero_add])
    · rw [h.not_before]
      exact Int.le_of_lt hab
    · rw [h.not_before] at hab hbc ⊢
      exact h.trans a b c hab hbc

theorem mem_elements {e : Element size} :
    e ∈ m.elements size base nmemb ↔ ∃ i < nmemb, m.cells size base i = e := by
  simp only [Memory.elements, List.mem_map, List.mem_range]

variable {m' : Memory}

theorem SortedFrom.element (h : SortedFrom compar base nmemb m m') {key : Nat}
    (hkey : key + size ≤ base ∨ base + nmemb * size ≤ key) :
    m'.element size key = m.element size key := by
  funext j
  have hj := j.isLt
  exact h.outside _ (by omega)

theorem SortedFrom.falling (h : SortedFrom compar base nmemb m m') (hcompar : IsTotalPreorder compar)
    (key : Nat) :
    Falling (fun i => compar (m'.element size key) (m'.element size (base + i * size))) nmemb := by
  intro i j hij hj
  obtain rfl | hlt := Nat.eq_or_lt_of_le hij
  · exact Int.le_refl _
  · exact hcompar.sign_le (h.ordered i j hlt hj)

end

/-- After `qsort` with a comparator that orders the elements, `bsearch` with the same comparator
finds in at most 64 turns an element that is equal to the key, or none, exactly if the array had
none before. -/
theorem qsort_bsearch {nmemb size : U64} {base key : Nat} (hsize : 1 ≤ size.toNat)
    (hfits : base + nmemb.toNat * size.toNat ≤ 2^64)
    (hkey : key + size.toNat ≤ base ∨ base + nmemb.toNat * size.toNat ≤ key)
    {compar : Comparator size.toNat} (hcompar : IsTotalPreorder compar) (m : Memory) :
    let sorted := qsort compar base nmemb.toNat m
    let keyElement := m.element size.toNat key
    ∃ found probes, searchIn sorted 64 key base nmemb size compar = some (found, probes) ∧
      (∀ p, found = some p → ∃ i < nmemb.toNat, p = base + i * size.toNat ∧
        compar keyElement (sorted.element size.toNat p) = 0) ∧
      (found = none ↔ ∀ i < nmemb.toNat, compar keyElement (m.cells size.toNat base i) ≠ 0) ∧
      ∀ p ∈ probes, ∃ i < nmemb.toNat, p = base + i * size.toNat := by
  intro sorted keyElement
  have hsorted := qsort_sortedFrom hsize hcompar base nmemb.toNat m
  have helement : sorted.element size.toNat key = keyElement := hsorted.element hkey
  let order (a b : Nat) : Int :=
    compar (sorted.element size.toNat a) (sorted.element size.toNat b)
  have hfalling : Falling (fun i => order key (base + i * size.toNat)) nmemb.toNat :=
    hsorted.falling hcompar key
  have hencloses : Encloses (fun i => order key (base + i * size.toNat)) nmemb.toNat
      (0 : U64).toNat nmemb.toNat := encloses_all _ _
  obtain ⟨r, hr, hsearched⟩ := bsearchLoop_searches hfits hfalling hencloses nmemb.isLt
    fun _ hp => absurd hp List.not_mem_nil
  have hequal (i : Nat) : order key (base + i * size.toNat) =
      compar keyElement (sorted.cells size.toNat base i) := by
    rw [← helement]
    rfl
  -- the elements are those of before
  have hmem (e : Element size.toNat) : (∃ i < nmemb.toNat, sorted.cells size.toNat base i = e) ↔
      ∃ i < nmemb.toNat, m.cells size.toNat base i = e := by
    rw [← mem_elements, ← mem_elements]
    exact hsorted.perm.mem_iff
  refine ⟨r.1, r.2, hr, fun p hp => ?_, ⟨fun hnone i hi hzero => ?_, fun hall => ?_⟩,
    hsearched.probes⟩
  · obtain ⟨i, hi, hfound, hzero⟩ | ⟨hnone, -⟩ := hsearched.result
    · obtain rfl := Option.some.inj (hp.symm.trans hfound)
      exact ⟨i, hi, rfl, (hequal i).symm.trans hzero⟩
    · rw [hnone] at hp
      cases hp
  · obtain ⟨i', -, hfound, -⟩ | ⟨-, hall⟩ := hsearched.result
    · rw [hnone] at hfound
      cases hfound
    · obtain ⟨j, hj, hsame⟩ := (hmem _).mpr ⟨i, hi, rfl⟩
      apply hall j hj
      rw [hequal, hsame]
      exact hzero
  · obtain ⟨i, hi, -, hzero⟩ | ⟨hnone, -⟩ := hsearched.result
    · obtain ⟨j, hj, hsame⟩ := (hmem _).mp ⟨i, hi, rfl⟩
      rw [hequal, ← hsame] at hzero
      exact absurd hzero (hall j hj)
    · exact hnone

/-- Three elements of one byte, of which one is the key's. -/
theorem qsort_bsearch_three :
    let byteOrder : Comparator 1 := fun a b => (a 0).toNat - (b 0).toNat
    let m : Memory := ⟨fun x => ([9, 7, 8, 7] : List U8).getD x 0, []⟩
    ∃ found probes, searchIn (qsort byteOrder 0 3 m) 64 3 0 3 1 byteOrder = some (found, probes) ∧
      found ≠ none := by
  intro byteOrder m
  have horder : IsTotalPreorder byteOrder := by
    refine ⟨fun a b => ?_, fun a b c hab hbc => ?_⟩
    · simp only [byteOrder]
      omega
    · simp only [byteOrder] at hab hbc ⊢
      omega
  obtain ⟨found, probes, hsearch, -, hnone, -⟩ := @qsort_bsearch 3 1 0 3 (by decide) (by decide)
    (by decide) byteOrder horder m
  exact ⟨found, probes, hsearch, fun h => hnone.mp h 1 (by decide) (by decide)⟩

end JarJar.Libc
