import JarJar.Memory
import JarJar.Lib.CountedLoop
import JarJar.Lib.Lomuto

/- Sorting in place. `qsort` works on bytes: it moves elements byte by byte through
   two pointers, and knows the elements only by their addresses. Seen as an array of
   elements (`Memory.cells`) it is `Lomuto.quicksort` with "the comparator is negative"
   as the order.

   Correspondence (C ↔ Lean):
     `compar(a, b)`                           ↔ `compare`
     the loop over `j`                        ↔ `swapBytes`
     the loop over `i`, with `store`          ↔ `scanStep`, `scan`
     `qsort`                                  ↔ `qsort` -/
namespace JarJar.Libc
open CountedLoop

/-- The bytes of one element. -/
abbrev Element (size : Nat) := Fin size → U8

/-- A comparator that depends on the bytes of its two elements only. -/
abbrev Comparator (size : Nat) := Element size → Element size → Int

namespace Memory

/-- The element at `p`. -/
def element (m : Memory) (size p : Nat) : Element size := fun j => m.bytes (p + j)

/-- The memory after the `size` bytes at `p` were read. -/
def reads (m : Memory) (size p : Nat) : Memory :=
  { m with touched := (List.range size).map (p + ·) ++ m.touched }

end Memory

section
variable {size : Nat}

/-- `compar(a, b)`. -/
def compare (compar : Comparator size) (a b : Nat) (m : Memory) : Int × Memory :=
  (compar (m.element size a) (m.element size b), (m.reads size a).reads size b)

/-- One turn of the loop that exchanges two elements. -/
def swapByte (a b j : Nat) (m : Memory) : Memory :=
  let (temp, m) := m.load (a + j)
  let (byte, m) := m.load (b + j)
  (m.store (a + j) byte).store (b + j) temp

def swapBytes (size a b : Nat) (m : Memory) : Memory := loop size (swapByte a b) m

/-- One turn of the partition loop, on the memory and `store`. -/
def scanStep (compar : Comparator size) (arr pivot i : Nat) (s : Memory × Nat) : Memory × Nat :=
  let (order, m) := compare compar (arr + i * size) pivot s.1
  if order < 0 then (swapBytes size s.2 (arr + i * size) m, s.2 + size) else (m, s.2)

def scan (compar : Comparator size) (arr nmemb : Nat) (m : Memory) : Memory × Nat :=
  loop (nmemb - 1) (scanStep compar arr (arr + (nmemb - 1) * size)) (m, arr)

theorem scan_store (compar : Comparator size) (arr nmemb : Nat) (m : Memory) :
    ∃ k, k ≤ nmemb - 1 ∧ (scan compar arr nmemb m).2 = arr + k * size := by
  refine loop_invariant (P := fun i (s : Memory × Nat) => ∃ k, k ≤ i ∧ s.2 = arr + k * size)
    ⟨0, Nat.le_refl 0, by simp⟩ fun i _ s ⟨k, hk, hs⟩ => ?_
  simp only [scanStep]
  split
  · refine ⟨k + 1, Nat.succ_le_succ hk, ?_⟩
    simp only [hs, Nat.succ_mul, Nat.add_assoc]
  · exact ⟨k, Nat.le_succ_of_le hk, hs⟩

theorem leftCount_le (compar : Comparator size) (arr nmemb : Nat) (m : Memory) :
    ((scan compar arr nmemb m).2 - arr) / size ≤ nmemb - 1 := by
  obtain ⟨k, hk, hs⟩ := scan_store compar arr nmemb m
  rw [hs, Nat.add_sub_cancel_left]
  exact Nat.le_trans (Nat.div_le_of_le_mul (Nat.le_of_eq (Nat.mul_comm k size))) hk

def qsort (compar : Comparator size) (base nmemb : Nat) (m : Memory) : Memory :=
  if nmemb ≤ 1 then m
  else
    let s := scan compar base nmemb m
    let placed := swapBytes size s.2 (base + (nmemb - 1) * size) s.1
    let leftCount := (s.2 - base) / size
    qsort compar (s.2 + size) (nmemb - leftCount - 1) (qsort compar base leftCount placed)
termination_by nmemb
decreasing_by
  · have hle := leftCount_le compar base nmemb m
    omega
  · calc nmemb - ((scan compar base nmemb m).2 - base) / size - 1
        ≤ nmemb - 1 := Nat.sub_le_sub_right (Nat.sub_le _ _) 1
      _ < nmemb := by omega

end

/-! ## What it touches -/

namespace Touches
variable {m m₁ m₂ : Memory} {lo len p size : Nat}

theorem reads (hlo : lo ≤ p) (hhi : p + size ≤ lo + len) : Touches lo len m (m.reads size p) := by
  refine ⟨fun _ _ => rfl, fun x hx => ?_⟩
  cases List.mem_append.mp hx with
  | inl hnew =>
    obtain ⟨j, hj, rfl⟩ := List.mem_map.mp hnew
    have hj' := List.mem_range.mp hj
    exact Or.inr (by omega)
  | inr hold => exact Or.inl hold

theorem swapBytes {a b : Nat} (ha : lo ≤ a ∧ a + size ≤ lo + len)
    (hb : lo ≤ b ∧ b + size ≤ lo + len) : Touches lo len m (swapBytes size a b m) := by
  refine loop_keeps (P := fun m' => Touches lo len m m') refl fun j hj m' hm' => hm'.trans ?_
  exact (load (by omega)).trans <| (load (by omega)).trans <|
    (store (by omega) _).trans (store (by omega) _)

end Touches

/-! ## The bytes as elements -/

/-- The elements from `base` on. -/
def Memory.cells (m : Memory) (size base : Nat) : Nat → Element size :=
  fun i => m.element size (base + i * size)

section
variable {size : Nat}

/-- Two elements have no byte in common, unless they are the same one. -/
def Apart (size a b : Nat) : Prop := a = b ∨ a + size ≤ b ∨ b + size ≤ a

theorem cells_apart (base a b : Nat) : Apart size (base + a * size) (base + b * size) := by
  obtain hlt | rfl | hlt := Nat.lt_trichotomy a b
  · have hle := Nat.mul_le_mul_right size hlt
    rw [Nat.succ_mul] at hle
    exact Or.inr (Or.inl (by omega))
  · exact Or.inl rfl
  · have hle := Nat.mul_le_mul_right size hlt
    rw [Nat.succ_mul] at hle
    exact Or.inr (Or.inr (by omega))

theorem swapBytes_bytes {a b : Nat} (hapart : Apart size a b) (m : Memory) (x : Nat) :
    (swapBytes size a b m).bytes x =
      if a ≤ x ∧ x < a + size then m.bytes (b + (x - a))
      else if b ≤ x ∧ x < b + size then m.bytes (a + (x - b)) else m.bytes x := by
  refine loop_invariant (P := fun j (m' : Memory) => ∀ x, m'.bytes x =
      if a ≤ x ∧ x < a + j then m.bytes (b + (x - a))
      else if b ≤ x ∧ x < b + j then m.bytes (a + (x - b)) else m.bytes x)
    (fun x => ?_) (fun j hj m' hm' x => ?_) x
  · rw [if_neg (by omega), if_neg (by omega)]
  · rw [Apart] at hapart
    -- neither of the two bytes has been moved before
    have ha : m'.bytes (a + j) = m.bytes (a + j) := by
      rw [hm', if_neg (by omega), if_neg (by omega)]
    have hb : m'.bytes (b + j) = m.bytes (b + j) := by
      rw [hm', if_neg (by omega), if_neg (by omega)]
    simp only [swapByte, Memory.load, Memory.store, ha, hb]
    by_cases hxb : x = b + j
    · subst hxb
      rw [if_pos rfl]
      by_cases hsame : a = b
      · rw [if_pos (by omega), hsame, Nat.add_sub_cancel_left]
      · rw [if_neg (by omega), if_pos (by omega), Nat.add_sub_cancel_left]
    · rw [if_neg hxb]
      by_cases hxa : x = a + j
      · rw [if_pos hxa, if_pos (by omega), hxa, Nat.add_sub_cancel_left]
      · have hina : (a ≤ x ∧ x < a + (j + 1)) ↔ (a ≤ x ∧ x < a + j) := by omega
        have hinb : (b ≤ x ∧ x < b + (j + 1)) ↔ (b ≤ x ∧ x < b + j) := by omega
        simp only [if_neg hxa, hm', hina, hinb]

theorem cell_index {base i k : Nat} (j : Fin size) :
    (base + k * size ≤ base + i * size + j ∧ base + i * size + j < base + k * size + size) ↔
      i = k := by
  have hj := j.isLt
  refine ⟨fun h => ?_, fun h => by subst h; omega⟩
  obtain hlt | heq | hlt := Nat.lt_trichotomy i k
  · have hle := Nat.mul_le_mul_right size hlt
    rw [Nat.succ_mul] at hle
    omega
  · exact heq
  · have hle := Nat.mul_le_mul_right size hlt
    rw [Nat.succ_mul] at hle
    omega

theorem swapBytes_cells (base a b : Nat) (m : Memory) :
    (swapBytes size (base + a * size) (base + b * size) m).cells size base =
      Lomuto.swap (m.cells size base) a b := by
  funext i j
  show (swapBytes size (base + a * size) (base + b * size) m).bytes (base + i * size + j) = _
  rw [swapBytes_bytes (cells_apart base a b), Lomuto.swap]
  simp only [cell_index]
  by_cases hia : i = a
  · rw [if_pos hia, if_pos hia, hia, Nat.add_sub_cancel_left]
    rfl
  · rw [if_neg hia, if_neg hia]
    by_cases hib : i = b
    · rw [if_pos hib, if_pos hib, hib, Nat.add_sub_cancel_left]
      rfl
    · rw [if_neg hib, if_neg hib]
      rfl

end

/-! ## The sort as one on elements -/

/-- The comparator puts `a` in front of `b`. -/
def Before {size : Nat} (compar : Comparator size) (a b : Element size) : Prop := compar a b < 0

instance {size : Nat} (compar : Comparator size) : DecidableRel (Before compar) :=
  fun a b => inferInstanceAs (Decidable (compar a b < 0))

section
variable {size : Nat} {compar : Comparator size} {base lo nmemb : Nat}

/-- The loop of the program on a range of the array, beside the loop on its cells. -/
structure Scanned (size base lo nmemb i : Nat) (m : Memory) (s : Memory × Nat)
    (t : (Nat → Element size) × Nat) : Prop where
  cells : s.1.cells size base = t.1
  store : s.2 = base + (lo + t.2) * size
  count_le : t.2 ≤ i
  touches : Touches (base + lo * size) (nmemb * size) m s.1

theorem range_end (base : Nat) {lo n lo' n' : Nat} (h : lo + n ≤ lo' + n') :
    base + lo * size + n * size ≤ base + lo' * size + n' * size := by
  rw [Nat.add_assoc, Nat.add_assoc, ← Nat.add_mul, ← Nat.add_mul]
  exact Nat.add_le_add_left (Nat.mul_le_mul_right size h) base

theorem cell_inside (size base lo : Nat) {i : Nat} (hi : i < nmemb) :
    base + lo * size ≤ base + (lo + i) * size ∧
      base + (lo + i) * size + size ≤ base + lo * size + nmemb * size := by
  have hle := Nat.mul_le_mul_right size hi
  rw [Nat.succ_mul] at hle
  rw [Nat.add_mul]
  omega

theorem compare_cells (m : Memory) (i j : Nat) :
    compare compar (base + i * size) (base + j * size) m =
      (compar (m.cells size base i) (m.cells size base j),
        (m.reads size (base + i * size)).reads size (base + j * size)) := rfl

theorem scan_cells (compar : Comparator size) (base lo : Nat) (hn : ¬ nmemb ≤ 1) (m : Memory) :
    Scanned size base lo nmemb (nmemb - 1) m (scan compar (base + lo * size) nmemb m)
      (Lomuto.partition (Before compar) lo nmemb (m.cells size base)) := by
  refine loop_simulates (R := fun i => Scanned size base lo nmemb i m) ?_ fun i hi s t hst => ?_
  · exact ⟨rfl, rfl, Nat.le_refl 0, Touches.refl⟩
  · have hcell (k : Nat) : base + lo * size + k * size = base + (lo + k) * size := by
      rw [Nat.add_mul, Nat.add_assoc]
    have hcount := hst.count_le
    have hscan := cell_inside size base lo (show i < nmemb by omega)
    have hpivot := cell_inside size base lo (show nmemb - 1 < nmemb by omega)
    have hstore := cell_inside size base lo (show t.2 < nmemb by omega)
    have hreads := hst.touches.trans ((Touches.reads hscan.1 hscan.2).trans
      (Touches.reads hpivot.1 hpivot.2))
    simp only [scanStep, hcell, compare_cells, hst.cells]
    rw [Lomuto.turn]
    by_cases hlt : Before compar (t.1 (lo + i)) (t.1 (lo + (nmemb - 1)))
    · rw [if_pos hlt, if_pos (show compar _ _ < 0 from hlt)]
      refine ⟨?_, ?_, Nat.succ_le_succ hcount, hreads.trans ?_⟩
      · rw [hst.store, swapBytes_cells, ← hst.cells]
        rfl
      · rw [hst.store, ← Nat.add_assoc lo, Nat.succ_mul, Nat.add_assoc]
      · rw [hst.store]
        exact Touches.swapBytes hstore hscan
    · rw [if_neg hlt, if_neg (show ¬ compar _ _ < 0 from hlt)]
      exact ⟨hst.cells, hst.store, Nat.le_succ_of_le hcount, hreads⟩

/-- On the elements of the range the program sorts by partitioning. -/
theorem qsort_cells (hsize : 1 ≤ size) (compar : Comparator size) (base lo nmemb : Nat)
    (m : Memory) :
    (qsort compar (base + lo * size) nmemb m).cells size base =
        Lomuto.quicksort (Before compar) lo nmemb (m.cells size base) ∧
      Touches (base + lo * size) (nmemb * size) m (qsort compar (base + lo * size) nmemb m) := by
  induction nmemb using Nat.strong_induction_on generalizing lo m with
  | _ nmemb ih =>
    rw [qsort]
    by_cases hn : nmemb ≤ 1
    · rw [if_pos hn, Lomuto.quicksort, if_pos hn]
      exact ⟨rfl, Touches.refl⟩
    · rw [if_neg hn, Lomuto.quicksort_eq lo nmemb _ hn]
      have hs := scan_cells compar base lo hn m
      generalize scan compar (base + lo * size) nmemb m = s at hs ⊢
      generalize Lomuto.partition (Before compar) lo nmemb (m.cells size base) = t at hs ⊢
      have hcount := hs.count_le
      have hpivot : base + lo * size + (nmemb - 1) * size = base + (lo + (nmemb - 1)) * size := by
        rw [Nat.add_mul, Nat.add_assoc]
      have hleft : (s.2 - (base + lo * size)) / size = t.2 := by
        rw [hs.store, Nat.add_mul, ← Nat.add_assoc, Nat.add_sub_cancel_left,
          Nat.mul_div_cancel t.2 hsize]
      have hright : s.2 + size = base + (lo + t.2 + 1) * size := by
        rw [hs.store, Nat.succ_mul, Nat.add_assoc]
      simp only [hpivot, hleft, hright]
      rw [hs.store]
      -- the pivot changes places with the first element that is not below it
      let placed := swapBytes size (base + (lo + t.2) * size) (base + (lo + (nmemb - 1)) * size) s.1
      have hplaced : placed.cells size base = Lomuto.swap t.1 (lo + t.2) (lo + (nmemb - 1)) := by
        rw [← hs.cells]
        exact swapBytes_cells base _ _ s.1
      have hswap : Touches (base + lo * size) (nmemb * size) s.1 placed :=
        Touches.swapBytes (cell_inside size base lo (by omega)) (cell_inside size base lo (by omega))
      obtain ⟨hcellsLeft, htouchLeft⟩ := ih t.2 (by omega) lo placed
      obtain ⟨hcellsRight, htouchRight⟩ := ih (nmemb - t.2 - 1) (by omega) (lo + t.2 + 1)
        (qsort compar (base + lo * size) t.2 placed)
      refine ⟨?_, hs.touches.trans (hswap.trans ((htouchLeft.widen (Nat.le_refl _) ?_).trans
        (htouchRight.widen ?_ ?_)))⟩
      · rw [hcellsRight, hcellsLeft, hplaced]
      · exact range_end base (by omega)
      · exact Nat.add_le_add_left (Nat.mul_le_mul_right size (by omega)) _
      · exact range_end base (by omega)

end

/-! ## The whole array -/

/-- The comparator orders the elements: it is negative where the swapped one is positive,
and "not after" is transitive. -/
structure IsTotalPreorder {size : Nat} (compar : Comparator size) : Prop where
  swapped : ∀ a b, compar a b < 0 ↔ 0 < compar b a
  trans : ∀ a b c, compar a b ≤ 0 → compar b c ≤ 0 → compar a c ≤ 0

/-- The elements of the array at `base`. -/
def Memory.elements (m : Memory) (size base nmemb : Nat) : List (Element size) :=
  (List.range nmemb).map (m.cells size base)

/-- `qsort` stays inside the array and permutes its elements; when the comparator orders
them, they end in order. -/
theorem qsort_sorts (size nmemb base : Nat) (hsize : 1 ≤ size) (compar : Comparator size)
    (bytes : Nat → U8) :
    let m : Memory := ⟨bytes, []⟩
    let sorted := qsort compar base nmemb m
    (∀ x ∈ sorted.touched, base ≤ x ∧ x < base + nmemb * size) ∧
      (∀ x, x < base ∨ base + nmemb * size ≤ x → sorted.bytes x = bytes x) ∧
      (sorted.elements size base nmemb).Perm (m.elements size base nmemb) ∧
      (IsTotalPreorder compar →
        (sorted.elements size base nmemb).Pairwise fun a b => compar a b ≤ 0) := by
  intro m sorted
  have hqsort := qsort_cells hsize compar base 0 nmemb m
  simp only [Nat.zero_mul, Nat.add_zero] at hqsort
  obtain ⟨hcells, htouches⟩ := hqsort
  refine ⟨fun x hx => ?_, htouches.outside, ?_, fun hcompar => ?_⟩
  · obtain hold | hin := htouches.touched x hx
    · exact absurd hold List.not_mem_nil
    · exact hin
  · have hperm := (Lomuto.quicksort_within (Before compar) 0 nmemb (m.cells size base)).perm
    simp only [Nat.zero_add] at hperm
    rw [Memory.elements, hcells]
    exact hperm
  · have hle (a b : Element size) : ¬ Before compar b a ↔ compar a b ≤ 0 := by
      rw [Before, hcompar.swapped, Int.not_lt]
    have hsorted : Lomuto.Sorted (Before compar) 0 nmemb (sorted.cells size base) := by
      rw [hcells]
      refine Lomuto.quicksort_sorted (fun a b hab => ?_) (fun a b c hab hbc => ?_) 0 nmemb _
      · rw [hle]
        exact Int.le_of_lt hab
      · rw [hle] at hab hbc ⊢
        exact hcompar.trans a b c hab hbc
    rw [Memory.elements, List.pairwise_map]
    refine List.pairwise_lt_range.imp_of_mem fun {i j} _ hj hij => ?_
    rw [← hle]
    exact hsorted i j (Nat.zero_le i) hij (by rw [Nat.zero_add]; exact List.mem_range.mp hj)

/-- Three elements of two bytes, with the first byte as the key: the two with key 1 are
left in some order. -/
theorem qsort_sorts_three :
    1 ≤ 2 ∧
      let keyOrder : Comparator 2 := fun a b => (a 0).toNat - (b 0).toNat
      let bytes : Nat → U8 := fun x => [9, 2, 7, 1, 8, 1, 9].getD x 0
      let sorted := qsort keyOrder 1 3 ⟨bytes, []⟩
      (∀ x ∈ sorted.touched, 1 ≤ x ∧ x < 1 + 3 * 2) ∧
        (sorted.elements 2 1 3).Pairwise fun a b => keyOrder a b ≤ 0 := by
  refine ⟨by decide, ?_⟩
  intro keyOrder bytes sorted
  obtain ⟨htouched, -, -, hordered⟩ := qsort_sorts 2 3 1 (by decide) keyOrder bytes
  refine ⟨htouched, hordered ⟨fun a b => ?_, fun a b c hab hbc => ?_⟩⟩
  · simp only [keyOrder]
    omega
  · simp only [keyOrder] at hab hbc ⊢
    omega

end JarJar.Libc
