import JarJar.Lib.CountedLoop
import Mathlib.Data.List.Nodup
import Mathlib.Logic.Equiv.Basic

/- Lomuto's quicksort on the cells of an array, cell `i` holding `f i`. `partition`
   moves what is below the last cell of a range to the front of it and counts it;
   `quicksort` swaps the last cell behind that and goes on with the two sides.
   Whatever the comparison is, the cells of the range are permuted (`Within`), and
   when "not greater" is a total preorder they end in order (`quicksort_sorted`). -/
namespace Lomuto
open CountedLoop

variable {α : Type*}

def swap (f : Nat → α) (a b : Nat) : Nat → α :=
  fun i => if i = a then f b else if i = b then f a else f i

section
variable (lt : α → α → Prop) [DecidableRel lt]

/-- The turn for cell `lo + i`: the cells so far, and how many of them went to the front. -/
def turn (lo n i : Nat) (s : (Nat → α) × Nat) : (Nat → α) × Nat :=
  if lt (s.1 (lo + i)) (s.1 (lo + (n - 1))) then (swap s.1 (lo + s.2) (lo + i), s.2 + 1) else s

def partition (lo n : Nat) (f : Nat → α) : (Nat → α) × Nat :=
  loop (n - 1) (turn lt lo n) (f, 0)

theorem partition_le (lo n : Nat) (f : Nat → α) : (partition lt lo n f).2 ≤ n - 1 := by
  refine loop_invariant (P := fun i (s : (Nat → α) × Nat) => s.2 ≤ i) (Nat.le_refl 0)
    fun i _ s hs => ?_
  rw [turn]
  split
  · exact Nat.succ_le_succ hs
  · exact Nat.le_succ_of_le hs

def quicksort (lo n : Nat) (f : Nat → α) : Nat → α :=
  if n ≤ 1 then f
  else
    let s := partition lt lo n f
    quicksort (lo + s.2 + 1) (n - s.2 - 1)
      (quicksort lo s.2 (swap s.1 (lo + s.2) (lo + (n - 1))))
termination_by n
decreasing_by
  · have hle := partition_le lt lo n f
    omega
  · omega

end

/-! ## Permuting a range -/

/-- `g` has the cells of `f`, those of the range `[lo, lo + n)` perhaps in another order. -/
def Within (lo n : Nat) (f g : Nat → α) : Prop :=
  ∃ σ : Equiv.Perm Nat, (∀ i, i < lo ∨ lo + n ≤ i → σ i = i) ∧ ∀ i, g i = f (σ i)

section
variable {f g h : Nat → α} {lo n a b i : Nat}

theorem Within.refl : Within lo n f f := ⟨Equiv.refl Nat, fun _ _ => rfl, fun _ => rfl⟩

theorem Within.trans (hfg : Within lo n f g) (hgh : Within lo n g h) : Within lo n f h := by
  obtain ⟨σ, hσ, hg⟩ := hfg
  obtain ⟨τ, hτ, hh⟩ := hgh
  refine ⟨τ.trans σ, fun i hi => ?_, fun i => ?_⟩
  · rw [Equiv.trans_apply, hτ i hi, hσ i hi]
  · rw [hh, hg, Equiv.trans_apply]

theorem Within.widen {lo' n' : Nat} (hfg : Within lo n f g) (hlo : lo' ≤ lo)
    (hhi : lo + n ≤ lo' + n') : Within lo' n' f g := by
  obtain ⟨σ, hσ, hg⟩ := hfg
  exact ⟨σ, fun i hi => hσ i (by omega), hg⟩

theorem Within.swap (ha : lo ≤ a ∧ a < lo + n) (hb : lo ≤ b ∧ b < lo + n) :
    Within lo n f (Lomuto.swap f a b) := by
  refine ⟨Equiv.swap a b, fun i hi => ?_, fun i => ?_⟩
  · exact Equiv.swap_apply_of_ne_of_ne (by omega) (by omega)
  · rw [Lomuto.swap, Equiv.swap_apply_def]
    split
    · rfl
    · split <;> rfl

theorem Within.outside (hfg : Within lo n f g) (hi : i < lo ∨ lo + n ≤ i) : g i = f i := by
  obtain ⟨σ, hσ, hg⟩ := hfg
  rw [hg, hσ i hi]

theorem Within.inside (hfg : Within lo n f g) (hlo : lo ≤ i) (hhi : i < lo + n) :
    ∃ j, lo ≤ j ∧ j < lo + n ∧ g i = f j := by
  obtain ⟨σ, hσ, hg⟩ := hfg
  refine ⟨σ i, ?_, ?_, hg i⟩
  · by_contra hout
    have hfix := σ.injective (hσ (σ i) (Or.inl (by omega)))
    omega
  · by_contra hout
    have hfix := σ.injective (hσ (σ i) (Or.inr (by omega)))
    omega

theorem Within.forall_inside {P : α → Prop} (hfg : Within lo n f g)
    (hf : ∀ i, lo ≤ i → i < lo + n → P (f i)) (hlo : lo ≤ i) (hhi : i < lo + n) : P (g i) := by
  obtain ⟨j, hj, hj', heq⟩ := hfg.inside hlo hhi
  rw [heq]
  exact hf j hj hj'

theorem Within.perm (hfg : Within lo n f g) :
    ((List.range n).map fun i => g (lo + i)).Perm ((List.range n).map fun i => f (lo + i)) := by
  obtain ⟨σ, hσ, hg⟩ := hfg
  have hinside (i : Nat) (hi : lo ≤ i ∧ i < lo + n) : lo ≤ σ i ∧ σ i < lo + n := by
    by_contra hout
    have hfix := σ.injective (hσ (σ i) (by omega))
    omega
  have hcells : ((List.range n).map fun i => σ (lo + i)).Perm ((List.range n).map (lo + ·)) := by
    have hinj : Function.Injective (lo + ·) := fun i j hij => Nat.add_left_cancel hij
    have hinj' : Function.Injective fun i => σ (lo + i) := σ.injective.comp hinj
    rw [List.perm_ext_iff_of_nodup (List.Nodup.map hinj' List.nodup_range)
      (List.Nodup.map hinj List.nodup_range)]
    intro j
    simp only [List.mem_map, List.mem_range]
    refine ⟨fun ⟨i, hi, hij⟩ => ?_, fun ⟨i, hi, hij⟩ => ?_⟩
    · have hj := hinside (lo + i) (by omega)
      exact ⟨j - lo, by omega, by omega⟩
    · have hinv : lo ≤ σ.symm j ∧ σ.symm j < lo + n := by
        by_contra hout
        have hfix := hσ (σ.symm j) (by omega)
        rw [Equiv.apply_symm_apply] at hfix
        omega
      refine ⟨σ.symm j - lo, by omega, ?_⟩
      rw [Nat.add_sub_cancel' hinv.1, Equiv.apply_symm_apply]
  have hmap := hcells.map f
  rw [List.map_map, List.map_map] at hmap
  have hgf : (fun i => g (lo + i)) = f ∘ fun i => σ (lo + i) := by
    funext i
    exact hg (lo + i)
  rw [hgf]
  exact hmap

end

/-! ## Order -/

section
variable {lt : α → α → Prop} {lo n : Nat}

/-- No cell of the range is below one in front of it. -/
def Sorted (lt : α → α → Prop) (lo n : Nat) (f : Nat → α) : Prop :=
  ∀ i j, lo ≤ i → i < j → j < lo + n → ¬ lt (f j) (f i)

theorem Sorted.join {k : Nat} {g g₁ g₂ : Nat → α} (hk : k < n)
    (hasymm : ∀ a b, lt a b → ¬ lt b a) (htrans : ∀ a b c, ¬ lt b a → ¬ lt c b → ¬ lt c a)
    (hbelow : ∀ i, lo ≤ i → i < lo + k → lt (g i) (g (lo + k)))
    (hnotBelow : ∀ i, lo + k < i → i < lo + n → ¬ lt (g i) (g (lo + k)))
    (hleft : Within lo k g g₁) (hright : Within (lo + k + 1) (n - k - 1) g₁ g₂)
    (hsortedLeft : Sorted lt lo k g₁) (hsortedRight : Sorted lt (lo + k + 1) (n - k - 1) g₂) :
    Sorted lt lo n g₂ := by
  have hsame : ∀ i, i ≤ lo + k → g₂ i = g₁ i := fun i hi => hright.outside (Or.inl (by omega))
  have hpivot : g₁ (lo + k) = g (lo + k) := hleft.outside (Or.inr (Nat.le_refl _))
  have hfront : ∀ i, lo ≤ i → i < lo + k → lt (g₁ i) (g (lo + k)) := fun i hi hi' =>
    hleft.forall_inside (P := fun a => lt a (g (lo + k))) hbelow hi hi'
  have hback : ∀ i, lo + k < i → i < lo + n → ¬ lt (g₂ i) (g (lo + k)) := by
    intro i hi hi'
    refine hright.forall_inside (P := fun a => ¬ lt a (g (lo + k))) (fun j hj hj' => ?_)
      (by omega) (by omega)
    rw [hleft.outside (Or.inr (by omega))]
    exact hnotBelow j (by omega) (by omega)
  intro i j hi hij hj
  obtain hj' | rfl | hj' := Nat.lt_trichotomy j (lo + k)
  · rw [hsame j (by omega), hsame i (by omega)]
    exact hsortedLeft i j hi hij hj'
  · rw [hsame (lo + k) (Nat.le_refl _), hsame i (by omega), hpivot]
    exact hasymm _ _ (hfront i hi hij)
  · obtain hi' | rfl | hi' := Nat.lt_trichotomy i (lo + k)
    · rw [hsame i (by omega)]
      exact htrans _ _ _ (hasymm _ _ (hfront i hi hi')) (hback j hj' hj)
    · rw [hsame (lo + k) (Nat.le_refl _), hpivot]
      exact hback j hj' hj
    · exact hsortedRight i j (by omega) hij (by omega)

end

/-! ## Partitioning -/

section
variable {lt : α → α → Prop} [DecidableRel lt] {f : Nat → α} {lo n : Nat}

/-- After `i` turns: the first `k` cells are below the pivot, the others up to cell `i`
are not, and those behind it have not moved. -/
structure Parted (lt : α → α → Prop) (f : Nat → α) (lo i : Nat) (pivot : α) (s : (Nat → α) × Nat) :
    Prop where
  count_le : s.2 ≤ i
  below : ∀ j, j < s.2 → lt (s.1 (lo + j)) pivot
  notBelow : ∀ j, s.2 ≤ j → j < i → ¬ lt (s.1 (lo + j)) pivot
  within : Within lo i f s.1

theorem partition_parted (lo n : Nat) (f : Nat → α) :
    Parted lt f lo (n - 1) (f (lo + (n - 1))) (partition lt lo n f) := by
  refine loop_invariant (P := fun i => Parted lt f lo i (f (lo + (n - 1)))) ?_ fun i hi s hs => ?_
  · exact ⟨Nat.le_refl 0, fun j hj => absurd hj (Nat.not_lt_zero j),
      fun j _ hj => absurd hj (Nat.not_lt_zero j), Within.refl⟩
  · have hcount := hs.count_le
    have hpivot : s.1 (lo + (n - 1)) = f (lo + (n - 1)) := hs.within.outside (Or.inr (by omega))
    rw [turn, hpivot]
    split
    · next hlt =>
      -- the cell changes places with the first one that is not below the pivot
      refine ⟨by dsimp only; omega, fun j hj => ?_, fun j hj hj' => ?_,
        (hs.within.widen (Nat.le_refl lo) (by omega)).trans (Within.swap (by omega) (by omega))⟩
      · dsimp only at hj ⊢
        by_cases hlast : j = s.2
        · subst hlast
          rw [swap, if_pos rfl]
          exact hlt
        · rw [swap, if_neg (by omega), if_neg (by omega)]
          exact hs.below j (by omega)
      · dsimp only at hj ⊢
        by_cases hlast : j = i
        · subst hlast
          rw [swap, if_neg (by omega), if_pos rfl]
          exact hs.notBelow s.2 (Nat.le_refl _) (by omega)
        · rw [swap, if_neg (by omega), if_neg (by omega)]
          exact hs.notBelow j (by omega) (by omega)
    · next hge =>
      refine ⟨Nat.le_succ_of_le hcount, hs.below, fun j hj hj' => ?_,
        hs.within.widen (Nat.le_refl lo) (by omega)⟩
      by_cases hlast : j = i
      · rw [hlast]
        exact hge
      · exact hs.notBelow j hj (by omega)

/-! ## Sorting -/

theorem quicksort_eq (lo n : Nat) (f : Nat → α) (hn : ¬ n ≤ 1) :
    quicksort lt lo n f =
      quicksort lt (lo + (partition lt lo n f).2 + 1) (n - (partition lt lo n f).2 - 1)
        (quicksort lt lo (partition lt lo n f).2
          (swap (partition lt lo n f).1 (lo + (partition lt lo n f).2) (lo + (n - 1)))) := by
  rw [quicksort, if_neg hn]

/-- The cells with the pivot in its place, before the two sides are sorted. -/
theorem placed (lt : α → α → Prop) [DecidableRel lt] (lo : Nat) (f : Nat → α) (hn : ¬ n ≤ 1) :
    let s := partition lt lo n f
    let g := swap s.1 (lo + s.2) (lo + (n - 1))
    Within lo n f g ∧
      (∀ i, lo ≤ i → i < lo + s.2 → lt (g i) (g (lo + s.2))) ∧
      (∀ i, lo + s.2 < i → i < lo + n → ¬ lt (g i) (g (lo + s.2))) := by
  have hs : Parted lt f lo (n - 1) (f (lo + (n - 1))) (partition lt lo n f) :=
    partition_parted lo n f
  have hcount := hs.count_le
  generalize partition lt lo n f = s at hs hcount ⊢
  dsimp only
  have hlast : s.1 (lo + (n - 1)) = f (lo + (n - 1)) := hs.within.outside (Or.inr (Nat.le_refl _))
  have hpivot : swap s.1 (lo + s.2) (lo + (n - 1)) (lo + s.2) = f (lo + (n - 1)) := by
    rw [swap, if_pos rfl, hlast]
  rw [hpivot]
  refine ⟨(hs.within.widen (Nat.le_refl lo) (by omega)).trans (Within.swap (by omega) (by omega)),
    fun i hi hi' => ?_, fun i hi hi' => ?_⟩
  · have hbelow := hs.below (i - lo) (by omega)
    rw [Nat.add_sub_cancel' hi] at hbelow
    rw [swap, if_neg (by omega), if_neg (by omega)]
    exact hbelow
  · rw [swap, if_neg (by omega)]
    by_cases hend : i = lo + (n - 1)
    · -- the cell that made room for the pivot
      rw [if_pos hend]
      exact hs.notBelow s.2 (Nat.le_refl _) (by omega)
    · have hnot := hs.notBelow (i - lo) (by omega) (by omega)
      rw [Nat.add_sub_cancel' (by omega)] at hnot
      rw [if_neg hend]
      exact hnot

theorem quicksort_within (lt : α → α → Prop) [DecidableRel lt] (lo n : Nat) (f : Nat → α) :
    Within lo n f (quicksort lt lo n f) := by
  induction lo, n, f using quicksort.induct lt with
  | case1 lo n f hn =>
    rw [quicksort, if_pos hn]
    exact Within.refl
  | case2 lo n f hn s ihleft _ ihright =>
    simp only [s] at ihleft ihright
    rw [quicksort_eq lo n f hn]
    have hcount := partition_le lt lo n f
    obtain ⟨hplaced, -⟩ := placed lt lo f hn
    refine hplaced.trans ?_
    exact (ihleft.widen (Nat.le_refl lo) (by omega)).trans (ihright.widen (by omega) (by omega))

theorem quicksort_sorted (hasymm : ∀ a b, lt a b → ¬ lt b a)
    (htrans : ∀ a b c, ¬ lt b a → ¬ lt c b → ¬ lt c a) (lo n : Nat) (f : Nat → α) :
    Sorted lt lo n (quicksort lt lo n f) := by
  induction lo, n, f using quicksort.induct lt with
  | case1 lo n f hn =>
    intro i j hi hij hj
    omega
  | case2 lo n f hn s ihleft _ ihright =>
    simp only [s] at ihleft ihright
    rw [quicksort_eq lo n f hn]
    have hcount := partition_le lt lo n f
    obtain ⟨-, hbelow, hnotBelow⟩ := placed lt lo f hn
    exact Sorted.join (Nat.lt_of_le_of_lt hcount (by omega)) hasymm htrans hbelow hnotBelow
      (quicksort_within lt lo _ _) (quicksort_within lt _ _ _) ihleft ihright

end

end Lomuto
