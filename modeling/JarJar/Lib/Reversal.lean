import Mathlib.Data.List.GetD
import Mathlib.Logic.Function.Basic

/- Turning a stretch of an array around in place: its two ends are swapped, then those of what
   is between them, until they meet. -/
namespace Reversal
variable {α : Type}

/-- The array with what stands from `lo` to `hi` turned around. -/
def reversed (f : Nat → α) (lo hi x : Nat) : α :=
  if lo ≤ x ∧ x ≤ hi then f (lo + hi - x) else f x

def swapEnds (f : Nat → α) (lo hi : Nat) : Nat → α :=
  Function.update (Function.update f lo (f hi)) hi (f lo)

variable {f : Nat → α} {lo hi : Nat}

theorem reversed_outside {x : Nat} (h : x < lo ∨ hi < x) : reversed f lo hi x = f x :=
  if_neg (by omega)

theorem reversed_of_le (h : hi ≤ lo) : reversed f lo hi = f := by
  funext x
  rw [reversed]
  split
  · congr 1
    omega
  · rfl

/-- With its ends swapped, the rest of a stretch is what is left to turn around. -/
theorem reversed_swapEnds (h : lo < hi) :
    reversed (swapEnds f lo hi) (lo + 1) (hi - 1) = reversed f lo hi := by
  funext x
  rw [reversed, reversed]
  by_cases hinner : lo + 1 ≤ x ∧ x ≤ hi - 1
  · rw [if_pos hinner, if_pos (by omega), swapEnds, Function.update_of_ne (by omega),
      Function.update_of_ne (by omega)]
    congr 1
    omega
  · rw [if_neg hinner, swapEnds]
    by_cases hhi : x = hi
    · rw [hhi, Function.update_self, if_pos (by omega)]
      congr 1
      omega
    · rw [Function.update_of_ne hhi]
      by_cases hlo : x = lo
      · rw [hlo, Function.update_self, if_pos (by omega)]
        congr 1
        omega
      · rw [Function.update_of_ne hlo, if_neg (by omega)]

theorem reversed_spells {l : List α} {d : α} (hl : ∀ i < l.length, f (lo + i) = l.getD i d)
    {i : Nat} (hi : i < l.length) :
    reversed f lo (lo + l.length - 1) (lo + i) = l.reverse.getD i d := by
  have hmirror : lo + (lo + l.length - 1) - (lo + i) = lo + (l.length - 1 - i) := by omega
  rw [reversed, if_pos (by omega), hmirror, hl _ (by omega), List.getD_eq_getElem?_getD,
    List.getD_eq_getElem?_getD, List.getElem?_reverse hi]

end Reversal
