import Mathlib.Data.Nat.Basic

/- Runs of indices that are as long as they can be: between two indices at which something
   ends, or from the first index on. A scan from left to right that skips what ends and stops at
   the next end meets one of them after the other. -/
namespace MaximalRun

structure IsRun (ends : Nat → Prop) (i n : Nat) : Prop where
  pos : 0 < n
  left : i = 0 ∨ ends (i - 1)
  inside : ∀ j, i ≤ j → j < i + n → ¬ ends j
  right : ends (i + n)

variable {ends : Nat → Prop} {i n k start stop : Nat}

theorem IsRun.lt (h : IsRun ends i n) (hskip : ∀ j, k ≤ j → ends j) : i < k := by
  apply Nat.lt_of_not_le
  intro hle
  have hpos := h.pos
  exact h.inside i (Nat.le_refl i) (by omega) (hskip i hle)

/-- One turn of a scan from `k` on: the runs from there on are the one from `start` to `stop` and
those behind it. -/
theorem isRun_scan_iff (hk : k = 0 ∨ ends (k - 1)) (hle : k ≤ start)
    (hskip : ∀ j, k ≤ j → j < start → ends j) (hlt : start < stop)
    (hrun : ∀ j, start ≤ j → j < stop → ¬ ends j) (hstop : ends stop) :
    IsRun ends i n ∧ k ≤ i ↔ (i = start ∧ i + n = stop) ∨ (IsRun ends i n ∧ stop + 1 ≤ i) := by
  constructor
  · rintro ⟨h, hki⟩
    have hpos := h.pos
    have hstart : start ≤ i := by
      apply Nat.le_of_not_lt
      intro hlt
      exact h.inside i (Nat.le_refl i) (by omega) (hskip i hki hlt)
    obtain rfl | hafter := Nat.eq_or_lt_of_le hstart
    · refine Or.inl ⟨rfl, Nat.le_antisymm ?_ ?_⟩
      · apply Nat.le_of_not_lt
        intro hbehind
        exact h.inside stop (Nat.le_of_lt hlt) hbehind hstop
      · apply Nat.le_of_not_lt
        intro hbefore
        exact hrun (start + n) (Nat.le_add_right _ _) hbefore h.right
    · -- the run does not begin inside of the first one
      refine Or.inr ⟨h, ?_⟩
      apply Nat.lt_of_not_le
      intro hwithin
      obtain hzero | hends := h.left
      · omega
      · exact hrun (i - 1) (by omega) (by omega) hends
  · rintro (⟨rfl, rfl⟩ | ⟨h, hi⟩)
    · refine ⟨⟨by omega, ?_, hrun, hstop⟩, hle⟩
      obtain rfl | hbefore := Nat.eq_or_lt_of_le hle
      · exact hk
      · exact Or.inr (hskip (i - 1) (by omega) (by omega))
    · exact ⟨h, by omega⟩

end MaximalRun
