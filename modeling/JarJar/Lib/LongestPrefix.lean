import Mathlib.Data.List.Basic
import Mathlib.Data.List.Infix
import Mathlib.Data.List.TakeWhile

/- The longest prefix of a text that a language has. A scanner that consumes as much as it
   can is right when what it consumes is that prefix; the rules below find it part by part:
   a run of one class of letters, a part in front that every candidate begins with. -/
namespace LongestPrefix
variable {α : Type}

/-- `pre` is in the language and no prefix of `text` that is longer is. -/
structure IsLongest (L : List α → Prop) (text pre : List α) : Prop where
  starts : pre <+: text
  accepted : L pre
  longest : ∀ other, other <+: text → L other → other.length ≤ pre.length

variable {L L' : List α → Prop} {text pre lead : List α}

/-- A letter or more, all of one class. -/
def Letters (p : α → Bool) (text : List α) : Prop := text ≠ [] ∧ ∀ c ∈ text, p c = true

theorem length_le_takeWhile {p : α → Bool} (hstarts : pre <+: text) (hpre : ∀ c ∈ pre, p c = true) :
    pre.length ≤ (text.takeWhile p).length := by
  obtain ⟨rest, rfl⟩ := hstarts
  rw [List.takeWhile_append_of_pos hpre, List.length_append]
  exact Nat.le_add_right _ _

theorem isLongest_letters {p : α → Bool} (hne : text.takeWhile p ≠ []) :
    IsLongest (Letters p) text (text.takeWhile p) where
  starts := List.takeWhile_prefix p
  accepted := ⟨hne, fun _ hc => List.mem_takeWhile_imp hc⟩
  longest _ hstarts hletters := length_le_takeWhile hstarts hletters.2

/-- What every candidate begins with can be left out. -/
theorem IsLongest.append_left (h : IsLongest L' text pre) (haccepted : L (lead ++ pre))
    (hsplit : ∀ other, other <+: lead ++ text → L other →
      ∃ body, other = lead ++ body ∧ L' body) : IsLongest L (lead ++ text) (lead ++ pre) where
  starts := (List.prefix_append_right_inj lead).mpr h.starts
  accepted := haccepted
  longest other hstarts hother := by
    obtain ⟨body, rfl, hbody⟩ := hsplit other hstarts hother
    have hle := h.longest body ((List.prefix_append_right_inj lead).mp hstarts) hbody
    rw [List.length_append, List.length_append]
    exact Nat.add_le_add_left hle _

theorem IsLongest.of_imp (h : IsLongest L' text pre) (haccepted : L pre)
    (himp : ∀ other, other <+: text → L other → L' other) : IsLongest L text pre where
  starts := h.starts
  accepted := haccepted
  longest other hstarts hother := h.longest other hstarts (himp other hstarts hother)

end LongestPrefix
