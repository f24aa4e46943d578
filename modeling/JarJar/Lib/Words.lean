import Mathlib.Data.List.Basic

/- The words of a text: its maximal stretches without a separator. The rules say how
   a scan that skips separators and cuts off one word after the other finds them. -/
namespace Words

variable {α : Type*} (sep : α → Bool)

def words (text : List α) : List (List α) := (text.splitOnP sep).filter fun w => !w.isEmpty

variable {sep} {a : α} {w text rest : List α}

@[simp] theorem words_nil : words sep [] = [] := rfl

theorem words_append (text rest : List α) (ha : sep a = true) :
    words sep (text ++ a :: rest) = words sep text ++ words sep rest := by
  rw [words, List.splitOnP_append_cons text rest ha, List.filter_append]
  rfl

theorem words_separator (ha : sep a = true) : words sep (a :: rest) = words sep rest := by
  simpa using words_append [] rest ha

theorem words_single (hne : w ≠ []) (hw : ∀ x ∈ w, sep x = false) : words sep w = [w] := by
  rw [words, List.splitOnP_eq_singleton hw]
  simp [hne]

theorem words_map {β : Type*} (f : β → α) (text : List β) :
    words sep (text.map f) = (words (fun b => sep (f b)) text).map (List.map f) := by
  have hsplit : (text.map f).splitOnP sep =
      (text.splitOnP fun b => sep (f b)).map (List.map f) := by
    induction text with
    | nil => rfl
    | cons b text ih =>
      rw [List.map_cons, List.splitOnP_cons_eq_if_modifyHead, List.splitOnP_cons_eq_if_modifyHead, ih]
      by_cases hb : sep (f b) = true
      · simp [hb]
      · cases text.splitOnP fun b => sep (f b) <;> simp [hb]
  rw [words, words, hsplit, List.filter_map]
  congr 2
  funext w
  simp

end Words
