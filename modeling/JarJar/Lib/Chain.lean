import Mathlib.Logic.Function.Basic
import Mathlib.Data.List.Basic

/- Singly linked lists in memory. `next p` is the link in the node at `p`, when
   there is a node at `p`. `Chain null next p l` says that following the links from
   `p` visits the nodes `l` and then ends at `null`. There is at most one such
   `l`, so a chain visits no node twice, and a pointer whose links run into a
   missing node or round in a circle has no chain at all. -/
namespace LinkedList

variable {P : Type*}

def Chain (null : P) (next : P → Option P) : P → List P → Prop
  | p, [] => p = null
  | p, a :: l => p = a ∧ p ≠ null ∧ ∃ q, next a = some q ∧ Chain null next q l

variable {null : P} {next next' : P → Option P} {p a : P} {l l' : List P}

theorem Chain.unique (h : Chain null next p l) (h' : Chain null next p l') : l = l' := by
  induction l generalizing p l' with
  | nil =>
    cases l' with
    | nil => rfl
    | cons b l' => exact absurd h h'.2.1
  | cons a l ih =>
    cases l' with
    | nil => exact absurd h' h.2.1
    | cons b l' =>
      obtain ⟨rfl, -, q, hq, hl⟩ := h
      obtain ⟨rfl, -, q', hq', hl'⟩ := h'
      obtain rfl := Option.some.inj (hq.symm.trans hq')
      rw [ih hl hl']

theorem Chain.suffix {pre post : List P} (h : Chain null next p (pre ++ a :: post)) :
    Chain null next a (a :: post) := by
  induction pre generalizing p with
  | nil =>
    obtain ⟨rfl, hne, hrest⟩ := h
    exact ⟨rfl, hne, hrest⟩
  | cons b pre ih =>
    obtain ⟨-, -, q, -, hq⟩ := h
    exact ih hq

theorem Chain.not_mem_tail (h : Chain null next p (a :: l)) : a ∉ l := by
  -- a second visit would give a shorter chain from the same node
  intro ha
  obtain ⟨pre, post, rfl⟩ := List.append_of_mem ha
  obtain ⟨rfl, hne, q, hq, hrest⟩ := h
  have hhere : Chain null next p ((p :: pre) ++ p :: post) := ⟨rfl, hne, q, hq, hrest⟩
  have hthere : Chain null next p (p :: post) := hhere.suffix
  have hlen := congrArg List.length (hhere.unique hthere)
  rw [List.length_append, List.length_cons, List.length_cons] at hlen
  omega

theorem Chain.congr (h : Chain null next p l) (hsame : ∀ a ∈ l, next' a = next a) :
    Chain null next' p l := by
  induction l generalizing p with
  | nil => exact h
  | cons a l ih =>
    obtain ⟨hpa, hne, q, hq, hl⟩ := h
    refine ⟨hpa, hne, q, (hsame a List.mem_cons_self).trans hq, ih hl ?_⟩
    exact fun b hb => hsame b (List.mem_cons_of_mem _ hb)

theorem Chain.node (h : Chain null next p l) (ha : a ∈ l) : next a ≠ none := by
  obtain ⟨pre, post, rfl⟩ := List.append_of_mem ha
  obtain ⟨-, -, q, hq, -⟩ := h.suffix
  rw [hq]
  exact Option.some_ne_none q

section Updates
variable [DecidableEq P]

theorem Chain.push (h : Chain null next p l) (hnull : a ≠ null) (ha : a ∉ l) :
    Chain null (Function.update next a (some p)) a (a :: l) := by
  refine ⟨rfl, hnull, p, Function.update_self _ _ _, h.congr fun b hb => ?_⟩
  apply Function.update_of_ne
  intro hba
  exact ha (hba ▸ hb)

theorem Chain.of_push (hnull : a ≠ null)
    (h : Chain null (Function.update next a (some p)) a l) : ∃ l', Chain null next p l' := by
  cases l with
  | nil => exact absurd h hnull
  | cons b l =>
    have hmem := h.not_mem_tail
    obtain ⟨rfl, -, q, hq, hl⟩ := h
    rw [Function.update_self] at hq
    obtain rfl := Option.some.inj hq
    refine ⟨l, hl.congr fun b hb => ?_⟩
    symm
    apply Function.update_of_ne
    intro hba
    exact hmem (hba ▸ hb)

theorem Chain.of_remove (h : Chain null (Function.update next a none) p l) :
    Chain null next p l := by
  have hsame : ∀ b ∈ l, next b = Function.update next a none b := by
    intro b hb
    symm
    apply Function.update_of_ne
    intro hba
    apply h.node hb
    rw [hba, Function.update_self]
  exact h.congr hsame

end Updates

end LinkedList
