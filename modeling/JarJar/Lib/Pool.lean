import Mathlib.Data.Set.BooleanAlgebra
import Mathlib.Order.Bounds.Basic
import Mathlib.Order.CompletePartialOrder
import Mathlib.Logic.Relation

/- A pool of resources: the free ones and the ones handed out. An allocation
   takes the least free resource, a release gives a held one back. However the
   two interleave, no resource is lost and none is in two places. -/

/-- The free resources of a pool and the ones its users hold. -/
structure Pool (α : Type*) where
  free : Set α
  held : Set α

namespace Pool
variable {α : Type*} {whole : Set α} {p q : Pool α}

/-- One operation on the pool. -/
inductive Step [Preorder α] : Pool α → Pool α → Prop
  /-- The least free resource is handed out. -/
  | take {p : Pool α} {a : α} (h : IsLeast p.free a) : Step p ⟨p.free \ {a}, insert a p.held⟩
  /-- Nothing is free, and nothing is handed out. -/
  | exhausted {p : Pool α} (h : p.free = ∅) : Step p p
  /-- A held resource comes back. -/
  | give {p : Pool α} {a : α} (h : a ∈ p.held) : Step p ⟨insert a p.free, p.held \ {a}⟩

/-- Every resource of `whole` is in exactly one of the two places. -/
structure Conserves (whole : Set α) (p : Pool α) : Prop where
  union : p.free ∪ p.held = whole
  disjoint : Disjoint p.free p.held

theorem conserves_start (whole : Set α) : Conserves whole ⟨whole, ∅⟩ :=
  ⟨Set.union_empty _, Set.disjoint_empty _⟩

theorem Step.conserves [Preorder α] (h : Step p q) (hp : Conserves whole p) : Conserves whole q := by
  cases h with
  | @take a ha =>
    refine ⟨?_, ?_⟩
    · rw [← hp.union]
      ext x
      by_cases hx : x = a
      · subst hx; simp [ha.1]
      · simp [hx]
    · rw [Set.disjoint_insert_right]
      exact ⟨fun h => h.2 rfl, hp.disjoint.mono_left Set.sdiff_subset⟩
  | exhausted _ => exact hp
  | @give a ha =>
    refine ⟨?_, ?_⟩
    · rw [← hp.union]
      ext x
      by_cases hx : x = a
      · subst hx; simp [ha]
      · simp [hx]
    · rw [Set.disjoint_insert_left]
      exact ⟨fun h => h.2 rfl, hp.disjoint.mono_right Set.sdiff_subset⟩

/-- Conservation over any sequence of operations. -/
theorem steps_conserve [Preorder α] (h : Relation.ReflTransGen Step p q) (hp : Conserves whole p) :
    Conserves whole q := by
  induction h with
  | refl => exact hp
  | tail _ hstep ih => exact hstep.conserves ih

theorem Conserves.held_subset (h : Conserves whole p) : p.held ⊆ whole :=
  h.union ▸ Set.subset_union_right

theorem Conserves.free_subset (h : Conserves whole p) : p.free ⊆ whole :=
  h.union ▸ Set.subset_union_left

theorem Conserves.take_fresh [Preorder α] (h : Conserves whole p) {a : α} (ha : IsLeast p.free a) :
    a ∉ p.held :=
  Set.disjoint_left.mp h.disjoint ha.1

end Pool
