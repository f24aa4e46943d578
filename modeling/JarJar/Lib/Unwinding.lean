import Mathlib.Data.List.Basic
import Mathlib.Data.Option.Basic

/- Clients that share a system and do not notice each other. Every operation belongs to one
   client, and every client sees a part of the state. `Separates` is what has to be shown of
   single operations: one of the client's own returns and leaves to it what depends on its
   view alone, and one of another leaves the view as it is. Then what a client gets in any
   run is what it gets from its own operations, run alone (`run_view`). -/
namespace Unwinding

variable {S O R ι : Type*} {V : ι → Type*}

/-- The operations with what they returned, `none` when one of them does not return. -/
def run (step : S → O → Option (S × R)) : S → List O → Option (S × List (O × R))
  | s, [] => some (s, [])
  | s, o :: ops =>
    (step s o).bind fun q => (run step q.1 ops).map fun p => (p.1, (o, q.2) :: p.2)

structure Separates (step : S → O → Option (S × R)) (owner : O → ι) (view : (i : ι) → S → V i)
    (Inv : S → Prop) : Prop where
  total : ∀ s o, Inv s → ∃ q, step s o = some q ∧ Inv q.1
  own : ∀ s t o p q, Inv s → Inv t → view (owner o) s = view (owner o) t →
    step s o = some p → step t o = some q → p.2 = q.2 ∧ view (owner o) p.1 = view (owner o) q.1
  others : ∀ s o q i, Inv s → step s o = some q → owner o ≠ i → view i q.1 = view i s

variable {step : S → O → Option (S × R)} {owner : O → ι} {view : (i : ι) → S → V i}
  {Inv : S → Prop} {s t s' t' : S} {ops : List O} {log log' : List (O × R)}

theorem run_cons (s : S) (o : O) (ops : List O) {q : S × R} (hq : step s o = some q) :
    run step s (o :: ops) = (run step q.1 ops).map fun p => (p.1, (o, q.2) :: p.2) := by
  rw [run, hq, Option.bind_some]

theorem run_cons_eq_some {o : O} {q : S × R} (hq : step s o = some q)
    (h : run step s (o :: ops) = some (s', log)) :
    ∃ rest, run step q.1 ops = some (s', rest) ∧ log = (o, q.2) :: rest := by
  rw [run_cons s o ops hq, Option.map_eq_some_iff] at h
  obtain ⟨p, hp, heq⟩ := h
  obtain ⟨rfl, rfl⟩ := Prod.mk.inj heq
  exact ⟨p.2, hp, rfl⟩

theorem Separates.run_total (h : Separates step owner view Inv) (hs : Inv s) (ops : List O) :
    ∃ s' log, run step s ops = some (s', log) ∧ Inv s' := by
  induction ops generalizing s with
  | nil => exact ⟨s, [], rfl, hs⟩
  | cons o ops ih =>
    obtain ⟨q, hq, hinv⟩ := h.total s o hs
    obtain ⟨s', log, hrun, hs'⟩ := ih hinv
    refine ⟨s', (o, q.2) :: log, ?_, hs'⟩
    rw [run_cons s o ops hq, hrun]
    rfl

/-- A client gets from a run what it gets from its own operations. -/
theorem Separates.run_view [DecidableEq ι] (h : Separates step owner view Inv) (hs : Inv s)
    (ht : Inv t) (i : ι) (hview : view i s = view i t) (hrun : run step s ops = some (s', log))
    (halone : run step t (ops.filter fun o => owner o = i) = some (t', log')) :
    log.filter (fun p => owner p.1 = i) = log' ∧ view i s' = view i t' := by
  induction ops generalizing s t log log' with
  | nil =>
    obtain ⟨rfl, rfl⟩ := Prod.mk.inj (Option.some.inj hrun)
    obtain ⟨rfl, rfl⟩ := Prod.mk.inj (Option.some.inj halone)
    exact ⟨rfl, hview⟩
  | cons o ops ih =>
    obtain ⟨p, hp, hp'⟩ := h.total s o hs
    obtain ⟨rest, hrest, rfl⟩ := run_cons_eq_some hp hrun
    by_cases howner : owner o = i
    · rw [List.filter_cons_of_pos (by simpa using howner)] at halone
      obtain ⟨q, hq, hq'⟩ := h.total t o ht
      obtain ⟨rest', hrest', rfl⟩ := run_cons_eq_some hq halone
      subst howner
      obtain ⟨hreturned, hleft⟩ := h.own s t o p q hs ht hview hp hq
      obtain ⟨hlog, hend⟩ := ih hp' hq' hleft hrest hrest'
      rw [List.filter_cons_of_pos (by simp), hlog, hreturned]
      exact ⟨rfl, hend⟩
    · rw [List.filter_cons_of_neg (by simpa using howner)] at halone
      have hsame := (h.others s o p i hs hp howner).trans hview
      obtain ⟨hlog, hend⟩ := ih hp' ht hsame hrest halone
      rw [List.filter_cons_of_neg (by simpa using howner)]
      exact ⟨hlog, hend⟩

end Unwinding
