import Mathlib.Data.List.Basic

/- Runs of a system one operation at a time, and what holds along them: of every
   state that is passed (`Throughout`), or of every operation at the state it meets
   (`Each`). `exact_iff` is the rule for a property that holds of every state of a
   run as long as every operation meets a condition, and breaks at the first one
   that does not. -/
namespace Runs

variable {S O : Type*} (step : S → O → S)

def run (s : S) (ops : List O) : S := ops.foldl step s

/-- Every operation of a run satisfies `P` at the state it meets. -/
def Each (P : S → O → Prop) : S → List O → Prop
  | _, [] => True
  | s, o :: ops => P s o ∧ Each P (step s o) ops

/-- Every state of a run satisfies `A`. -/
def Throughout (A : S → Prop) : S → List O → Prop
  | s, [] => A s
  | s, o :: ops => A s ∧ Throughout A (step s o) ops

variable {step} {A I : S → Prop} {P Q : S → O → Prop} {s : S} {ops : List O}

theorem each_iff : Each step P s ops ↔
    ∀ before o after, ops = before ++ o :: after → P (run step s before) o := by
  induction ops generalizing s with
  | nil =>
    refine ⟨fun _ before o after h => ?_, fun _ => trivial⟩
    simp at h
  | cons a ops ih =>
    refine ⟨fun h before o after heq => ?_, fun h => ⟨h [] a ops rfl, ih.mpr ?_⟩⟩
    · cases before with
      | nil =>
        obtain ⟨rfl, -⟩ := List.cons.inj heq
        exact h.1
      | cons b before =>
        obtain ⟨rfl, htail⟩ := List.cons.inj heq
        exact ih.mp h.2 before o after htail
    · intro before o after heq
      exact h (a :: before) o after (by rw [heq, List.cons_append])

theorem throughout_iff : Throughout step A s ops ↔
    ∀ before after, ops = before ++ after → A (run step s before) := by
  induction ops generalizing s with
  | nil =>
    refine ⟨fun h before after heq => ?_, fun h => h [] [] rfl⟩
    obtain ⟨rfl, -⟩ := List.append_eq_nil_iff.mp heq.symm
    exact h
  | cons a ops ih =>
    refine ⟨fun h before after heq => ?_, fun h => ⟨h [] (a :: ops) rfl, ih.mpr ?_⟩⟩
    · cases before with
      | nil => exact h.1
      | cons b before =>
        obtain ⟨rfl, htail⟩ := List.cons.inj heq
        exact ih.mp h.2 before after htail
    · intro before after heq
      exact h (a :: before) after (by rw [heq, List.cons_append])

theorem each_forall {L : O → Prop} : Each step (fun _ o => L o) s ops ↔ ∀ o ∈ ops, L o := by
  induction ops generalizing s with
  | nil => simp [Each]
  | cons o ops ih => rw [Each, ih, List.forall_mem_cons]

theorem Throughout.start (h : Throughout step A s ops) : A s := by
  cases ops with
  | nil => exact h
  | cons o ops => exact h.1

theorem each_append {ops' : List O} :
    Each step P s (ops ++ ops') ↔ Each step P s ops ∧ Each step P (run step s ops) ops' := by
  induction ops generalizing s with
  | nil => exact ⟨fun h => ⟨trivial, h⟩, fun h => h.2⟩
  | cons a ops ih =>
    refine ⟨fun h => ?_, fun h => ⟨h.1.1, ih.mpr ⟨h.1.2, h.2⟩⟩⟩
    obtain ⟨h₁, h₂⟩ := ih.mp h.2
    exact ⟨⟨h.1, h₁⟩, h₂⟩

/-- What every operation that meets `P` keeps holds at the end of the run. -/
theorem Each.invariant (hkeep : ∀ s o, I s → P s o → I (step s o)) (h : Each step P s ops)
    (h0 : I s) : I (run step s ops) := by
  induction ops generalizing s with
  | nil => exact h0
  | cons o ops ih => exact ih h.2 (hkeep s o h0 h.1)

/-- Along a run a measure that only grows stays below what it ends at. -/
theorem each_of_bound {L : O → Prop} {μ : S → Nat} {n : Nat} (hmono : ∀ s o, μ s ≤ μ (step s o))
    (hL : ∀ o ∈ ops, L o) (hn : μ (run step s ops) ≤ n) :
    Each step (fun s o => L o ∧ μ (step s o) ≤ n) s ops := by
  have hgrows : ∀ ops s, μ s ≤ μ (run step s ops) := by
    intro ops
    induction ops with
    | nil => exact fun s => Nat.le_refl _
    | cons o ops ih => exact fun s => Nat.le_trans (hmono s o) (ih _)
  induction ops generalizing s with
  | nil => trivial
  | cons o ops ih =>
    refine ⟨⟨hL o List.mem_cons_self, Nat.le_trans (hgrows ops _) hn⟩, ih ?_ hn⟩
    exact fun o ho => hL o (List.mem_cons_of_mem _ ho)

/-- A property of all states of a run is a condition on all its operations, when
the condition keeps an invariant that implies the property, and an operation that
fails it breaks the property. -/
theorem exact_iff (hA : ∀ s, I s → A s) (hkeep : ∀ s o, I s → Q s o → P s o → I (step s o))
    (hbreak : ∀ s o, I s → Q s o → ¬ P s o → ¬ A (step s o)) (h0 : I s)
    (hQ : Each step Q s ops) : Throughout step A s ops ↔ Each step P s ops := by
  induction ops generalizing s with
  | nil => exact ⟨fun _ => trivial, fun _ => hA s h0⟩
  | cons o ops ih =>
    -- the first operation that fails `P` breaks `A` at once
    by_cases hp : P s o
    · have hrest := ih (hkeep s o h0 hQ.1 hp) hQ.2
      exact ⟨fun h => ⟨hp, hrest.mp h.2⟩, fun h => ⟨hA s h0, hrest.mpr h.2⟩⟩
    · exact ⟨fun h => absurd h.2.start (hbreak s o h0 hQ.1 hp), fun h => absurd h.1 hp⟩

end Runs
