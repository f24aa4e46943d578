import Mathlib.Algebra.Group.Nat.Defs
import Mathlib.Data.Nat.Basic

/- Counted loops, `for (i = 0; i < n; i++)`, on a state. `loop_invariant` is the rule
   for an invariant that may speak of the counter, `loop_simulates` the one for two
   loops that go side by side. -/
namespace CountedLoop

variable {S T : Type*}

def loop (n : Nat) (body : Nat → S → S) (s : S) : S :=
  match n with
  | 0 => s
  | n + 1 => body n (loop n body s)

variable {n : Nat} {body : Nat → S → S} {body' : Nat → T → T} {s : S} {t : T}

theorem loop_invariant {P : Nat → S → Prop} (hstart : P 0 s)
    (hstep : ∀ i, i < n → ∀ s, P i s → P (i + 1) (body i s)) : P n (loop n body s) := by
  induction n with
  | zero => exact hstart
  | succ n ih =>
    apply hstep n (Nat.lt_succ_self n)
    exact ih fun i hi => hstep i (Nat.lt_succ_of_lt hi)

theorem loop_keeps {P : S → Prop} (hstart : P s) (hstep : ∀ i, i < n → ∀ s, P s → P (body i s)) :
    P (loop n body s) :=
  loop_invariant (P := fun _ => P) hstart hstep

/-- Two loops whose turns keep a relation between their states end in related states. -/
theorem loop_simulates {R : Nat → S → T → Prop} (hstart : R 0 s t)
    (hstep : ∀ i, i < n → ∀ s t, R i s t → R (i + 1) (body i s) (body' i t)) :
    R n (loop n body s) (loop n body' t) := by
  induction n with
  | zero => exact hstart
  | succ n ih =>
    apply hstep n (Nat.lt_succ_self n)
    exact ih fun i hi => hstep i (Nat.lt_succ_of_lt hi)

end CountedLoop
