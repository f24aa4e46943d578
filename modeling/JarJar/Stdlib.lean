import JarJar.Types
import Mathlib.Data.List.Basic

/- Number conversion of the C library. All four functions store the digits of a
   number from the last one on and then turn the text around in place.

   Correspondence (C ↔ Lean):
     a NUL-terminated string          ↔ `CStr`
     the `do … while (value)` loop    ↔ `digits`
     `itoa`, `ltoa`, `utoa`, `ultoa`  ↔ `itoa`, `ltoa`, `utoa`, `ultoa`
   The text a function leaves in the caller's buffer is its result. -/
namespace JarJar.Libc

/-- The byte of a character. -/
def ch (c : Char) : U8 := BitVec.ofNat 8 c.toNat

/-- The bytes of a C string, up to the NUL. -/
structure CStr where
  bytes : List U8
  nonzero : ∀ b ∈ bytes, b ≠ 0

namespace CStr

def empty : CStr := ⟨[], fun _ h => absurd h List.not_mem_nil⟩

def append (a b : CStr) : CStr where
  bytes := a.bytes ++ b.bytes
  nonzero := by
    intro x hx
    cases List.mem_append.mp hx with
    | inl h => exact a.nonzero x h
    | inr h => exact b.nonzero x h

end CStr

/-- `"0123456789abcdefghijklmnopqrstuvwxyz"`. -/
def digitTable : List U8 := "0123456789abcdefghijklmnopqrstuvwxyz".toList.map ch

/-- A base the digit table is long enough for. -/
structure Base where
  val : Nat
  two_le : 2 ≤ val
  le_36 : val ≤ 36

/-- The digits of `value`, the last one first. Division and remainder truncate,
so that the remainder has the sign of `value`. -/
def digits (base : Base) (value : Int) : List U8 :=
  digitTable.getD (value.tmod base.val).natAbs 0 ::
    if value.tdiv base.val = 0 then [] else digits base (value.tdiv base.val)
termination_by value.natAbs
decreasing_by
  next hne =>
  have hdiv : (value.tdiv base.val).natAbs = value.natAbs / base.val := Int.natAbs_tdiv value base.val
  have hrest : (value.tdiv base.val).natAbs ≠ 0 := fun hz => hne (Int.natAbs_eq_zero.mp hz)
  rw [hdiv] at hrest ⊢
  apply Nat.div_lt_self _ base.two_le
  exact Nat.pos_of_ne_zero fun hz => hrest (by rw [hz, Nat.zero_div])

theorem digitTable_nonzero {i : Nat} (h : i < 36) : digitTable.getD i 0 ≠ 0 :=
  (by decide : ∀ i < 36, digitTable.getD i 0 ≠ 0) i h

theorem digits_nonzero (base : Base) (value : Int) : ∀ b ∈ digits base value, b ≠ 0 := by
  induction value using digits.induct base with
  | case1 value ih =>
    intro b hb
    rw [digits] at hb
    cases List.mem_cons.mp hb with
    | inl hdigit =>
      rw [hdigit]
      apply digitTable_nonzero
      have hmod : (value.tmod base.val).natAbs = value.natAbs % base.val :=
        Int.natAbs_tmod value base.val
      have hlt := Nat.mod_lt value.natAbs (Nat.lt_of_lt_of_le (by decide) base.two_le)
      have := base.le_36
      omega
    | inr hrest =>
      split at hrest
      · exact absurd hrest List.not_mem_nil
      · next hne => exact ih hne b hrest

/-- The digits in the order they are read, behind `sign`. -/
def number (sign : CStr) (base : Base) (value : Int) : CStr :=
  sign.append ⟨(digits base value).reverse, fun b hb =>
    digits_nonzero base value b (List.mem_reverse.mp hb)⟩

/-- The base check every function makes first. -/
def checkBase (base : Nat) : Option Base :=
  if h : 2 ≤ base ∧ base ≤ 36 then some ⟨base, h.1, h.2⟩ else none

def minus : CStr := ⟨[ch '-'], by decide⟩

def itoa (value : BitVec 32) (base : Nat) : CStr :=
  match checkBase base with
  | none => CStr.empty
  | some b =>
    number (if value.toInt < 0 ∧ base = 10 then minus else CStr.empty) b value.toInt

def ltoa (value : U64) (base : Nat) : CStr :=
  match checkBase base with
  | none => CStr.empty
  | some b =>
    number (if value.toInt < 0 ∧ base = 10 then minus else CStr.empty) b value.toInt

def utoa (value : BitVec 32) (base : Nat) : CStr :=
  match checkBase base with
  | none => CStr.empty
  | some b => number CStr.empty b value.toNat

def ultoa (value : U64) (base : Nat) : CStr :=
  match checkBase base with
  | none => CStr.empty
  | some b => number CStr.empty b value.toNat

/-! ## Digits of natural numbers -/

theorem digits_neg (base : Base) (value : Int) : digits base (-value) = digits base value := by
  induction value using digits.induct base with
  | case1 value ih =>
    conv_lhs => rw [digits, Int.neg_tmod, Int.neg_tdiv, Int.natAbs_neg]
    conv_rhs => rw [digits]
    simp only [Int.neg_eq_zero]
    split
    · rfl
    · next hne => rw [ih hne]

theorem digits_natAbs (base : Base) (value : Int) :
    digits base (value.natAbs : Nat) = digits base value := by
  obtain hv | hv := Int.natAbs_eq value
  · rw [← hv]
  · rw [← Int.neg_eq_comm.mp hv.symm, digits_neg]

section
variable {base : Base} {n : Nat}

theorem digits_natCast (base : Base) (n : Nat) :
    digits base n = digitTable.getD (n % base.val) 0 ::
      if n / base.val = 0 then [] else digits base (n / base.val : Nat) := by
  rw [digits, ← Int.ofNat_tdiv, Int.natAbs_tmod, Int.natAbs_natCast, Int.natAbs_natCast]
  simp only [Int.natCast_eq_zero]

/-- Induction on a number along its digits. -/
theorem digits_induction {P : Nat → Prop} (base : Base)
    (step : ∀ n, (n / base.val ≠ 0 → P (n / base.val)) → P n) (n : Nat) : P n := by
  induction n using Nat.strong_induction_on with
  | _ n ih =>
    refine step n fun hne => ih _ (Nat.div_lt_self ?_ base.two_le)
    exact Nat.pos_of_ne_zero fun hz => hne (by rw [hz, Nat.zero_div])

/-- The number some digits stand for, the last one first. -/
def valueOf (base : Base) (text : List U8) : Nat :=
  text.foldr (fun b value => digitTable.idxOf b + base.val * value) 0

theorem idxOf_digitTable {i : Nat} (h : i < 36) : digitTable.idxOf (digitTable.getD i 0) = i :=
  (by decide : ∀ i < 36, digitTable.idxOf (digitTable.getD i 0) = i) i h

@[simp] theorem valueOf_digits (base : Base) (n : Nat) : valueOf base (digits base n) = n := by
  induction n using digits_induction base with
  | step n ih =>
    have hlt : n % base.val < 36 :=
      Nat.lt_of_lt_of_le (Nat.mod_lt n (Nat.lt_of_lt_of_le (by decide) base.two_le)) base.le_36
    rw [digits_natCast, valueOf, List.foldr_cons, idxOf_digitTable hlt]
    split
    · next hz => rw [List.foldr_nil, ← hz, Nat.mod_add_div]
    · next hne => rw [← valueOf, ih hne, Nat.mod_add_div]

theorem digits_length_mono {m : Nat} (h : m ≤ n) :
    (digits base m).length ≤ (digits base n).length := by
  induction n using digits_induction base generalizing m with
  | step n ih =>
    have hdiv : m / base.val ≤ n / base.val := Nat.div_le_div_right h
    rw [digits_natCast base m, digits_natCast base n, List.length_cons, List.length_cons]
    by_cases hm : m / base.val = 0
    · rw [if_pos hm]
      simp
    · have hn : n / base.val ≠ 0 := fun hz => hm (Nat.le_zero.mp (hz ▸ hdiv))
      rw [if_neg hm, if_neg hn]
      exact Nat.succ_le_succ (ih hn hdiv)

theorem digits_length_le {k : Nat} (h : n < 2^k) : (digits base n).length ≤ k + 1 := by
  induction k generalizing n with
  | zero =>
    obtain rfl : n = 0 := Nat.lt_one_iff.mp h
    rw [digits_natCast, if_pos (Nat.zero_div _)]
    exact Nat.le_refl 1
  | succ k ih =>
    rw [digits_natCast, List.length_cons]
    split
    · exact Nat.succ_le_succ (Nat.zero_le _)
    · apply Nat.succ_le_succ
      apply ih
      have hhalf : n / base.val ≤ n / 2 := Nat.div_le_div_left base.two_le (by decide)
      rw [Nat.pow_succ] at h
      omega

end

theorem itoa_length_le (v : BitVec 32) : (itoa v 10).bytes.length ≤ 34 := by
  have htext : (itoa v 10).bytes =
      (if v.toInt < 0 ∧ 10 = 10 then minus else CStr.empty).bytes ++
        (digits ⟨10, by decide, by decide⟩ v.toInt).reverse := rfl
  have hlow := BitVec.le_toInt v
  have hhigh := BitVec.toInt_lt (x := v)
  have hdigits : (digits ⟨10, by decide, by decide⟩ (v.toInt.natAbs : Nat)).length ≤ 32 + 1 :=
    digits_length_le (by omega)
  rw [htext, ← digits_natAbs, List.length_append, List.length_reverse]
  split
  · exact Nat.add_le_add (Nat.le_refl 1) hdigits
  · exact Nat.le_trans (Nat.add_le_add (Nat.le_refl 0) hdigits) (by decide)

end JarJar.Libc
