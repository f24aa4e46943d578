import JarJar.StringCopies
import JarJar.Lib.Reversal

/- The number conversions in memory: what a conversion leaves in the caller's buffer is its
   text as `JarJar.Stdlib` has it, and nothing beyond the NUL of that text is touched.

   Correspondence (C ↔ Lean):
     `while (low < ptr)`               ↔ `turnAround` (`swapped`)
     the body behind the base check    ↔ `storeNumber`
     `itoa(value, str, base)`, …       ↔ `itoaBuffer`, `ltoaBuffer`, `utoaBuffer`, `ultoaBuffer` -/
namespace JarJar.Libc
open Reversal

/-- `char tmp = *low; *low++ = *ptr; *ptr-- = tmp`. -/
def swapped (low ptr : Nat) (m : Memory) : Memory :=
  let (tmp, m) := m.load low
  let (c, m) := m.load ptr
  (m.store low c).store ptr tmp

def turnAround (low ptr : Nat) (m : Memory) : Memory :=
  if low < ptr then turnAround (low + 1) (ptr - 1) (swapped low ptr m) else m
termination_by ptr - low

/-- The sign, the digits from the last one on and the NUL are stored, and the digits turned
around. -/
def storeNumber (sign : CStr) (base : Base) (value : Int) (str : Nat) (m : Memory) : Memory :=
  let m := m.storeAll str sign.bytes
  let low := str + sign.bytes.length
  let m := m.storeAll low (digits base value)
  let ptr := low + (digits base value).length
  turnAround low (ptr - 1) (m.store ptr 0)

def itoaBuffer (value : BitVec 32) (str base : Nat) (m : Memory) : Memory :=
  match checkBase base with
  | none => m.store str 0
  | some b =>
    storeNumber (if value.toInt < 0 ∧ base = 10 then minus else CStr.empty) b value.toInt str m

def ltoaBuffer (value : U64) (str base : Nat) (m : Memory) : Memory :=
  match checkBase base with
  | none => m.store str 0
  | some b =>
    storeNumber (if value.toInt < 0 ∧ base = 10 then minus else CStr.empty) b value.toInt str m

def utoaBuffer (value : BitVec 32) (str base : Nat) (m : Memory) : Memory :=
  match checkBase base with
  | none => m.store str 0
  | some b => storeNumber CStr.empty b value.toNat str m

def ultoaBuffer (value : U64) (str base : Nat) (m : Memory) : Memory :=
  match checkBase base with
  | none => m.store str 0
  | some b => storeNumber CStr.empty b value.toNat str m

/-! ## The two moving pointers -/

section
variable {low ptr : Nat} {m : Memory}

theorem swapped_bytes (low ptr : Nat) (m : Memory) :
    (swapped low ptr m).bytes = swapEnds m.bytes low ptr := by
  funext x
  rw [swapEnds]
  by_cases hptr : x = ptr
  · rw [hptr, Function.update_self]
    exact if_pos rfl
  · rw [Function.update_of_ne hptr]
    apply (if_neg hptr).trans
    by_cases hlow : x = low
    · rw [hlow, Function.update_self]
      exact if_pos rfl
    · rw [Function.update_of_ne hlow]
      exact if_neg hlow

theorem swapped_touches (h : low < ptr) : Touches low (ptr + 1 - low) m (swapped low ptr m) := by
  have hlow : low ≤ low ∧ low < low + (ptr + 1 - low) := by omega
  have hptr : low ≤ ptr ∧ ptr < low + (ptr + 1 - low) := by omega
  exact ((Touches.load hlow).trans (.load hptr)).trans ((Touches.store hlow _).trans (.store hptr _))

/-- The loop turns around what stands between its pointers, and touches nothing else. -/
theorem turnAround_eq (low ptr : Nat) (m : Memory) :
    (turnAround low ptr m).bytes = reversed m.bytes low ptr ∧
      Touches low (ptr + 1 - low) m (turnAround low ptr m) := by
  induction low, ptr, m using turnAround.induct with
  | case1 low ptr m hlt ih =>
    obtain ⟨hbytes, htouch⟩ := ih
    rw [turnAround, if_pos hlt]
    constructor
    · rw [hbytes, swapped_bytes, reversed_swapEnds hlt]
    · exact (swapped_touches hlt).trans (htouch.widen (by omega) (by omega))
  | case2 low ptr m hge =>
    rw [turnAround, if_neg hge]
    exact ⟨(reversed_of_le (Nat.le_of_not_lt hge)).symm, .refl⟩

end

/-! ## The text -/

theorem digits_ne_nil (base : Base) (value : Int) : digits base value ≠ [] := by
  rw [digits]
  exact List.cons_ne_nil _ _

theorem storeNumber_eq (sign : CStr) (base : Base) (value : Int) (str : Nat) (m : Memory) :
    storeNumber sign base value str m =
      turnAround (str + sign.bytes.length)
        (str + sign.bytes.length + (digits base value).length - 1)
        (m.storeAll str (sign.bytes ++ digits base value ++ [0])) := by
  rw [Memory.storeAll_append, Memory.storeAll_append, List.length_append, ← Nat.add_assoc]
  rfl

theorem number_length (sign : CStr) (base : Base) (value : Int) :
    (number sign base value).bytes.length = sign.bytes.length + (digits base value).length := by
  rw [number, CStr.append, List.length_append, List.length_reverse]

/-- A text and its NUL were left at `str`, and nothing else was touched. -/
structure WritesText (str : Nat) (text : CStr) (m m' : Memory) : Prop where
  spelled : m'.HasString str text.bytes
  touches : Touches str (text.bytes.length + 1) m m'

theorem storeNumber_writes (sign : CStr) (base : Base) (value : Int) (str : Nat) (m : Memory) :
    WritesText str (number sign base value) m (storeNumber sign base value str m) := by
  have hdigits := List.length_pos_iff.mpr (digits_ne_nil base value)
  have htext : (number sign base value).bytes = sign.bytes ++ (digits base value).reverse := rfl
  have hlength : (sign.bytes ++ digits base value ++ [(0 : U8)]).length =
      sign.bytes.length + (digits base value).length + 1 := by simp [Nat.add_assoc]
  rw [storeNumber_eq]
  have hstores := Memory.storeAll_touches m str (sign.bytes ++ digits base value ++ [0])
  have hinside : ∀ i < sign.bytes.length + (digits base value).length + 1,
      (m.storeAll str (sign.bytes ++ digits base value ++ [0])).bytes (str + i) =
        (sign.bytes ++ digits base value ++ [0]).getD i 0 := fun i hi =>
    Memory.storeAll_inside (by omega)
  generalize m.storeAll str (sign.bytes ++ digits base value ++ [0]) = stored at hstores hinside
  obtain ⟨hbytes, htouch⟩ := turnAround_eq (str + sign.bytes.length)
    (str + sign.bytes.length + (digits base value).length - 1) stored
  rw [hlength] at hstores
  refine ⟨?_, ?_⟩
  · apply Memory.hasString_of_getD (number sign base value).nonzero
    · intro i hi
      rw [number_length] at hi
      rw [hbytes, htext]
      by_cases hsign : i < sign.bytes.length
      · -- the sign stands in front of what is turned around
        rw [reversed_outside (by omega), hinside i (by omega), List.append_assoc,
          List.getD_append _ _ _ _ hsign, List.getD_append _ _ _ _ hsign]
      · obtain ⟨j, rfl⟩ := Nat.exists_eq_add_of_le (Nat.le_of_not_lt hsign)
        have hstand : ∀ j < (digits base value).length,
            stored.bytes (str + sign.bytes.length + j) = (digits base value).getD j 0 := by
          intro j hj
          rw [Nat.add_assoc, hinside _ (by omega), List.append_assoc,
            List.getD_append_right _ _ _ _ (Nat.le_add_right _ _), Nat.add_sub_cancel_left,
            List.getD_append _ _ _ _ hj]
        rw [← Nat.add_assoc, reversed_spells hstand (by omega),
          List.getD_append_right _ _ _ _ (Nat.le_add_right _ _), Nat.add_sub_cancel_left]
    · -- and the NUL behind it
      rw [number_length, hbytes, reversed_outside (by omega), hinside _ (Nat.lt_succ_self _),
        List.getD_append_right _ _ _ _ (by rw [List.length_append]), List.length_append,
        Nat.sub_self]
      rfl
  · rw [number_length]
    exact hstores.trans (htouch.widen (by omega) (by omega))

theorem writesText_empty (str : Nat) (m : Memory) : WritesText str CStr.empty m (m.store str 0) :=
  ⟨if_pos rfl, .store ⟨Nat.le_refl _, Nat.lt_succ_self _⟩ 0⟩

section
variable (str base : Nat) (m : Memory)

theorem itoaBuffer_writes (value : BitVec 32) :
    WritesText str (itoa value base) m (itoaBuffer value str base m) := by
  rw [itoa, itoaBuffer]
  cases checkBase base with
  | none => exact writesText_empty str m
  | some b => exact storeNumber_writes _ b _ str m

theorem ltoaBuffer_writes (value : U64) :
    WritesText str (ltoa value base) m (ltoaBuffer value str base m) := by
  rw [ltoa, ltoaBuffer]
  cases checkBase base with
  | none => exact writesText_empty str m
  | some b => exact storeNumber_writes _ b _ str m

theorem utoaBuffer_writes (value : BitVec 32) :
    WritesText str (utoa value base) m (utoaBuffer value str base m) := by
  rw [utoa, utoaBuffer]
  cases checkBase base with
  | none => exact writesText_empty str m
  | some b => exact storeNumber_writes _ b _ str m

theorem ultoaBuffer_writes (value : U64) :
    WritesText str (ultoa value base) m (ultoaBuffer value str base m) := by
  rw [ultoa, ultoaBuffer]
  cases checkBase base with
  | none => exact writesText_empty str m
  | some b => exact storeNumber_writes _ b _ str m

end

end JarJar.Libc
