import JarJar.Ctype
import JarJar.Stdlib
import Mathlib.Algebra.Group.Int.Defs
import Mathlib.Data.List.TakeWhile

/- Reading a number from a string. `atol` skips blanks and a sign and adds up the digits.
   `strtol` skips blanks and a sign itself and leaves the rest to `strtoul`, which skips
   blanks and a sign once more before it adds up the digits.

   Correspondence (C ↔ Lean):
     a `const char* p` into a string      ↔ the bytes from `p` up to the NUL
     the `while (*p)` loop of `strtoul`   ↔ `digitOf`, `digitLoop`
     `strtoul`, `strtol`                  ↔ `strtoul`, `strtol`, with what `*endptr` gets
     `atoi`, `atol`                       ↔ `atoi` (`atoiLoop`), `atol` (`atolLoop`)
   An `unsigned long` and the bits of a `long` are words of 64 bits, those of an `int` words of
   32 bits; all of them wrap. A `long` overflows on the way only for numbers that do not fit, and
   for the least one. -/
namespace JarJar.Libc

/-- The value of a digit of any base up to 36, -1 for other bytes. -/
def digitOf (c : U8) : Int :=
  if isdigit c then c.toInt - (ch '0').toInt
  else if isalpha c then (tolower c).toNat - (ch 'a').toNat + 10
  else -1

def digitLoop (base : Int) : U64 → List U8 → U64 × List U8
  | result, [] => (result, [])
  | result, c :: p =>
    if digitOf c < 0 ∨ base ≤ digitOf c then (result, c :: p)
    else digitLoop base (result * BitVec.ofInt 64 base + BitVec.ofInt 64 (digitOf c)) p

/-- `if (*p == '+' || *p == '-') p++`. -/
def skipSign (p : List U8) : List U8 :=
  if p.headD 0 = ch '+' ∨ p.headD 0 = ch '-' then p.tail else p

/-- The base of the digits and where they start: `0` and `0x` tell the base if it is not
given. -/
def digitBase (base : Int) (p : List U8) : Int × List U8 :=
  if base = 0 then
    if p.headD 0 = ch '0' then
      if tolower (p.getD 1 0) = ch 'x' then (16, p.drop 2) else (8, p.drop 1)
    else (10, p)
  else if base = 16 ∧ p.headD 0 = ch '0' ∧ tolower (p.getD 1 0) = ch 'x' then (base, p.drop 2)
  else (base, p)

def strtoul (nptr : List U8) (base : Int) : U64 × List U8 :=
  let p := skipSign (nptr.dropWhile isspace)
  let (base, p) := digitBase base p
  digitLoop base 0 p

def strtol (nptr : List U8) (base : Int) : Int × List U8 :=
  let p := nptr.dropWhile isspace
  let neg := p.headD 0 = ch '-'
  let p := if neg ∨ p.headD 0 = ch '+' then p.tail else p
  let (res, endptr) := strtoul p base
  ((if neg then -res else res).toInt, endptr)

def atoiLoop : U32 → List U8 → U32
  | result, [] => result
  | result, c :: str =>
    if isdigit c then atoiLoop (result * 10 + BitVec.ofInt 32 (c.toInt - (ch '0').toInt)) str
    else result

def atoi (str : List U8) : Int :=
  let str := str.dropWhile isspace
  let sign : Int := if str.headD 0 = ch '-' then -1 else 1
  (BitVec.ofInt 32 sign * atoiLoop 0 (skipSign str)).toInt

def atolLoop : U64 → List U8 → U64
  | result, [] => result
  | result, c :: str =>
    if isdigit c then atolLoop (result * 10 + BitVec.ofInt 64 (c.toInt - (ch '0').toInt)) str
    else result

def atol (str : List U8) : Int :=
  let str := str.dropWhile isspace
  let sign : Int := if str.headD 0 = ch '-' then -1 else 1
  (BitVec.ofInt 64 sign * atolLoop 0 (skipSign str)).toInt

/-! ## The number a text denotes -/

/-- The number of the digits at the front. -/
def decimal (p : List U8) : Nat :=
  (p.takeWhile isdigit).foldl (fun value c => value * 10 + (c.toNat - 48)) 0

/-- What stands behind the blanks and the sign. -/
def behindSign (p : List U8) : List U8 := skipSign (p.dropWhile isspace)

def isNegative (p : List U8) : Prop := (p.dropWhile isspace).headD 0 = ch '-'

instance (p : List U8) : Decidable (isNegative p) := by unfold isNegative; infer_instance

/-- Blanks, a sign and digits. -/
def denoted (p : List U8) : Int :=
  if isNegative p then -(decimal (behindSign p) : Int) else decimal (behindSign p)

/-- There are blanks or a sign at the front. -/
def Restarts (p : List U8) : Prop :=
  isspace (p.headD 0) = true ∨ p.headD 0 = ch '+' ∨ p.headD 0 = ch '-'

instance (p : List U8) : Decidable (Restarts p) := by unfold Restarts; infer_instance

section
variable {p : List U8}

theorem behindSign_of_not_restarts (h : ¬ Restarts p) : behindSign p = p := by
  rw [Restarts, not_or] at h
  have hblank : p.dropWhile isspace = p := by
    cases p with
    | nil => rfl
    | cons c p => exact List.dropWhile_cons_of_neg h.1
  rw [behindSign, hblank, skipSign, if_neg h.2]

theorem decimal_of_restarts (h : Restarts p) : decimal p = 0 := by
  cases p with
  | nil => rfl
  | cons c p =>
    have hdigit : isdigit c = false := by
      obtain hspace | hsign := h
      · exact isdigit_of_isspace hspace
      · obtain rfl | rfl : c = ch '+' ∨ c = ch '-' := hsign
        · decide
        · decide
    rw [decimal, List.takeWhile_cons_of_neg (by simp [hdigit])]
    rfl

/-! ## The loops -/

theorem digitOf_digit {c : U8} (h : isdigit c = true) :
    c.toInt - (ch '0').toInt = (c.toNat - 48 : Nat) := by
  rw [isdigit_iff] at h
  rw [BitVec.toInt_eq_toNat_of_lt (by omega), show (ch '0').toInt = 48 from by decide]
  omega

theorem digitOf_eq (c : U8) : digitOf c =
    if 48 ≤ c.toNat ∧ c.toNat ≤ 57 then (c.toNat : Int) - 48
    else if 65 ≤ c.toNat ∧ c.toNat ≤ 90 then (c.toNat : Int) - 55
    else if 97 ≤ c.toNat ∧ c.toNat ≤ 122 then (c.toNat : Int) - 87
    else -1 := by
  rw [digitOf]
  by_cases hdigit : isdigit c = true
  · have hrange := (isdigit_iff c).mp hdigit
    rw [if_pos hdigit, if_pos hrange, digitOf_digit hdigit]
    omega
  · rw [if_neg hdigit, if_neg fun h => hdigit ((isdigit_iff c).mpr h)]
    by_cases hletter : isalpha c = true
    · have hrange := (isalpha_iff c).mp hletter
      have hlower := tolower_toNat c
      rw [if_pos hletter, show (ch 'a').toNat = 97 from rfl]
      split at hlower
      · next hupper =>
        rw [if_pos hupper]
        omega
      · next hupper =>
        rw [if_neg hupper, if_pos (by omega)]
        omega
    · rw [if_neg hletter]
      rw [isalpha_iff] at hletter
      rw [if_neg (by omega), if_neg (by omega)]

theorem digitOf_stops (c : U8) (h : isdigit c = false) : digitOf c < 0 ∨ 10 ≤ digitOf c := by
  have hdigit : ¬ (48 ≤ c.toNat ∧ c.toNat ≤ 57) := by
    rw [← isdigit_iff, h]
    exact Bool.false_ne_true
  rw [digitOf_eq, if_neg hdigit]
  split
  · exact Or.inr (by omega)
  · split
    · exact Or.inr (by omega)
    · exact Or.inl (by decide)

theorem atolLoop_eq (value : Nat) (p : List U8) : atolLoop (BitVec.ofNat 64 value) p =
    BitVec.ofNat 64 ((p.takeWhile isdigit).foldl (fun value c => value * 10 + (c.toNat - 48)) value) := by
  induction p generalizing value with
  | nil => rfl
  | cons c p ih =>
    rw [atolLoop]
    by_cases hc : isdigit c = true
    · rw [if_pos hc, List.takeWhile_cons_of_pos hc, List.foldl_cons, ← ih, digitOf_digit hc,
        BitVec.ofInt_natCast, BitVec.ofNat_add, BitVec.ofNat_mul]
      rfl
    · rw [if_neg hc, List.takeWhile_cons_of_neg hc]
      rfl

/-- Whether `c` is a digit of the base. -/
def isDigitOf (base : Nat) (c : U8) : Bool := decide (0 ≤ digitOf c ∧ digitOf c < base)

theorem isDigitOf_iff {base : Nat} {c : U8} :
    isDigitOf base c = true ↔ 0 ≤ digitOf c ∧ digitOf c < base := by
  rw [isDigitOf, decide_eq_true_iff]

/-- The number of the digits `text`, read behind digits that are worth `value`. -/
def digitsFrom (base value : Nat) (text : List U8) : Nat :=
  text.foldl (fun value c => value * base + (digitOf c).toNat) value

theorem digitLoop_digits (base value : Nat) (p : List U8) :
    digitLoop base (BitVec.ofNat 64 value) p =
      (BitVec.ofNat 64 (digitsFrom base value (p.takeWhile (isDigitOf base))),
        p.dropWhile (isDigitOf base)) := by
  induction p generalizing value with
  | nil => rfl
  | cons c p ih =>
    rw [digitLoop]
    by_cases hc : isDigitOf base c = true
    · obtain ⟨hnonneg, hlt⟩ := isDigitOf_iff.mp hc
      rw [if_neg (by omega), List.takeWhile_cons_of_pos hc, List.dropWhile_cons_of_pos hc]
      have hstep : BitVec.ofNat 64 value * BitVec.ofInt 64 base + BitVec.ofInt 64 (digitOf c) =
          BitVec.ofNat 64 (value * base + (digitOf c).toNat) := by
        conv_lhs => rw [← Int.toNat_of_nonneg hnonneg]
        rw [BitVec.ofInt_natCast, BitVec.ofInt_natCast, BitVec.ofNat_add, BitVec.ofNat_mul]
      rw [hstep, ih]
      rfl
    · rw [if_pos (by rw [isDigitOf_iff] at hc; omega), List.takeWhile_cons_of_neg hc,
        List.dropWhile_cons_of_neg hc]
      rfl

theorem isDigitOf_ten (c : U8) : isDigitOf 10 c = isdigit c := by
  rw [Bool.eq_iff_iff, isDigitOf_iff]
  by_cases hc : isdigit c = true
  · have hrange := (isdigit_iff c).mp hc
    have hdigit : digitOf c = (c.toNat - 48 : Nat) := (if_pos hc).trans (digitOf_digit hc)
    rw [hdigit]
    exact iff_of_true (by omega) hc
  · have hstops := digitOf_stops c (by simpa using hc)
    exact iff_of_false (by omega) hc

theorem digitsFrom_ten (value : Nat) (p : List U8) :
    digitsFrom 10 value (p.takeWhile (isDigitOf 10)) =
      (p.takeWhile isdigit).foldl (fun value c => value * 10 + (c.toNat - 48)) value := by
  rw [funext isDigitOf_ten, digitsFrom]
  apply List.foldl_ext
  intro value c hc
  have hdigit := List.mem_takeWhile_imp hc
  have hvalue : digitOf c = (c.toNat - 48 : Nat) := (if_pos hdigit).trans (digitOf_digit hdigit)
  rw [hvalue, Int.toNat_natCast]

theorem digitLoop_eq (value : Nat) (p : List U8) : (digitLoop 10 (BitVec.ofNat 64 value) p).1 =
    BitVec.ofNat 64 ((p.takeWhile isdigit).foldl (fun value c => value * 10 + (c.toNat - 48)) value) := by
  rw [← digitsFrom_ten]
  exact congrArg Prod.fst (digitLoop_digits 10 value p)

theorem atoiLoop_eq (result : U64) (p : List U8) :
    atoiLoop (result.setWidth 32) p = (atolLoop result p).setWidth 32 := by
  induction p generalizing result with
  | nil => rfl
  | cons c p ih =>
    rw [atoiLoop, atolLoop]
    split
    · next hc =>
      rw [← ih, digitOf_digit hc, BitVec.ofInt_natCast, BitVec.ofInt_natCast,
        BitVec.setWidth_add _ _ (by decide), BitVec.setWidth_mul _ _ (by decide),
        BitVec.setWidth_ofNat_of_le (by decide)]
      rfl
    · rfl

/-! ## Both parsers -/

/-- A number with a sign, as the bits of a `long`. -/
def signedBits (negative : Prop) [Decidable negative] (n : Nat) : U64 :=
  if negative then -BitVec.ofNat 64 n else BitVec.ofNat 64 n

theorem atol_eq (p : List U8) :
    atol p = (signedBits (isNegative p) (decimal (behindSign p))).toInt := by
  have hloop : atolLoop 0 (behindSign p) = BitVec.ofNat 64 (decimal (behindSign p)) := atolLoop_eq 0 _
  show (BitVec.ofInt 64 (if isNegative p then -1 else 1) * atolLoop 0 (behindSign p)).toInt = _
  rw [hloop, signedBits]
  by_cases hneg : isNegative p
  · rw [if_pos hneg, if_pos hneg, BitVec.neg_eq_neg_one_mul]
    rfl
  · rw [if_neg hneg, if_neg hneg]
    simp

theorem atoi_eq_atol (p : List U8) : atoi p = (BitVec.ofInt 32 (atol p)).toInt := by
  have hloop : atoiLoop 0 (behindSign p) = (atolLoop 0 (behindSign p)).setWidth 32 :=
    atoiLoop_eq 0 _
  have hcut (b : U64) : BitVec.ofInt 32 b.toInt = b.setWidth 32 :=
    BitVec.signExtend_eq_setWidth_of_le b (by decide)
  show (BitVec.ofInt 32 (if isNegative p then -1 else 1) * atoiLoop 0 (behindSign p)).toInt =
    (BitVec.ofInt 32 (BitVec.ofInt 64 (if isNegative p then -1 else 1) *
      atolLoop 0 (behindSign p)).toInt).toInt
  rw [hloop, hcut, BitVec.setWidth_mul _ _ (by decide)]
  split <;> rfl

/-- `strtol` goes on behind a second sign. -/
theorem strtol_eq (p : List U8) : (strtol p 10).1 =
    (signedBits (isNegative p) (decimal (behindSign (behindSign p)))).toInt := by
  have hskip : (if isNegative p ∨ (p.dropWhile isspace).headD 0 = ch '+' then
      (p.dropWhile isspace).tail else p.dropWhile isspace) = behindSign p := by
    rw [behindSign, skipSign]
    exact if_congr or_comm rfl rfl
  have hloop : (strtoul (behindSign p) 10).1 =
      BitVec.ofNat 64 (decimal (behindSign (behindSign p))) := digitLoop_eq 0 _
  show (if isNegative p then -(strtoul (if isNegative p ∨ (p.dropWhile isspace).headD 0 = ch '+' then
      (p.dropWhile isspace).tail else p.dropWhile isspace) 10).1
    else (strtoul (if isNegative p ∨ (p.dropWhile isspace).headD 0 = ch '+' then
      (p.dropWhile isspace).tail else p.dropWhile isspace) 10).1).toInt = _
  rw [hskip, hloop]
  rfl

theorem signedBits_zero_iff {negative : Prop} [Decidable negative] (n : Nat) :
    signedBits negative n = signedBits negative 0 ↔ 2^64 ∣ n := by
  have hzero : signedBits negative 0 = 0 := by
    rw [signedBits]
    split <;> rfl
  have hbits : signedBits negative n = 0 ↔ BitVec.ofNat 64 n = 0 := by
    rw [signedBits]
    split
    · exact BitVec.neg_eq_zero_iff
    · exact Iff.rfl
  rw [hzero, hbits, Nat.dvd_iff_mod_eq_zero, ← BitVec.toNat_inj, BitVec.toNat_ofNat]
  rfl

theorem signedBits_denoted (hfits : -2^63 ≤ denoted p ∧ denoted p < 2^63) :
    (signedBits (isNegative p) (decimal (behindSign p))).toInt = denoted p := by
  have hbits : signedBits (isNegative p) (decimal (behindSign p)) = BitVec.ofInt 64 (denoted p) := by
    rw [signedBits, denoted]
    split
    · rw [BitVec.neg_ofNat_eq_ofInt_neg]
    · rw [BitVec.ofInt_natCast]
  rw [hbits, BitVec.toInt_ofInt_eq_self (by decide) (by exact hfits.1) (by exact hfits.2)]

end

/-- `atol` reads the number a text denotes; `strtol` agrees with it exactly if no blank
and no second sign follows the sign, or what follows them counts as zero. -/
theorem strtol_eq_atol_iff (s : CStr) (hfits : -2^63 ≤ denoted s.bytes ∧ denoted s.bytes < 2^63) :
    atol s.bytes = denoted s.bytes ∧
    ((strtol s.bytes 10).1 = atol s.bytes ↔ ¬ Restarts (behindSign s.bytes) ∨
      2^64 ∣ decimal (behindSign (behindSign s.bytes))) := by
  refine ⟨(atol_eq _).trans (signedBits_denoted hfits), ?_⟩
  rw [strtol_eq, atol_eq, BitVec.toInt_inj]
  by_cases hrestarts : Restarts (behindSign s.bytes)
  · rw [decimal_of_restarts hrestarts, signedBits_zero_iff, or_iff_right (not_not.mpr hrestarts)]
  · rw [behindSign_of_not_restarts hrestarts]
    exact ⟨fun _ => Or.inl hrestarts, fun _ => rfl⟩

/-- `" -42x"`. -/
theorem strtol_eq_atol_iff_minus :
    let s : CStr := ⟨" -42x".toList.map ch, by decide⟩
    atol s.bytes = -42 ∧ (strtol s.bytes 10).1 = -42 := by
  intro s
  obtain ⟨hatol, hiff⟩ := strtol_eq_atol_iff s (by decide +kernel)
  have hvalue : atol s.bytes = -42 := hatol.trans (by decide +kernel)
  exact ⟨hvalue, (hiff.mpr (Or.inl (by decide +kernel))).trans hvalue⟩

/-- In `"- 5"` and in `"+-5"` `strtol` finds a number and `atol` none. -/
theorem strtol_rereads_sign :
    atol ("- 5".toList.map ch) = 0 ∧ denoted ("- 5".toList.map ch) = 0 ∧
      (strtol ("- 5".toList.map ch) 10).1 = -5 ∧
      atol ("+-5".toList.map ch) = 0 ∧ denoted ("+-5".toList.map ch) = 0 ∧
      (strtol ("+-5".toList.map ch) 10).1 = 5 := by
  decide +kernel

end JarJar.Libc
