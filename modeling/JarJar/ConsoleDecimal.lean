import JarJar.ConsoleFormat

/- Signed numbers on the console. `%d`, `%i` and `%ld` show a minus sign and change the sign
   of the number before they convert it; the least number of either size stays negative
   then, and its digits are looked up in front of the table.

   Correspondence (C ↔ Lean):
     the cases `d`, `i` and `ld`                ↔ `consoleDirective`, `longDirective`
     the decimal representation of a number     ↔ `decimal`, not in the source
   What is proved is `console_signed_iff`. -/
namespace JarJar.Vga
open Libc

/-- The decimal digits of a number, without leading zeros. -/
def decimalDigits (n : Nat) : List U8 :=
  if n = 0 then [ch '0'] else ((Nat.digits 10 n).map fun d => ch '0' + BitVec.ofNat 8 d).reverse

/-- A number in decimal, with a minus sign if it is negative. -/
def decimal (v : Int) : List U8 := (if v < 0 then [ch '-'] else []) ++ decimalDigits v.natAbs

theorem digitTable_decimal {d : Nat} (hd : d < 10) :
    digitTable.getD d 0 = ch '0' + BitVec.ofNat 8 d :=
  (by decide : ∀ d < 10, digitTable.getD d 0 = ch '0' + BitVec.ofNat 8 d) d hd

theorem digits_ten (n : Nat) : (digits ten n).reverse = decimalDigits n := by
  rw [decimalDigits]
  by_cases hzero : n = 0
  · rw [if_pos hzero, hzero, digits_natCast]
    rfl
  · rw [if_neg hzero, List.reverse_inj]
    induction n using digits_induction ten with
    | step n ih =>
      have hdigits : digits ten n = digitTable.getD (n % 10) 0 ::
          if n / 10 = 0 then [] else digits ten (n / 10 : Nat) := digits_natCast ten n
      rw [hdigits, digitTable_decimal (Nat.mod_lt n (by decide)),
        Nat.digits_def' (by decide) (Nat.pos_of_ne_zero hzero), List.map_cons]
      by_cases hlast : n / 10 = 0
      · rw [if_pos hlast, hlast]
        simp
      · have hrest : digits ten (n / 10 : Nat) =
            (Nat.digits 10 (n / 10)).map fun d => ch '0' + BitVec.ofNat 8 d := ih hlast hlast
        rw [if_neg hlast, hrest]

theorem decimal_natCast (n : Nat) : decimal n = decimalDigits n := by
  rw [decimal, if_neg (by omega)]
  rfl

theorem decimal_neg {v : Int} (h : v < 0) : decimal v = ch '-' :: decimal (-v) := by
  rw [decimal, decimal, if_pos h, if_neg (by omega), Int.natAbs_neg]
  rfl

theorem lastDigits_decimal {v : Int} (h : 0 ≤ v) :
    List.reverse <$> lastDigits ten v = .ok (decimal v) := by
  obtain ⟨n, rfl⟩ := Int.eq_ofNat_of_zero_le h
  rw [lastDigits_natCast (by decide)]
  show Except.ok (digits ten n).reverse = _
  rw [digits_ten]
  exact congrArg Except.ok (decimal_natCast n).symm

/-- A last digit below zero is looked up in front of the table. -/
theorem lastDigits_negative {v : Int} (h : v - v.tdiv 10 * 10 < 0) :
    lastDigits ten v = .error .digitIndex := by
  have hdigit : hexDigit (v - v.tdiv ten.val * ten.val) = .error .digitIndex :=
    if_neg fun hc => Int.not_le.mpr h hc.1
  rw [lastDigits]
  simp only [hdigit]
  rfl

/-- A number whose sign is changed once it is found to be negative. -/
def signedText {w : Nat} (v : BitVec w) : Except Fault (List U8) :=
  if v.toInt < 0 then (ch '-' :: ·) <$> (List.reverse <$> lastDigits ten (-v).toInt)
  else List.reverse <$> lastDigits ten v.toInt

theorem signedText_eq {w : Nat} {v : BitVec w} (h : v ≠ BitVec.intMin w) :
    signedText v = .ok (decimal v.toInt) := by
  rw [signedText]
  by_cases hneg : v.toInt < 0
  · have hflip : (-v).toInt = -v.toInt := BitVec.toInt_neg_of_ne_intMin h
    rw [if_pos hneg, hflip, lastDigits_decimal (by omega), decimal_neg hneg]
    rfl
  · rw [if_neg hneg, lastDigits_decimal (by omega)]

/-- The least number of `w` bits, when its last digit is not 0. -/
theorem signedText_intMin {w : Nat} (hdigit : (BitVec.intMin w).toInt -
      (BitVec.intMin w).toInt.tdiv 10 * 10 < 0) (hneg : (BitVec.intMin w).toInt < 0) :
    signedText (BitVec.intMin w) = .error .digitIndex := by
  rw [signedText, if_pos hneg, BitVec.neg_intMin, lastDigits_negative hdigit]
  rfl

theorem signedText_iff {w : Nat} (v : BitVec w) (hdigit : (BitVec.intMin w).toInt -
      (BitVec.intMin w).toInt.tdiv 10 * 10 < 0) (hneg : (BitVec.intMin w).toInt < 0) :
    signedText v = .ok (decimal v.toInt) ↔ v ≠ BitVec.intMin w := by
  refine ⟨fun h hleast => ?_, signedText_eq⟩
  rw [hleast, signedText_intMin hdigit hneg] at h
  cases h

/-- A directive shows `text`, takes one argument, and the format goes on behind it. -/
def Shows (args : Args) (arg : Nat) (format text : List U8) : Prop :=
  ∀ rest, formatText args (format ++ rest) arg = do
    return text ++ (← formatText args rest (arg + 1))

theorem shows_iff {args : Args} {arg : Nat} {format text : List U8} {shown : Except Fault (List U8)}
    (h : ∀ rest, formatText args (format ++ rest) arg = do
      let a ← shown
      return a ++ (← formatText args rest (arg + 1))) :
    Shows args arg format text ↔ shown = .ok text := by
  refine ⟨fun hshows => ?_, fun hshown rest => by rw [h, hshown]; rfl⟩
  have halone := (h []).symm.trans (hshows [])
  cases shown with
  | error fault => cases halone
  | ok a =>
    have htext : Except.ok (a ++ []) = (Except.ok (text ++ []) : Except Fault (List U8)) := halone
    simpa using htext

section
variable {args : Args} {arg : Nat} {text : List U8}

theorem shows_d : Shows args arg ("%d".toList.map ch) text ↔
    signedText ((args.slot arg).setWidth 32 : U32) = .ok text :=
  shows_iff fun rest => formatText_directive rest arg (by decide)

theorem shows_i : Shows args arg ("%i".toList.map ch) text ↔
    signedText ((args.slot arg).setWidth 32 : U32) = .ok text :=
  shows_iff fun rest => formatText_directive rest arg (by decide)

theorem shows_ld : Shows args arg ("%ld".toList.map ch) text ↔
    signedText (args.slot arg) = .ok text := by
  refine shows_iff fun rest => ?_
  show formatText args (ch '%' :: ch 'l' :: ch 'd' :: rest) arg = _
  rw [formatText.eq_def]
  simp only [if_true]
  rfl

end

theorem int_least : (BitVec.intMin 32).toInt = -2147483648 := by decide

theorem long_least : (BitVec.intMin 64).toInt = -9223372036854775808 := by decide

/-- **When a signed number is shown in decimal.** For every argument and wherever the
directive stands: `%d` and `%i` exactly for an `int` that is not the least one, and `%ld`
for a `long` that is not the least one. For the others a digit is looked up outside of the
table. -/
theorem console_signed_iff (args : Args) (arg : Nat) :
    let i : U32 := (args.slot arg).setWidth 32
    let l := args.slot arg
    (Shows args arg ("%d".toList.map ch) (decimal i.toInt) ↔ i ≠ BitVec.intMin 32) ∧
      (Shows args arg ("%i".toList.map ch) (decimal i.toInt) ↔ i ≠ BitVec.intMin 32) ∧
      (Shows args arg ("%ld".toList.map ch) (decimal l.toInt) ↔ l ≠ BitVec.intMin 64) := by
  intro i l
  have hint := signedText_iff i (by rw [int_least]; decide) (by rw [int_least]; decide)
  have hlong := signedText_iff l (by rw [long_least]; decide) (by rw [long_least]; decide)
  exact ⟨shows_d.trans hint, shows_i.trans hint, shows_ld.trans hlong⟩

/-- `%d` for -2147483648 and `%ld` for -9223372036854775808. -/
theorem console_signed_least :
    let int : Args := ⟨fun _ => 0x80000000, fun _ => CStr.empty⟩
    let long : Args := ⟨fun _ => 0x8000000000000000, fun _ => CStr.empty⟩
    ¬ Shows int 0 ("%d".toList.map ch) (decimal (-2147483648)) ∧
      ¬ Shows long 0 ("%ld".toList.map ch) (decimal (-9223372036854775808)) := by
  intro int long
  have hint : (int.slot 0).setWidth 32 = BitVec.intMin 32 := by decide
  have hlong : long.slot 0 = BitVec.intMin 64 := by decide
  rw [shows_d, shows_ld, hint, hlong,
    signedText_intMin (by rw [int_least]; decide) (by rw [int_least]; decide),
    signedText_intMin (by rw [long_least]; decide) (by rw [long_least]; decide)]
  constructor
  · intro h
    cases h
  · intro h
    cases h

end JarJar.Vga
