import JarJar.NumberBuffer
import JarJar.StrtoulGrammar

/- Numbers that are written and read again: what `strtoul` and `strtol` make of the text of
   `ultoa` and `ltoa` in every base, and `atoi` and `atol` of that of `itoa` and `ltoa` in
   base 10.

   A number below zero has a sign in base 10 only. In any other base its text is that of the
   number without the sign. -/
namespace JarJar.Libc

/-! ## The digits of a text -/

section
variable {base : Base} {n : Nat}

theorem digitOf_digitTable {i : Nat} (h : i < 36) : digitOf (digitTable.getD i 0) = i :=
  (by decide +kernel : ∀ i < 36, digitOf (digitTable.getD i 0) = i) i h

theorem digitsFrom_append (b value : Nat) (s t : List U8) :
    digitsFrom b value (s ++ t) = digitsFrom b (digitsFrom b value s) t :=
  List.foldl_append

theorem Base.pos (base : Base) : 0 < base.val := Nat.lt_of_lt_of_le (by decide) base.two_le

theorem mem_digits {c : U8} (hc : c ∈ digits base n) :
    ∃ i < base.val, c = digitTable.getD i 0 := by
  induction n using digits_induction base with
  | step n ih =>
    rw [digits_natCast, List.mem_cons] at hc
    obtain rfl | hrest := hc
    · exact ⟨_, Nat.mod_lt n base.pos, rfl⟩
    · split at hrest
      · exact absurd hrest List.not_mem_nil
      · next hne => exact ih hne hrest

theorem digits_isDigitOf : ∀ c ∈ digits base n, isDigitOf base.val c = true := by
  intro c hc
  obtain ⟨i, hi, rfl⟩ := mem_digits hc
  rw [isDigitOf_iff, digitOf_digitTable (Nat.lt_of_lt_of_le hi base.le_36)]
  omega

theorem digitsFrom_digits (base : Base) (n : Nat) :
    digitsFrom base.val 0 (digits base n).reverse = n := by
  induction n using digits_induction base with
  | step n ih =>
    have hlast : digitOf (digitTable.getD (n % base.val) 0) = (n % base.val : Nat) :=
      digitOf_digitTable (Nat.lt_of_lt_of_le (Nat.mod_lt n base.pos) base.le_36)
    have hfront : digitsFrom base.val 0
        (if n / base.val = 0 then [] else digits base (n / base.val : Nat)).reverse =
          n / base.val := by
      split
      · next hz => exact hz.symm
      · next hne => exact ih hne
    rw [digits_natCast, List.reverse_cons, digitsFrom_append, hfront]
    show n / base.val * base.val + (digitOf (digitTable.getD (n % base.val) 0)).toNat = n
    rw [hlast, Int.toNat_natCast]
    exact Nat.div_add_mod' n base.val

theorem digits_leading_zero (h : (digits base n).reverse.headD 0 = ch '0') : n = 0 := by
  induction n using digits_induction base with
  | step n ih =>
    rw [digits_natCast, List.reverse_cons] at h
    split at h
    · next hz =>
      have hdigit : digitTable.getD (n % base.val) 0 = ch '0' := h
      have hvalue := digitOf_digitTable
        (Nat.lt_of_lt_of_le (Nat.mod_lt n base.pos) base.le_36)
      rw [hdigit, show digitOf (ch '0') = 0 by decide] at hvalue
      have hmod : n % base.val = 0 := (Int.natCast_eq_zero.mp hvalue.symm)
      rw [← Nat.mod_add_div n base.val, hz, hmod, Nat.mul_zero]
    · next hne =>
      -- the first digit is that of the quotient, which would be 0 then
      have hfront : (digits base (n / base.val : Nat)).reverse ≠ [] :=
        List.reverse_eq_nil_iff.not.mpr (digits_ne_nil base _)
      rw [← headD_of_starts hfront (List.prefix_append _ _)] at h
      exact absurd (ih hne h) hne

theorem digits_length_le_of_lt_pow {k : Nat} (hk : 0 < k) (h : n < base.val ^ k) :
    (digits base n).length ≤ k := by
  induction k generalizing n with
  | zero => exact absurd hk (Nat.lt_irrefl 0)
  | succ k ih =>
    rw [digits_natCast, List.length_cons]
    split
    · exact Nat.succ_le_succ (Nat.zero_le k)
    · next hne =>
      have hdiv : n / base.val < base.val ^ k := by
        rw [Nat.div_lt_iff_lt_mul base.pos]
        exact h
      have hpos : 0 < k := by
        apply Nat.pos_of_ne_zero
        rintro rfl
        exact hne (Nat.lt_one_iff.mp hdiv)
      exact Nat.succ_le_succ (ih hpos hdiv)

/-! ## What the parsers make of digits -/

theorem digits_head : isDigitOf base.val ((digits base n).reverse.headD 0) = true := by
  cases htext : (digits base n).reverse with
  | nil => exact absurd htext (List.reverse_eq_nil_iff.not.mpr (digits_ne_nil base _))
  | cons c text =>
    apply digits_isDigitOf (n := n) c
    rw [← List.mem_reverse, htext]
    exact List.mem_cons_self

/-- In the text of a number, no `x` follows a leading zero. -/
theorem digits_not_hexPrefix : ¬ HexPrefix base.val (digits base n).reverse := by
  rintro ⟨hbase, -, hx⟩
  obtain hbase | hbase := hbase
  · exact absurd hbase (Nat.ne_of_gt base.pos)
  · have hx' := isDigitOf_x hx (Nat.le_of_eq hbase)
    cases htail : (digits base n).reverse[1]? with
    | none =>
      rw [List.getD_eq_getElem?_getD, htail] at hx
      exact absurd hx (by decide)
    | some c =>
      rw [List.getD_eq_getElem?_getD, htail, Option.getD_some] at hx'
      have hmem : c ∈ digits base n := List.mem_reverse.mp (List.mem_of_getElem? htail)
      rw [digits_isDigitOf c hmem] at hx'
      exact absurd hx' (by decide)

theorem strtoul_digits (base : Base) (n : Nat) :
    strtoul (digits base n).reverse base.val = (BitVec.ofNat 64 n, []) := by
  have hall : ∀ c ∈ (digits base n).reverse, isDigitOf base.val c = true := fun c hc =>
    digits_isDigitOf c (List.mem_reverse.mp hc)
  have hbehind : behindSign (digits base n).reverse = (digits base n).reverse :=
    behindSign_lead .nil digits_head
  have hradix : radixOf base.val (digits base n).reverse = base.val :=
    if_neg (Nat.ne_of_gt base.pos)
  rw [strtoul_eq, hbehind, scanNumber, if_neg digits_not_hexPrefix, hradix, digitLoop_digits,
    List.takeWhile_eq_self_iff.mpr hall, List.dropWhile_eq_nil_iff.mpr hall, digitsFrom_digits]

theorem le_digitsFrom {b : Nat} (hb : 0 < b) (value : Nat) (text : List U8) :
    value ≤ digitsFrom b value text := by
  induction text generalizing value with
  | nil => exact Nat.le_refl value
  | cons c text ih =>
    have hstep : value ≤ value * b + (digitOf c).toNat :=
      Nat.le_trans (Nat.le_mul_of_pos_right value hb) (Nat.le_add_right _ _)
    exact Nat.le_trans hstep (ih _)

/-- What the loop of `strtoul` has added up never goes beyond the number. -/
theorem digits_no_overflow {c : U8} {pre post : List U8} (h : (digits base n).reverse = pre ++ c :: post) :
    (digitLoop base.val 0 pre).1.toNat * base.val + (digitOf c).toNat ≤ n := by
  have hpre : ∀ c ∈ pre, isDigitOf base.val c = true := by
    intro d hd
    apply digits_isDigitOf (n := n) d
    rw [← List.mem_reverse, h]
    exact List.mem_append_left _ hd
  have hloop : (digitLoop base.val 0 pre).1 = BitVec.ofNat 64 (digitsFrom base.val 0 pre) := by
    have hdigits := digitLoop_digits base.val 0 pre
    rw [List.takeWhile_eq_self_iff.mpr hpre] at hdigits
    exact congrArg Prod.fst hdigits
  have hle : (digitLoop base.val 0 pre).1.toNat ≤ digitsFrom base.val 0 pre := by
    rw [hloop, BitVec.toNat_ofNat]
    exact Nat.mod_le _ _
  calc (digitLoop base.val 0 pre).1.toNat * base.val + (digitOf c).toNat
      ≤ digitsFrom base.val 0 pre * base.val + (digitOf c).toNat :=
        Nat.add_le_add_right (Nat.mul_le_mul_right _ hle) _
    _ ≤ digitsFrom base.val (digitsFrom base.val 0 pre * base.val + (digitOf c).toNat) post :=
        le_digitsFrom base.pos _ _
    _ = digitsFrom base.val 0 (pre ++ c :: post) := (digitsFrom_append base.val 0 pre (c :: post)).symm
    _ = n := by rw [← h, digitsFrom_digits]

theorem dropWhile_of_digit {b : Nat} {p : List U8} (h : isDigitOf b (p.headD 0) = true) :
    p.dropWhile isspace = p := by
  cases p with
  | nil => rfl
  | cons c p =>
    have hspace : isspace c = false := (isDigitOf_lead h).1
    exact List.dropWhile_cons_of_neg (by simp [hspace])

theorem strtol_of_digit {b : Nat} {p : List U8} (h : isDigitOf b (p.headD 0) = true) (b' : Int) :
    strtol p b' = ((strtoul p b').1.toInt, (strtoul p b').2) := by
  obtain ⟨-, hplus, hminus⟩ := isDigitOf_lead h
  rw [strtol]
  simp only [dropWhile_of_digit h, hminus, hplus, or_self, if_false]

theorem strtol_minus (p : List U8) (b : Int) :
    strtol (ch '-' :: p) b = ((-(strtoul p b).1).toInt, (strtoul p b).2) := by
  rfl

end

/-! ## Unsigned numbers -/

section
variable {base : Nat}

/-- What the base check lets through. -/
def checked (h : 2 ≤ base ∧ base ≤ 36) : Base := h.elim fun h2 h36 => ⟨base, h2, h36⟩

theorem ultoa_bytes (v : U64) (h : 2 ≤ base ∧ base ≤ 36) :
    (ultoa v base).bytes = (digits (checked h) v.toNat).reverse := by
  rw [ultoa, checkBase, dif_pos h]
  rfl

theorem utoa_eq_ultoa (v : U32) (base : Nat) : utoa v base = ultoa (v.setWidth 64) base := by
  rw [utoa, ultoa, BitVec.toNat_setWidth_of_le (by decide)]

/-- Lower-case digits of the base, the first of them zero in the text of 0 only. -/
structure Canonical (base : Nat) (v : U64) (text : List U8) : Prop where
  nonempty : text ≠ []
  lowerCase : ∀ c ∈ text, c ∈ digitTable.take base
  leading : text.headD 0 = ch '0' → v = 0 ∧ text = [ch '0']

theorem ultoa_canonical (v : U64) (h : 2 ≤ base ∧ base ≤ 36) :
    Canonical base v (ultoa v base).bytes := by
  rw [ultoa_bytes v h]
  refine ⟨List.reverse_eq_nil_iff.not.mpr (digits_ne_nil _ _), fun c hc => ?_, fun hzero => ?_⟩
  · obtain ⟨i, hi, rfl⟩ := mem_digits (List.mem_reverse.mp hc)
    have hlt : i < digitTable.length := Nat.lt_of_lt_of_le hi h.2
    rw [List.getD_eq_getElem _ _ hlt, List.mem_take_iff_getElem]
    exact ⟨i, lt_min hi hlt, rfl⟩
  · have hnum := digits_leading_zero hzero
    have hv : v = 0 := by
      rw [← BitVec.toNat_inj]
      exact hnum
    refine ⟨hv, ?_⟩
    rw [hnum, digits_natCast, if_pos (Nat.zero_div _), Nat.zero_mod]
    rfl

end

/-- In every base `strtoul` reads back what `ultoa` writes. -/
theorem strtoul_ultoa {base : Nat} (h : 2 ≤ base ∧ base ≤ 36) (v : U64) (str : Nat) (m : Memory) :
    WritesText str (ultoa v base) m (ultoaBuffer v str base m) ∧
      strtoul (ultoa v base).bytes base = (v, []) ∧
      (∀ pre c post, (ultoa v base).bytes = pre ++ c :: post →
        (digitLoop base 0 pre).1.toNat * base + (digitOf c).toNat ≤ 2^64 - 1) ∧
      Canonical base v (ultoa v base).bytes ∧
      ∀ w : U32, WritesText str (ultoa (w.setWidth 64) base) m (utoaBuffer w str base m) := by
  refine ⟨ultoaBuffer_writes str base m v, ?_, ?_, ultoa_canonical v h, fun w => ?_⟩
  · rw [ultoa_bytes v h]
    refine (strtoul_digits (checked h) v.toNat).trans ?_
    rw [BitVec.ofNat_toNat, BitVec.setWidth_eq]
  · intro pre c post hsplit
    rw [ultoa_bytes v h] at hsplit
    exact Nat.le_trans (digits_no_overflow hsplit) (Nat.le_pred_of_lt v.isLt)
  · rw [← utoa_eq_ultoa]
    exact utoaBuffer_writes str base m w

/-- 255 in base 16. -/
theorem strtoul_ultoa_hex : strtoul (ultoa 255 16).bytes (16 : Nat) = (255, []) :=
  (strtoul_ultoa (by decide) 255 0 ⟨fun _ => 0, []⟩).2.1

/-! ## Signed numbers -/

section
variable {base : Nat}

theorem ltoa_bytes (v : U64) (h : 2 ≤ base ∧ base ≤ 36) :
    (ltoa v base).bytes = (if v.toInt < 0 ∧ base = 10 then minus else CStr.empty).bytes ++
      (digits (checked h) (v.toInt.natAbs : Nat)).reverse := by
  rw [ltoa, checkBase, dif_pos h, digits_natAbs]
  rfl

theorem ofNat_natAbs (v : U64) :
    BitVec.ofNat 64 v.toInt.natAbs = if v.toInt < 0 then -v else v := by
  rw [← BitVec.ofInt_natCast]
  split
  · rw [show (v.toInt.natAbs : Int) = -v.toInt by omega, BitVec.ofInt_neg, BitVec.ofInt_toInt]
  · rw [show (v.toInt.natAbs : Int) = v.toInt by omega, BitVec.ofInt_toInt]

/-- The number that `strtol` finds in the text of `v`. -/
def readBack (v : U64) (base : Nat) : U64 := if v.toInt < 0 ∧ base ≠ 10 then -v else v

theorem strtol_ltoa_eq (v : U64) (h : 2 ≤ base ∧ base ≤ 36) :
    strtol (ltoa v base).bytes base = ((readBack v base).toInt, []) := by
  have hread : strtoul (digits (checked h) (v.toInt.natAbs : Nat)).reverse base =
      (BitVec.ofNat 64 v.toInt.natAbs, []) := strtoul_digits (checked h) v.toInt.natAbs
  rw [ltoa_bytes v h]
  by_cases hsign : v.toInt < 0 ∧ base = 10
  · -- the digits are those of `-v`, and the sign turns them back
    rw [if_pos hsign]
    refine (strtol_minus (digits (checked h) (v.toInt.natAbs : Nat)).reverse base).trans ?_
    rw [hread, ofNat_natAbs, if_pos hsign.1, BitVec.neg_neg, readBack,
      if_neg fun hb => hb.2 hsign.2]
  · rw [if_neg hsign]
    refine (strtol_of_digit digits_head base).trans ?_
    rw [hread, ofNat_natAbs, readBack]
    by_cases hneg : v.toInt < 0
    · rw [if_pos hneg, if_pos ⟨hneg, fun hb => hsign ⟨hneg, hb⟩⟩]
    · rw [if_neg hneg, if_neg fun hb => hneg hb.1]

theorem readBack_eq_self_iff (v : U64) (base : Nat) :
    readBack v base = v ↔ 0 ≤ v.toInt ∨ base = 10 ∨ v = BitVec.intMin 64 := by
  rw [readBack]
  split
  · next hlost =>
    rw [or_iff_right (Int.not_le.mpr hlost.1), or_iff_right hlost.2]
    constructor
    · -- only the least number is its own negative, apart from 0
      intro hself
      by_contra hne
      have hneg := BitVec.toInt_neg_of_ne_intMin hne
      rw [hself] at hneg
      omega
    · rintro rfl
      exact BitVec.neg_intMin
  · next hkept =>
    refine iff_of_true rfl ?_
    by_cases hbase : base = 10
    · exact Or.inr (Or.inl hbase)
    · exact Or.inl (Int.not_lt.mp fun hneg => hkept ⟨hneg, hbase⟩)

theorem natAbs_toInt_neg (v : U64) : (-v).toInt.natAbs = v.toInt.natAbs := by
  by_cases hmin : v = BitVec.intMin 64
  · rw [hmin, BitVec.neg_intMin]
  · rw [BitVec.toInt_neg_of_ne_intMin hmin, Int.natAbs_neg]

/-- Two numbers share their text if they differ in a sign that is not written. -/
theorem ltoa_bytes_eq_iff (h : 2 ≤ base ∧ base ≤ 36) (v w : U64) :
    (ltoa v base).bytes = (ltoa w base).bytes ↔ v = w ∨ (base ≠ 10 ∧ v = -w) := by
  constructor
  · -- the same text is read as the same number
    intro htext
    have hread := strtol_ltoa_eq v h
    rw [htext, strtol_ltoa_eq w h, Prod.mk.injEq, BitVec.toInt_inj] at hread
    have hsame := hread.1
    rw [readBack, readBack] at hsame
    split at hsame
    · next hw =>
      split at hsame
      · exact Or.inl (BitVec.neg_inj.mp hsame).symm
      · exact Or.inr ⟨hw.2, hsame.symm⟩
    · split at hsame
      · next hv => exact Or.inr ⟨hv.2, by rw [hsame, BitVec.neg_neg]⟩
      · exact Or.inl hsame.symm
  · rintro (rfl | ⟨hbase, rfl⟩)
    · rfl
    · rw [ltoa_bytes _ h, ltoa_bytes _ h, if_neg fun hb => hbase hb.2, if_neg fun hb => hbase hb.2,
        natAbs_toInt_neg]

end

/-- `strtol` reads back what `ltoa` writes up to the sign that is not written in other bases
than 10: the number itself exactly if it has none, the base is 10, or it is the least one, and
two numbers have the same text exactly if they are the same or, in such a base, differ in
the sign. -/
theorem strtol_ltoa {base : Nat} (h : 2 ≤ base ∧ base ≤ 36) (v : U64) (str : Nat) (m : Memory) :
    WritesText str (ltoa v base) m (ltoaBuffer v str base m) ∧
      strtol (ltoa v base).bytes base =
        ((if v.toInt < 0 ∧ base ≠ 10 then -v else v).toInt, []) ∧
      (strtol (ltoa v base).bytes base = (v.toInt, []) ↔
        0 ≤ v.toInt ∨ base = 10 ∨ v = BitVec.intMin 64) ∧
      ∀ w, (ltoa v base).bytes = (ltoa w base).bytes ↔ v = w ∨ (base ≠ 10 ∧ v = -w) := by
  refine ⟨ltoaBuffer_writes str base m v, strtol_ltoa_eq v h, ?_, ltoa_bytes_eq_iff h v⟩
  rw [strtol_ltoa_eq v h, Prod.mk.injEq, BitVec.toInt_inj, and_iff_left rfl]
  exact readBack_eq_self_iff v base

/-- -42 in base 10. -/
theorem strtol_ltoa_decimal : strtol (ltoa (-42) 10).bytes (10 : Nat) = (-42, []) :=
  (strtol_ltoa (by decide) (-42) 0 ⟨fun _ => 0, []⟩).2.1

/-- -1 and 1 are both `"1"` in base 16. -/
theorem strtol_ltoa_loses_sign :
    ¬ ∀ (v : U64) (base : Nat), 2 ≤ base ∧ base ≤ 36 →
      strtol (ltoa v base).bytes base = (v.toInt, []) ∧
        ∀ w, (ltoa v base).bytes = (ltoa w base).bytes → v = w := by
  intro h
  have hsame := (h (-1) 16 (by decide)).2 1 ((ltoa_bytes_eq_iff (by decide) _ _).mpr (by decide))
  exact absurd hsame (by decide)

/-! ## Decimal numbers -/

/-- The base of `atoi` and `atol`. -/
def decimalBase : Base := checked (show 2 ≤ 10 ∧ 10 ≤ 36 by decide)

theorem decimal_digits (n : Nat) : decimal (digits decimalBase n).reverse = n := by
  have hall : ∀ c ∈ (digits decimalBase n).reverse, isDigitOf 10 c = true := fun c hc =>
    digits_isDigitOf c (List.mem_reverse.mp hc)
  rw [decimal, ← digitsFrom_ten, List.takeWhile_eq_self_iff.mpr hall]
  exact digitsFrom_digits decimalBase n

/-- The text of a number with its sign. -/
def signedDecimal (z : Int) : CStr := number (if z < 0 then minus else CStr.empty) decimalBase z

theorem itoa_ten (v : U32) : itoa v 10 = signedDecimal v.toInt := by
  rw [itoa, signedDecimal, checkBase, dif_pos (show 2 ≤ 10 ∧ 10 ≤ 36 by decide)]
  simp only [and_true]
  rfl

theorem ltoa_ten (v : U64) : ltoa v 10 = signedDecimal v.toInt := by
  rw [ltoa, signedDecimal, checkBase, dif_pos (show 2 ≤ 10 ∧ 10 ≤ 36 by decide)]
  simp only [and_true]
  rfl

theorem denoted_signedDecimal (z : Int) : denoted (signedDecimal z).bytes = z := by
  have htext : (signedDecimal z).bytes = (if z < 0 then minus else CStr.empty).bytes ++
      (digits decimalBase (z.natAbs : Nat)).reverse := by
    rw [digits_natAbs]
    rfl
  have hhead : isDigitOf decimalBase.val ((digits decimalBase (z.natAbs : Nat)).reverse.headD 0) = true :=
    digits_head
  rw [htext]
  by_cases hneg : z < 0
  · have hlead : Lead minus.bytes :=
      @Lead.mk [] [ch '-'] (fun _ h => absurd h List.not_mem_nil) (Or.inr (Or.inr rfl))
    have hminus : isNegative (minus.bytes ++ (digits decimalBase (z.natAbs : Nat)).reverse) := rfl
    rw [if_pos hneg, denoted, if_pos hminus, behindSign_lead hlead hhead, decimal_digits]
    omega
  · have hempty : CStr.empty.bytes = [] := rfl
    have hbehind : behindSign (digits decimalBase (z.natAbs : Nat)).reverse =
        (digits decimalBase (z.natAbs : Nat)).reverse := behindSign_lead .nil hhead
    have hplain : ¬ isNegative (digits decimalBase (z.natAbs : Nat)).reverse := by
      intro hminus
      apply (isDigitOf_lead hhead).2.2
      rw [← dropWhile_of_digit hhead]
      exact hminus
    rw [if_neg hneg, hempty, List.nil_append, denoted, if_neg hplain, hbehind, decimal_digits]
    omega

theorem atol_denoted {z : Int} (hlow : -2^63 ≤ z) (hhigh : z < 2^63) :
    atol (signedDecimal z).bytes = z := by
  have hdenoted := denoted_signedDecimal z
  rw [atol_eq, signedBits_denoted (by rw [hdenoted]; exact ⟨hlow, hhigh⟩), hdenoted]

theorem signedDecimal_length {z : Int} {k : Nat} (hk : 0 < k) (h : z.natAbs < 10 ^ k) :
    (signedDecimal z).bytes.length ≤ k + 1 := by
  have hdigits : (digits decimalBase (z.natAbs : Nat)).length ≤ k := digits_length_le_of_lt_pow hk h
  rw [signedDecimal, number_length, ← digits_natAbs]
  split
  · exact Nat.le_trans (Nat.add_le_add_left hdigits 1) (by omega)
  · exact Nat.le_trans (Nat.add_le_add_left hdigits 0) (by omega)

/-- Every `int` and every `long` comes back from its decimal text, in 12 and in 21 bytes. -/
theorem atoi_itoa_atol_ltoa (str : Nat) (m : Memory) :
    (∀ v : U32, WritesText str (itoa v 10) m (itoaBuffer v str 10 m) ∧
      atoi (itoa v 10).bytes = v.toInt ∧ (itoa v 10).bytes.length + 1 ≤ 12) ∧
    ∀ v : U64, WritesText str (ltoa v 10) m (ltoaBuffer v str 10 m) ∧
      atol (ltoa v 10).bytes = v.toInt ∧ (ltoa v 10).bytes.length + 1 ≤ 21 := by
  constructor
  · intro v
    have hlow := BitVec.le_toInt v
    have hhigh := BitVec.toInt_lt (x := v)
    have hlength : (signedDecimal v.toInt).bytes.length ≤ 10 + 1 :=
      signedDecimal_length (by decide) (by omega)
    refine ⟨itoaBuffer_writes str 10 m v, ?_, ?_⟩
    · rw [itoa_ten, atoi_eq_atol, atol_denoted (by omega) (by omega), BitVec.ofInt_toInt]
    · rw [itoa_ten]
      exact Nat.succ_le_succ hlength
  · intro v
    have hlow := BitVec.le_toInt v
    have hhigh := BitVec.toInt_lt (x := v)
    have hlength : (signedDecimal v.toInt).bytes.length ≤ 19 + 1 :=
      signedDecimal_length (by decide) (by omega)
    refine ⟨ltoaBuffer_writes str 10 m v, ?_, ?_⟩
    · rw [ltoa_ten, atol_denoted (by omega) (by omega)]
    · rw [ltoa_ten]
      exact Nat.succ_le_succ hlength

end JarJar.Libc
