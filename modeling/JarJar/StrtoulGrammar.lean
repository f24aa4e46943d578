import JarJar.Strtol
import JarJar.Lib.LongestPrefix

/- Which prefix of a string `strtoul` consumes. The numbers it is to read are
   `whitespace* sign? prefix? digits+`, and it is to consume the longest of them or nothing.
   It steps over blanks, a sign and `0x` before it knows whether a digit follows, and never
   goes back. -/
namespace JarJar.Libc
open LongestPrefix

/-- The base of some digits behind a prefix, `base` being the argument: `0x` may stand in front
of hexadecimal digits, and if no base is given a leading zero tells octal digits from decimal
ones. -/
inductive Radix (base : Nat) : List U8 → List U8 → Nat → Prop
  | given {digits : List U8} (hbase : base ≠ 0) : Radix base [] digits base
  | hex {x : U8} {digits : List U8} (hbase : base = 0 ∨ base = 16) (hx : tolower x = ch 'x') :
      Radix base [ch '0', x] digits 16
  | octal {digits : List U8} (hbase : base = 0) (hzero : digits.headD 0 = ch '0') :
      Radix base [] digits 8
  | decimal {digits : List U8} (hbase : base = 0) (hzero : digits.headD 0 ≠ ch '0') :
      Radix base [] digits 10

/-- `prefix? digits+`, and what the digits are worth. -/
inductive Unsigned (base : Nat) : List U8 → Nat → Prop
  | mk {pre digits : List U8} {radix : Nat} (hradix : Radix base pre digits radix)
      (hdigits : Letters (isDigitOf radix) digits) :
      Unsigned base (pre ++ digits) (digitsFrom radix 0 digits)

/-- `whitespace* sign?`. -/
inductive Lead : List U8 → Prop
  | mk {blanks sign : List U8} (hblanks : ∀ b ∈ blanks, isspace b = true)
      (hsign : sign = [] ∨ sign = [ch '+'] ∨ sign = [ch '-']) : Lead (blanks ++ sign)

/-- `whitespace* sign? prefix? digits+`. -/
inductive Numeral (base : Nat) : List U8 → Nat → Prop
  | mk {lead body : List U8} {value : Nat} (hlead : Lead lead) (hbody : Unsigned base body value) :
      Numeral base (lead ++ body) value

/-- `strtoul` has consumed the longest number at the front of `s`, or there is none. -/
def ConsumesNumeral (base : Nat) (s : List U8) (result : U64 × List U8) : Prop :=
  (∃ pre value, IsLongest (fun text => ∃ value, Numeral base text value) s pre ∧
    Numeral base pre value ∧ s = pre ++ result.2 ∧ result.1 = BitVec.ofNat 64 value) ∨
  ((∀ pre value, pre <+: s → ¬ Numeral base pre value) ∧ result.2 = s ∧ result.1 = 0)

/-- `0x` where it may be a prefix. -/
def HexPrefix (base : Nat) (p : List U8) : Prop :=
  (base = 0 ∨ base = 16) ∧ p.headD 0 = ch '0' ∧ tolower (p.getD 1 0) = ch 'x'

instance (base : Nat) (p : List U8) : Decidable (HexPrefix base p) :=
  inferInstanceAs (Decidable ((base = 0 ∨ base = 16) ∧ _ ∧ _))

/-- The base in which the first digit is one. -/
def leadingBase (base : Nat) : Nat := if base = 0 then 10 else base

/-- Where an optional part stands in front, a digit follows. -/
structure PartsFollowed (base : Nat) (s : List U8) : Prop where
  hex : HexPrefix base (behindSign s) → isDigitOf 16 ((behindSign s).getD 2 0) = true
  lead : isDigitOf (leadingBase base) ((behindSign s).headD 0) = true ∨ ¬ Restarts s

/-! ## Digits -/

section
variable {base : Nat} {c : U8}

theorem isDigitOf_mono {base' : Nat} (hle : base ≤ base') (h : isDigitOf base c = true) :
    isDigitOf base' c = true := by
  rw [isDigitOf_iff] at h ⊢
  omega

theorem isDigitOf_lead (h : isDigitOf base c = true) :
    isspace c = false ∧ c ≠ ch '+' ∧ c ≠ ch '-' := by
  have hnonneg := (isDigitOf_iff.mp h).1
  rw [digitOf_eq] at hnonneg
  refine ⟨?_, ?_, ?_⟩
  · rw [Bool.eq_false_iff, ne_eq, isspace_iff]
    intro hspace
    rw [if_neg (by omega), if_neg (by omega), if_neg (by omega)] at hnonneg
    exact absurd hnonneg (by decide)
  · rintro rfl
    exact absurd hnonneg (by decide)
  · rintro rfl
    exact absurd hnonneg (by decide)

theorem isDigitOf_x (hx : tolower c = ch 'x') (hbase : base ≤ 16) : isDigitOf base c = false := by
  have hlower := tolower_toNat c
  rw [hx, show (ch 'x').toNat = 120 from rfl] at hlower
  rw [Bool.eq_false_iff, ne_eq, isDigitOf_iff, digitOf_eq]
  split at hlower
  · rw [if_neg (by omega), if_pos (by omega)]
    omega
  · rw [if_neg (by omega), if_neg (by omega), if_pos (by omega)]
    omega

theorem leadingBase_pos (base : Nat) : 0 < leadingBase base := by
  rw [leadingBase]
  split <;> omega

theorem isDigitOf_zero (hbase : 0 < base) : isDigitOf base (ch '0') = true := by
  rw [isDigitOf_iff, show digitOf (ch '0') = 0 by decide]
  omega

end

/-! ## What is scanned -/

section
variable {base : Nat} {p s : List U8}

/-- The base of the digits at the front of `p`, when no `0x` stands there. -/
def radixOf (base : Nat) (p : List U8) : Nat :=
  if base = 0 then if p.headD 0 = ch '0' then 8 else 10 else base

/-- What `strtoul` does from the first digit on. A zero that tells the base adds nothing. -/
def scanNumber (base : Nat) (p : List U8) : U64 × List U8 :=
  if HexPrefix base p then digitLoop (16 : Nat) (BitVec.ofNat 64 0) (p.drop 2)
  else digitLoop (radixOf base p) (BitVec.ofNat 64 0) p

theorem strtoul_eq (s : List U8) (base : Nat) : strtoul s base = scanNumber base (behindSign s) := by
  have hscan : strtoul s base =
      digitLoop (digitBase base (behindSign s)).1 0 (digitBase base (behindSign s)).2 := rfl
  rw [hscan]
  generalize behindSign s = p
  have hzero_iff : (base : Int) = 0 ↔ base = 0 := Int.natCast_eq_zero
  have hhex_iff : (base : Int) = 16 ↔ base = 16 := by omega
  rw [scanNumber, digitBase, radixOf]
  simp only [hzero_iff, hhex_iff]
  by_cases hhex : HexPrefix base p
  · rw [if_pos hhex]
    obtain ⟨hbase | hbase, hzero, hx⟩ := hhex
    · rw [if_pos hbase, if_pos hzero, if_pos hx]
      rfl
    · rw [if_neg (by omega), if_pos ⟨hbase, hzero, hx⟩, hbase]
      rfl
  · rw [if_neg hhex]
    by_cases hbase : base = 0
    · by_cases hzero : p.headD 0 = ch '0'
      · have hx : ¬ tolower (p.getD 1 0) = ch 'x' := fun hx => hhex ⟨Or.inl hbase, hzero, hx⟩
        rw [if_pos hbase, if_pos hzero, if_neg hx, if_pos hbase, if_pos hzero]
        cases p with
        | nil => rfl
        | cons c p =>
          obtain rfl : c = ch '0' := hzero
          rw [digitLoop.eq_2, if_neg (by decide)]
          rfl
      · rw [if_pos hbase, if_neg hzero, if_pos hbase, if_neg hzero]
        rfl
    · have hgiven : ¬ (base = 16 ∧ p.headD 0 = ch '0' ∧ tolower (p.getD 1 0) = ch 'x') :=
        fun h => hhex ⟨Or.inr h.1, h.2⟩
      rw [if_neg hbase, if_neg hgiven, if_neg hbase]
      rfl

theorem exists_lead (s : List U8) : ∃ lead, Lead lead ∧ s = lead ++ behindSign s := by
  have hblanks : ∀ b ∈ s.takeWhile isspace, isspace b = true := fun _ hb => List.mem_takeWhile_imp hb
  have hs : s = s.takeWhile isspace ++ s.dropWhile isspace := List.takeWhile_append_dropWhile.symm
  rw [behindSign, skipSign]
  split
  · next hsign =>
    cases hdrop : s.dropWhile isspace with
    | nil =>
      rw [hdrop] at hsign
      exact absurd hsign (by decide)
    | cons c rest =>
      rw [hdrop] at hsign hs
      refine ⟨s.takeWhile isspace ++ [c], .mk hblanks (Or.inr ?_), ?_⟩
      · exact hsign.imp (congrArg fun c => [c]) (congrArg fun c => [c])
      · rw [List.append_assoc]
        exact hs
  · exact ⟨s.takeWhile isspace ++ [], .mk hblanks (Or.inl rfl), by rwa [List.append_nil]⟩

theorem Lead.nil : Lead [] :=
  @Lead.mk [] [] (fun _ h => absurd h List.not_mem_nil) (Or.inl rfl)

theorem behindSign_lead {lead : List U8} (hlead : Lead lead) {n : Nat}
    (hdigit : isDigitOf n (p.headD 0) = true) : behindSign (lead ++ p) = p := by
  obtain ⟨hspace, hplus, hminus⟩ := isDigitOf_lead hdigit
  cases p with
  | nil => exact absurd hdigit (by simp [isDigitOf_iff, digitOf_eq])
  | cons c p =>
    obtain @⟨blanks, sign, hblanks, hsign⟩ := hlead
    rw [behindSign, List.append_assoc, List.dropWhile_append_of_pos hblanks]
    obtain rfl | rfl | rfl := hsign
    · rw [List.nil_append, List.dropWhile_cons_of_neg (by simpa using hspace), skipSign, if_neg]
      exact not_or.mpr ⟨hplus, hminus⟩
    · rfl
    · rfl

theorem Unsigned.head {body : List U8} {value : Nat} (h : Unsigned base body value) :
    isDigitOf (leadingBase base) (body.headD 0) = true := by
  obtain @⟨pre, digits, radix, hradix, hne, hall⟩ := h
  have hfirst : isDigitOf radix (digits.headD 0) = true := by
    cases digits with
    | nil => exact absurd rfl hne
    | cons c digits => exact hall c List.mem_cons_self
  rw [leadingBase]
  cases hradix with
  | given hbase =>
    rw [if_neg hbase]
    exact hfirst
  | hex hbase hx =>
    apply isDigitOf_zero
    split <;> omega
  | octal hbase hzero =>
    rw [if_pos hbase]
    exact isDigitOf_mono (by decide) hfirst
  | decimal hbase hzero =>
    rw [if_pos hbase]
    exact hfirst

theorem numeral_split {lead pre : List U8} {value : Nat} (hs : s = lead ++ behindSign s)
    (hstarts : pre <+: s) (h : Numeral base pre value) :
    ∃ body, pre = lead ++ body ∧ Unsigned base body value := by
  obtain @⟨lead', body, _, hlead, hbody⟩ := h
  obtain ⟨rest, hrest⟩ := hstarts
  have hhead := hbody.head
  have hbehind : behindSign (lead' ++ (body ++ rest)) = body ++ rest := by
    apply behindSign_lead hlead
    cases body with
    | nil => exact absurd hhead (by simp [isDigitOf_iff, digitOf_eq])
    | cons c body => exact hhead
  rw [List.append_assoc] at hrest
  rw [← hrest, hbehind] at hs
  exact ⟨body, by rw [List.append_cancel_right hs], hbody⟩

theorem skipSign_length_le (p : List U8) : (skipSign p).length ≤ p.length := by
  rw [skipSign]
  split
  · rw [List.length_tail]
    exact Nat.sub_le _ _
  · exact Nat.le_refl _

/-- Blanks and a sign are all that is stepped over. -/
theorem behindSign_eq_self_iff : behindSign s = s ↔ ¬ Restarts s := by
  refine ⟨fun hself hrestarts => ?_, behindSign_of_not_restarts⟩
  have hlength := congrArg List.length hself
  cases s with
  | nil =>
    have hnul : ¬ (isspace 0 = true ∨ (0 : U8) = ch '+' ∨ (0 : U8) = ch '-') := by decide
    exact hnul hrestarts
  | cons c s =>
    rw [behindSign, List.length_cons] at hlength
    by_cases hspace : isspace c = true
    · have hskip := skipSign_length_le (s.dropWhile isspace)
      have hdrop := List.length_dropWhile_le isspace s
      rw [List.dropWhile_cons_of_pos hspace] at hlength
      omega
    · have hsign : c = ch '+' ∨ c = ch '-' := hrestarts.resolve_left hspace
      rw [List.dropWhile_cons_of_neg hspace, skipSign, List.headD_cons, if_pos hsign,
        List.tail_cons] at hlength
      omega

/-! ## The longest number -/

theorem headD_of_starts {digits : List U8} (hne : digits ≠ []) (hstarts : digits <+: p) :
    digits.headD 0 = p.headD 0 := by
  obtain ⟨rest, rfl⟩ := hstarts
  cases digits with
  | nil => exact absurd rfl hne
  | cons c digits => rfl

theorem takeWhile_ne_nil {f : U8 → Bool} (hnul : f 0 = false) (h : f (p.headD 0) = true) :
    p.takeWhile f ≠ [] := by
  cases p with
  | nil => exact absurd (hnul.symm.trans h) (by decide)
  | cons c p =>
    have hc : f c = true := h
    rw [List.takeWhile_cons_of_pos hc]
    exact List.cons_ne_nil _ _

theorem isDigitOf_nul (base : Nat) : isDigitOf base 0 = false := by
  simp [isDigitOf, digitOf_eq]

theorem isDigitOf_radixOf (h : isDigitOf (leadingBase base) (p.headD 0) = true) :
    isDigitOf (radixOf base p) (p.headD 0) = true := by
  rw [leadingBase] at h
  rw [radixOf]
  split
  · next hbase =>
    rw [if_pos hbase] at h
    split
    · next hzero =>
      rw [hzero]
      exact isDigitOf_zero (by decide)
    · exact h
  · next hbase => rwa [if_neg hbase] at h

theorem radix_radixOf {digits : List U8} (hhead : digits.headD 0 = p.headD 0) :
    Radix base [] digits (radixOf base p) := by
  rw [radixOf]
  split
  · next hbase =>
    split
    · next hzero => exact .octal hbase (hhead.trans hzero)
    · next hzero => exact .decimal hbase fun h => hzero (hhead.symm.trans h)
  · next hbase => exact .given hbase

/-- What is read from `p` on is the longest number without a sign there. -/
def ScansLongest (base : Nat) (p : List U8) : Prop :=
  ∃ body value, IsLongest (fun text => ∃ value, Unsigned base text value) p body ∧
    Unsigned base body value ∧ p = body ++ (scanNumber base p).2 ∧
    (scanNumber base p).1 = BitVec.ofNat 64 value

theorem scanNumber_plain (hhex : ¬ HexPrefix base p)
    (hhead : isDigitOf (leadingBase base) (p.headD 0) = true) :
    ScansLongest base p := by
  have hne := takeWhile_ne_nil (isDigitOf_nul _) (isDigitOf_radixOf hhead)
  have hlongest := isLongest_letters hne
  have hnumber : Unsigned base ([] ++ p.takeWhile (isDigitOf (radixOf base p)))
      (digitsFrom (radixOf base p) 0 (p.takeWhile (isDigitOf (radixOf base p)))) :=
    .mk (radix_radixOf (headD_of_starts hne hlongest.starts)) hlongest.accepted
  refine ⟨_, _, hlongest.of_imp ⟨_, hnumber⟩ ?_, hnumber, ?_, ?_⟩
  · rintro _ hstarts ⟨_, hother⟩
    obtain @⟨pre, digits, radix, hradix, hdigits⟩ := hother
    have hsame : pre = [] → digits.headD 0 = p.headD 0 := fun hpre =>
      headD_of_starts hdigits.1 (by rwa [hpre] at hstarts)
    cases hradix with
    | given hbase => rwa [radixOf, if_neg hbase]
    | hex hbase hx =>
      obtain ⟨rest, rfl⟩ := hstarts
      exact absurd ⟨hbase, rfl, hx⟩ hhex
    | octal hbase hzero => rwa [radixOf, if_pos hbase, if_pos ((hsame rfl).symm.trans hzero)]
    | decimal hbase hzero =>
      rwa [radixOf, if_pos hbase, if_neg fun h => hzero ((hsame rfl).trans h)]
  · rw [scanNumber, if_neg hhex, digitLoop_digits]
    exact List.takeWhile_append_dropWhile.symm
  · rw [scanNumber, if_neg hhex, digitLoop_digits]

theorem digits_length_le_one {radix : Nat} {x : U8} {q digits : List U8} (hx : tolower x = ch 'x')
    (hstarts : digits <+: ch '0' :: x :: q) (hdigits : ∀ c ∈ digits, isDigitOf radix c = true)
    (hle : radix ≤ 16) : digits.length ≤ 1 := by
  obtain ⟨rest, hrest⟩ := hstarts
  obtain _ | ⟨_, _ | ⟨d, digits⟩⟩ := digits
  · exact Nat.zero_le 1
  · exact Nat.le_refl 1
  · obtain ⟨-, rfl, -⟩ : _ ∧ d = x ∧ _ := by simpa using hrest
    have hd := hdigits d (by simp)
    rw [isDigitOf_x hx hle] at hd
    exact absurd hd (by decide)

theorem Unsigned.length_le {text : List U8} {value : Nat} {x : U8} {q : List U8}
    (h : Unsigned base text value) (hbase : base = 0 ∨ base = 16) (hx : tolower x = ch 'x')
    (hstarts : text <+: ch '0' :: x :: q) :
    text.length ≤ 2 + (q.takeWhile (isDigitOf 16)).length := by
  obtain @⟨pre, digits, radix, hradix, hdigits⟩ := h
  have hshort : pre = [] → radix ≤ 16 →
      (pre ++ digits).length ≤ 2 + (q.takeWhile (isDigitOf 16)).length := by
    rintro rfl hle
    rw [List.nil_append] at hstarts ⊢
    have hone := digits_length_le_one hx hstarts hdigits.2 hle
    omega
  cases hradix with
  | hex _ _ =>
    obtain ⟨rest, hrest⟩ := hstarts
    have hdigits' : digits <+: q := ⟨rest, by simpa using (List.cons.inj (List.cons.inj hrest).2).2⟩
    rw [List.length_append]
    exact Nat.add_le_add_left (length_le_takeWhile hdigits' hdigits.2) 2
  | given _ => exact hshort rfl (by omega)
  | octal _ _ => exact hshort rfl (by decide)
  | decimal _ _ => exact hshort rfl (by decide)

theorem scanNumber_hex (hhex : HexPrefix base p) (hdigit : isDigitOf 16 (p.getD 2 0) = true) :
    ScansLongest base p := by
  have hscan : scanNumber base p = digitLoop (16 : Nat) (BitVec.ofNat 64 0) (p.drop 2) := if_pos hhex
  rw [ScansLongest, hscan, digitLoop_digits]
  obtain ⟨hbase, hzero, hx⟩ := hhex
  obtain _ | ⟨c, _ | ⟨x, q⟩⟩ := p
  · exact absurd hzero (by decide)
  · have hnul : tolower 0 = ch 'x' := hx
    exact absurd hnul (by decide)
  obtain rfl : c = ch '0' := hzero
  replace hx : tolower x = ch 'x' := hx
  have hne : q.takeWhile (isDigitOf 16) ≠ [] := by
    apply takeWhile_ne_nil (isDigitOf_nul 16)
    cases q with
    | nil => exact hdigit
    | cons d q => exact hdigit
  have hlongest := isLongest_letters hne
  have hnumber : Unsigned base ([ch '0', x] ++ q.takeWhile (isDigitOf 16))
      (digitsFrom 16 0 (q.takeWhile (isDigitOf 16))) := .mk (.hex hbase hx) hlongest.accepted
  refine ⟨_, _, ⟨?_, ⟨_, hnumber⟩, ?_⟩, hnumber, ?_, rfl⟩
  · exact (List.prefix_append_right_inj [ch '0', x]).mpr hlongest.starts
  · rintro other hstarts ⟨_, hother⟩
    rw [List.length_append]
    exact hother.length_le hbase hx hstarts
  · show ch '0' :: x :: q = _
    rw [List.append_assoc]
    simp

theorem scanNumber_longest (hfollowed : HexPrefix base p → isDigitOf 16 (p.getD 2 0) = true)
    (hhead : isDigitOf (leadingBase base) (p.headD 0) = true) :
    ScansLongest base p := by
  by_cases hhex : HexPrefix base p
  · exact scanNumber_hex hhex (hfollowed hhex)
  · exact scanNumber_plain hhex hhead

theorem strtoul_stuck (hhead : isDigitOf (leadingBase base) ((behindSign s).headD 0) = false) :
    strtoul s base = (BitVec.ofNat 64 0, behindSign s) := by
  rw [strtoul_eq]
  generalize behindSign s = p at hhead
  have hzero : p.headD 0 ≠ ch '0' := by
    intro h
    rw [h, isDigitOf_zero (leadingBase_pos base)] at hhead
    exact absurd hhead (by decide)
  have hhex : ¬ HexPrefix base p := fun h => hzero h.2.1
  have hradix : radixOf base p = leadingBase base := by
    rw [radixOf, leadingBase]
    split
    · rfl
    · rfl
  rw [scanNumber, if_neg hhex, hradix, digitLoop_digits]
  cases p with
  | nil => rfl
  | cons c p =>
    have hc : ¬ isDigitOf (leadingBase base) c = true := by
      rw [show isDigitOf (leadingBase base) c = false from hhead]
      decide
    rw [List.takeWhile_cons_of_neg hc, List.dropWhile_cons_of_neg hc]
    rfl

theorem not_numeral_of_head (hhead : isDigitOf (leadingBase base) ((behindSign s).headD 0) = false)
    (pre : List U8) (value : Nat) (hstarts : pre <+: s) : ¬ Numeral base pre value := by
  intro hnumeral
  obtain ⟨lead, -, hs⟩ := exists_lead s
  obtain ⟨body, rfl, hbody⟩ := numeral_split hs hstarts hnumeral
  rw [hs] at hstarts
  have hbody_starts := (List.prefix_append_right_inj lead).mp hstarts
  have hfirst := hbody.head
  have hne : body ≠ [] := by
    rintro rfl
    rw [show ([] : List U8).headD 0 = 0 from rfl, isDigitOf_nul] at hfirst
    exact absurd hfirst (by decide)
  rw [headD_of_starts hne hbody_starts, hhead] at hfirst
  exact absurd hfirst (by decide)

theorem not_unsigned_bare {x : U8} (hbase : base = 0 ∨ base = 16) (hx : tolower x = ch 'x')
    (value : Nat) : ¬ Unsigned base [ch '0', x] value := by
  intro hnumber
  generalize htext : [ch '0', x] = text at hnumber
  obtain @⟨pre, digits, radix, hradix, hdigits⟩ := hnumber
  have hlarge : digits = [ch '0', x] → ¬ radix ≤ 16 := by
    rintro rfl hle
    have hdigit := hdigits.2 x (by simp)
    rw [isDigitOf_x hx hle] at hdigit
    exact absurd hdigit (by decide)
  cases hradix with
  | given hgiven => exact hlarge htext.symm (by omega)
  | hex _ _ => exact hdigits.1 (List.cons.inj (List.cons.inj htext).2).2.symm
  | octal _ _ => exact hlarge htext.symm (by decide)
  | decimal _ _ => exact hlarge htext.symm (by decide)

/-- A prefix that no hexadecimal digit follows is consumed all the same. -/
theorem strtoul_bare_hex (hhex : HexPrefix base (behindSign s))
    (hdigit : isDigitOf 16 ((behindSign s).getD 2 0) = false) :
    strtoul s base = (BitVec.ofNat 64 0, (behindSign s).drop 2) := by
  rw [strtoul_eq, scanNumber, if_pos hhex, digitLoop_digits]
  generalize behindSign s = p at hhex hdigit
  obtain _ | ⟨c, _ | ⟨x, _ | ⟨d, q⟩⟩⟩ := p
  · rfl
  · rfl
  · rfl
  · have hd : ¬ isDigitOf 16 d = true := by
      rw [show isDigitOf 16 d = false from hdigit]
      decide
    rw [List.drop_succ_cons, List.drop_succ_cons, List.drop_zero, List.takeWhile_cons_of_neg hd,
      List.dropWhile_cons_of_neg hd]
    rfl

theorem not_consumes_bare {lead : List U8} {result : U64} (hs : s = lead ++ behindSign s)
    (hhex : HexPrefix base (behindSign s)) :
    ¬ ConsumesNumeral base s (result, (behindSign s).drop 2) := by
  obtain ⟨hbase, hzero, hx⟩ := hhex
  rintro (⟨pre, value, hlongest, hnumeral, hend, -⟩ | ⟨-, hend, -⟩)
  · obtain ⟨body, rfl, hbody⟩ := numeral_split hs hlongest.starts hnumeral
    have hrest : lead ++ (body ++ (behindSign s).drop 2) = lead ++ behindSign s := by
      rw [← hs, ← List.append_assoc]
      exact hend.symm
    have htake : body ++ (behindSign s).drop 2 = (behindSign s).take 2 ++ (behindSign s).drop 2 := by
      rw [List.take_append_drop, List.append_cancel_left hrest]
    obtain rfl := List.append_cancel_right htake
    generalize behindSign s = p at hbody hzero hx
    obtain _ | ⟨c, _ | ⟨x, q⟩⟩ := p
    · exact absurd hzero (by decide)
    · have hnul : tolower 0 = ch 'x' := hx
      exact absurd hnul (by decide)
    · obtain rfl : c = ch '0' := hzero
      exact not_unsigned_bare hbase hx _ hbody
  · have hlength := congrArg List.length hs
    have hshort := congrArg List.length hend
    rw [List.length_append] at hlength
    rw [List.length_drop] at hshort
    have hne : behindSign s ≠ [] := by
      intro hnil
      rw [hnil] at hzero
      exact absurd hzero (by decide)
    have hpos := List.length_pos_iff.mpr hne
    omega

end

/-- `strtoul` consumes the longest number at the front, with the value of its digits, exactly if
it meets a digit behind every optional part that it has stepped over. -/
theorem strtoul_consumes_iff (s : CStr) (base : Nat) :
    ConsumesNumeral base s.bytes (strtoul s.bytes base) ↔ PartsFollowed base s.bytes := by
  obtain ⟨lead, hlead, hs⟩ := exists_lead s.bytes
  cases hhead : isDigitOf (leadingBase base) ((behindSign s.bytes).headD 0) with
  | false =>
    rw [strtoul_stuck hhead]
    have hnone := not_numeral_of_head hhead
    constructor
    · rintro (⟨pre, value, hlongest, hnumeral, -⟩ | ⟨-, hend, -⟩)
      · exact absurd hnumeral (hnone pre value hlongest.starts)
      · refine ⟨fun hhex => ?_, Or.inr (behindSign_eq_self_iff.mp hend)⟩
        rw [hhex.2.1, isDigitOf_zero (leadingBase_pos base)] at hhead
        exact absurd hhead (by decide)
    · rintro ⟨-, hlead⟩
      rw [hhead] at hlead
      have hplain := hlead.resolve_left (by decide)
      exact Or.inr ⟨hnone, behindSign_eq_self_iff.mpr hplain, rfl⟩
  | true =>
    by_cases hbare : HexPrefix base (behindSign s.bytes) ∧
        isDigitOf 16 ((behindSign s.bytes).getD 2 0) = false
    · obtain ⟨hhex, hdigit⟩ := hbare
      refine iff_of_false ?_ fun h => absurd (hdigit.symm.trans (h.hex hhex)) (by decide)
      rw [strtoul_bare_hex hhex hdigit]
      exact not_consumes_bare hs hhex
    · have hfollowed : HexPrefix base (behindSign s.bytes) →
          isDigitOf 16 ((behindSign s.bytes).getD 2 0) = true := by
        intro hhex
        rw [← Bool.not_eq_false]
        exact fun h => hbare ⟨hhex, h⟩
      refine iff_of_true ?_ ⟨hfollowed, Or.inl hhead⟩
      obtain ⟨body, value, hlongest, hbody, hend, hvalue⟩ := scanNumber_longest hfollowed hhead
      rw [strtoul_eq]
      refine Or.inl ⟨lead ++ body, value, ?_, .mk hlead hbody, ?_, hvalue⟩
      · conv => arg 2; rw [hs]
        apply hlongest.append_left ⟨value, .mk hlead hbody⟩
        rintro other hstarts ⟨_, hother⟩
        rw [← hs] at hstarts
        obtain ⟨body, hsplit, hbody⟩ := numeral_split hs hstarts hother
        exact ⟨body, hsplit, _, hbody⟩
      · rw [List.append_assoc, ← hend]
        exact hs

/-- `strtoul("0xg", &end, 16)` consumes `"0x"`, and the longest number is `"0"`. -/
theorem strtoul_consumes_bare :
    ¬ ∀ (s : CStr) (base : Nat), base = 0 ∨ (2 ≤ base ∧ base ≤ 36) →
      ConsumesNumeral base s.bytes (strtoul s.bytes base) := by
  intro h
  have hconsumes := h ⟨"0xg".toList.map ch, by decide⟩ 16 (by decide)
  have hresult : strtoul ("0xg".toList.map ch) (16 : Nat) =
      (0, (behindSign ("0xg".toList.map ch)).drop 2) := by decide +kernel
  have hlead : "0xg".toList.map ch = [] ++ behindSign ("0xg".toList.map ch) := by decide +kernel
  rw [hresult] at hconsumes
  exact not_consumes_bare hlead (by decide +kernel) hconsumes

end JarJar.Libc
