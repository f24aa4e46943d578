import JarJar.Stdio
import Mathlib.Data.Nat.Digits.Defs
import Mathlib.Tactic.SplitIfs

/- Formatted output on the console. The kernel has a formatter of its own, with its own
   number conversions, and `printf` uses this one: it knows `%l` and writes the digits
   of `%X` in upper case, which `vsnprintf` does not, and it takes 32 bits of a pointer.

   Correspondence (C ↔ Lean):
     `"0123456789abcdef"[i]`                  ↔ `hexDigit`
     the `do … while (value)` loop            ↔ `lastDigits`
     `itoa`, `uitoa`, `ltoa`, `ultoa`         ↔ `itoa`, `uitoa`, `ltoa`, `ultoa`
     the cases of the `switch`                ↔ `consoleDirective`, `longDirective`
     `console_vprintf`                        ↔ `formatText`, `consoleVprintf`
     `printf`, `vprintf`                      ↔ `printf`, `vprintf`
   The result is the bytes handed to `console_putchar`, or the access that has no
   defined result. -/
namespace JarJar.Vga
open Libc

/-- A read outside of a string: behind the format, or beside the digit table. -/
inductive Fault where
  | formatEnd | digitIndex
  deriving DecidableEq, Repr

def hexTable : List U8 := "0123456789abcdef".toList.map ch

/-- `"0123456789abcdef"[i]`. -/
def hexDigit (i : Int) : Except Fault U8 :=
  if 0 ≤ i ∧ i < 16 then .ok (hexTable.getD i.toNat 0) else .error .digitIndex

def ten : Base := ⟨10, by decide, by decide⟩

def sixteen : Base := ⟨16, by decide, by decide⟩

/-- The digits of `value`, the last one first. -/
def lastDigits (base : Base) (value : Int) : Except Fault (List U8) := do
  let rest := value.tdiv base.val
  let digit ← hexDigit (value - rest * base.val)
  if rest = 0 then return [digit]
  else return digit :: (← lastDigits base rest)
termination_by value.natAbs
decreasing_by
  next hne =>
  have hdiv : rest.natAbs = value.natAbs / base.val := Int.natAbs_tdiv value base.val
  have hrest : rest.natAbs ≠ 0 := fun hz => hne (Int.natAbs_eq_zero.mp hz)
  show rest.natAbs < value.natAbs
  rw [hdiv] at hrest ⊢
  apply Nat.div_lt_self _ base.two_le
  exact Nat.pos_of_ne_zero fun hz => hrest (by rw [hz, Nat.zero_div])

def itoa (value : U32) (base : Base) : Except Fault (List U8) :=
  List.reverse <$> lastDigits base value.toInt

def uitoa (value : U32) (base : Base) : Except Fault (List U8) :=
  List.reverse <$> lastDigits base value.toNat

def ltoa (value : U64) (base : Base) : Except Fault (List U8) :=
  List.reverse <$> lastDigits base value.toInt

def ultoa (value : U64) (base : Base) : Except Fault (List U8) :=
  List.reverse <$> lastDigits base value.toNat

/-- `if (*p >= 'a' && *p <= 'f') *p -= 32`. -/
def upperHex (b : U8) : U8 := if ch 'a' ≤ b ∧ b ≤ ch 'f' then b - 32 else b

/-- The `switch` without `%l`: the next argument after the case, and what it emits. -/
def consoleDirective (args : Args) (d : U8) (arg : Nat) : Nat × Except Fault (List U8) :=
  let val := args.slot arg
  if d = ch 'c' then (arg + 1, .ok [val.setWidth 8])
  else if d = ch 's' then
    (arg + 1, .ok (if val = 0 then nullText else args.string val).bytes)
  else if d = ch 'd' ∨ d = ch 'i' then
    let i : U32 := val.setWidth 32
    (arg + 1, if i.toInt < 0 then (ch '-' :: ·) <$> itoa (-i) ten else itoa i ten)
  else if d = ch 'u' then (arg + 1, uitoa (val.setWidth 32) ten)
  else if d = ch 'x' then (arg + 1, uitoa (val.setWidth 32) sixteen)
  else if d = ch 'X' then (arg + 1, List.map upperHex <$> uitoa (val.setWidth 32) sixteen)
  else if d = ch 'p' then (arg + 1, (hexPrefix.bytes ++ ·) <$> uitoa (val.setWidth 32) sixteen)
  else if d = ch '%' then (arg, .ok [ch '%'])
  else (arg, .ok [ch '%', d])

/-- The byte behind `%l`; one that is not known is passed over. -/
def longDirective (args : Args) (d : U8) (arg : Nat) : Nat × Except Fault (List U8) :=
  let val := args.slot arg
  if d = ch 'u' then (arg + 1, ultoa val ten)
  else if d = ch 'd' then
    (arg + 1, if val.toInt < 0 then (ch '-' :: ·) <$> ltoa (-val) ten else ltoa val ten)
  else if d = ch 'x' then (arg + 1, ultoa val sixteen)
  else (arg, .ok [])

/-- The loop over the format. Behind a `%l` at its end it goes on after the NUL. -/
def formatText (args : Args) : List U8 → Nat → Except Fault (List U8)
  | [], _ => .ok []
  | [c], _ => .ok [c]
  | c :: d :: rest, arg =>
    if c = ch '%' then
      if d = ch 'l' then
        match rest with
        | [] => .error .formatEnd
        | e :: rest => do
          let text ← (longDirective args e arg).2
          return text ++ (← formatText args rest (longDirective args e arg).1)
      else do
        let text ← (consoleDirective args d arg).2
        return text ++ (← formatText args rest (consoleDirective args d arg).1)
    else do
      return c :: (← formatText args (d :: rest) arg)

theorem formatText_directive {args : Args} {d : U8} (rest : List U8) (arg : Nat) (hd : d ≠ ch 'l') :
    formatText args (ch '%' :: d :: rest) arg = do
      let text ← (consoleDirective args d arg).2
      return text ++ (← formatText args rest (consoleDirective args d arg).1) := by
  rw [formatText.eq_def]
  simp only [if_neg hd, if_true]

theorem formatText_byte {args : Args} {c : U8} (d : U8) (rest : List U8) (arg : Nat)
    (hc : c ≠ ch '%') :
    formatText args (c :: d :: rest) arg = do
      return c :: (← formatText args (d :: rest) arg) := by
  rw [formatText.eq_def]
  simp only [if_neg hc]

/-- The bytes that mean something behind a `%`. -/
def directiveBytes : List U8 := "csdiuxXp%l".toList.map ch

theorem mem_directiveBytes {d : U8} : d ∈ directiveBytes ↔
    d = ch 'c' ∨ d = ch 's' ∨ d = ch 'd' ∨ d = ch 'i' ∨ d = ch 'u' ∨ d = ch 'x' ∨ d = ch 'X' ∨
      d = ch 'p' ∨ d = ch '%' ∨ d = ch 'l' := by
  have hbytes : directiveBytes = [ch 'c', ch 's', ch 'd', ch 'i', ch 'u', ch 'x', ch 'X', ch 'p',
    ch '%', ch 'l'] := rfl
  simp only [hbytes, List.mem_cons, List.not_mem_nil, or_false]

theorem consoleDirective_unknown (args : Args) {d : U8} (arg : Nat) (hd : d ∉ directiveBytes) :
    consoleDirective args d arg = (arg, .ok [ch '%', d]) := by
  simp only [mem_directiveBytes, not_or] at hd
  simp only [consoleDirective, hd, or_false, if_false]

def consoleVprintf (format : CStr) (args : Args) : Except Fault (List U8) :=
  formatText args format.bytes 0

/-- The value returned, and what is shown. -/
def vprintf (format : CStr) (args : Args) : Int × Except Fault (List U8) :=
  (0, consoleVprintf format args)

def printf (format : CStr) (args : Args) : Int × Except Fault (List U8) := vprintf format args

/-! ## The numbers -/

section
variable {base : Base}

/-- Both digit tables have the same first sixteen digits. -/
theorem hexDigit_natCast {n : Nat} (h : n < 16) : hexDigit n = .ok (digitTable.getD n 0) := by
  have htable : hexTable.getD n 0 = digitTable.getD n 0 :=
    (by decide : ∀ n < 16, hexTable.getD n 0 = digitTable.getD n 0) n h
  rw [hexDigit, if_pos (by omega), Int.toNat_natCast, htable]

theorem lastDigits_natCast (hbase : base.val ≤ 16) (n : Nat) :
    lastDigits base n = .ok (digits base n) := by
  induction n using digits_induction base with
  | step n ih =>
    have hdigit : (n : Int) - (n / base.val : Nat) * base.val = (n % base.val : Nat) := by
      rw [Int.natCast_mod, Int.emod_def, Int.mul_comm]
      rfl
    have hlt : n % base.val < 16 :=
      Nat.lt_of_lt_of_le (Nat.mod_lt n (Nat.lt_of_lt_of_le (by decide) base.two_le)) hbase
    rw [lastDigits, digits_natCast]
    simp only [← Int.ofNat_tdiv, hdigit, hexDigit_natCast hlt, Int.natCast_eq_zero]
    split
    · rfl
    · next hne =>
      rw [ih hne]
      rfl

theorem uitoa_eq (hbase : base.val ≤ 16) (v : U32) :
    uitoa v base = .ok (digits base v.toNat).reverse := by
  rw [uitoa, lastDigits_natCast hbase]
  rfl

theorem itoa_eq (v : U32) (h : 0 ≤ v.toInt) :
    itoa v ten = .ok (digits ten v.toInt).reverse := by
  obtain ⟨n, hn⟩ := Int.eq_ofNat_of_zero_le h
  rw [itoa, hn, lastDigits_natCast (by decide)]
  rfl

/-- The least number stays negative when its sign is changed, and its last digit is
looked up in front of the table. -/
theorem itoa_intMin : itoa (BitVec.intMin 32) ten = .error .digitIndex := by
  have hvalue : (BitVec.intMin 32).toInt = -2147483648 := by decide
  have hdigits : lastDigits ten (-2147483648) = .error .digitIndex := by
    rw [lastDigits]
    rfl
  rw [itoa, hvalue, hdigits]
  rfl

end

/-- `%d`: the sign and the digits in two steps. -/
def signed (v : U32) : Except Fault (List U8) :=
  if v.toInt < 0 then (ch '-' :: ·) <$> itoa (-v) ten else itoa v ten

theorem signed_eq (v : U32) (h : v ≠ BitVec.intMin 32) : signed v = .ok (Libc.itoa v 10).bytes := by
  have htext : (Libc.itoa v 10).bytes =
      (if v.toInt < 0 ∧ 10 = 10 then minus else CStr.empty).bytes ++ (digits ten v.toInt).reverse :=
    rfl
  rw [signed, htext]
  by_cases hneg : v.toInt < 0
  · have hflip : (-v).toInt = -v.toInt := BitVec.toInt_neg_of_ne_intMin h
    rw [if_pos hneg, if_pos ⟨hneg, rfl⟩, itoa_eq _ (by omega), hflip, digits_neg]
    rfl
  · rw [if_neg hneg, if_neg (fun h => hneg h.1), itoa_eq _ (by omega)]
    rfl

theorem signed_intMin : signed (BitVec.intMin 32) = .error .digitIndex := by
  have hneg : (BitVec.intMin 32).toInt < 0 := by decide
  have hflip : -BitVec.intMin 32 = BitVec.intMin 32 := by decide
  rw [signed, if_pos hneg, hflip, itoa_intMin]
  rfl

theorem map_upperHex_digits (n : Nat) :
    (digits sixteen n).map upperHex = digits sixteen n ↔ ∀ x ∈ Nat.digits 16 n, x < 10 := by
  have htable : ∀ i < 16, upperHex (digitTable.getD i 0) = digitTable.getD i 0 ↔ i < 10 := by decide
  induction n using digits_induction sixteen with
  | step n ih =>
    have hdigits : digits sixteen n = digitTable.getD (n % 16) 0 ::
        if n / 16 = 0 then [] else digits sixteen (n / 16 : Nat) := digits_natCast sixteen n
    rw [hdigits, List.map_cons, List.cons.injEq, htable _ (Nat.mod_lt n (by decide))]
    obtain rfl | hpos := Nat.eq_zero_or_pos n
    · simp
    · rw [Nat.digits_def' (by decide) hpos, List.forall_mem_cons]
      refine and_congr Iff.rfl ?_
      split
      · next hz => simp [hz]
      · next hne => exact ih hne

/-! ## Directive by directive -/

/-- An argument both formatters write the same way: not the least number for `%d`, no
hexadecimal digit above nine for `%X`, and 32 bits for `%p`. -/
def SameText (d : U8) (val : U64) : Prop :=
  (d = ch 'd' ∨ d = ch 'i' → val.setWidth 32 ≠ BitVec.intMin 32) ∧
  (d = ch 'X' → ∀ x ∈ Nat.digits 16 (val.setWidth 32).toNat, x < 10) ∧
  (d = ch 'p' → val.toNat < 2^32)

theorem SameText.of_ne {d : U8} {val : U64} (hsigned : ¬ (d = ch 'd' ∨ d = ch 'i'))
    (hX : d ≠ ch 'X') (hp : d ≠ ch 'p') : SameText d val :=
  ⟨fun h => absurd h hsigned, fun h => absurd h hX, fun h => absurd h hp⟩

/-- Both take the same number of arguments; what the console shows is not longer than the
text of the chunk, and it is that text exactly if `alike` holds. -/
structure Matches (shown : Nat × Except Fault (List U8)) (stored : Nat × Chunk) (alike : Prop) :
    Prop where
  arg : shown.1 = stored.1
  length_le : ∀ text, shown.2 = .ok text → text.length ≤ stored.2.text.length
  same_iff : shown.2 = .ok stored.2.text ↔ alike

theorem Matches.same {shown : Nat × Except Fault (List U8)} {stored : Nat × Chunk} {alike : Prop}
    (harg : shown.1 = stored.1) (hsame : shown.2 = .ok stored.2.text) (halike : alike) :
    Matches shown stored alike := by
  refine ⟨harg, fun text htext => ?_, fun _ => halike, fun _ => hsame⟩
  obtain rfl : stored.2.text = text := Except.ok.inj (hsame.symm.trans htext)
  exact Nat.le_refl _

section
variable (args : Args) (arg : Nat)

theorem matches_signed {d : U8} (hd : d = ch 'd' ∨ d = ch 'i') :
    Matches (consoleDirective args d arg) (directive args d arg) (SameText d (args.slot arg)) := by
  let i : U32 := (args.slot arg).setWidth 32
  have hshown : consoleDirective args d arg = (arg + 1, signed i) := by
    obtain rfl | rfl := hd
    · rfl
    · rfl
  have hstored : directive args d arg = (arg + 1, .copied (Libc.itoa i 10)) := by
    rw [directive, if_pos hd]
  have halike : SameText d (args.slot arg) ↔ i ≠ BitVec.intMin 32 := by
    refine ⟨fun h => h.1 hd, fun h => ⟨fun _ => h, fun hX => ?_, fun hp => ?_⟩⟩
    · obtain rfl | rfl := hd <;> exact absurd hX (by decide)
    · obtain rfl | rfl := hd <;> exact absurd hp (by decide)
  rw [hshown, hstored]
  by_cases hmin : i = BitVec.intMin 32
  · refine ⟨rfl, fun text htext => ?_, fun htext => ?_, fun h => absurd hmin (halike.mp h)⟩
    · rw [hmin, signed_intMin] at htext
      cases htext
    · rw [hmin, signed_intMin] at htext
      cases htext
  · exact Matches.same rfl (signed_eq i hmin) (halike.mpr hmin)

theorem matches_upper :
    Matches (consoleDirective args (ch 'X') arg) (directive args (ch 'X') arg)
      (SameText (ch 'X') (args.slot arg)) := by
  let v : U32 := (args.slot arg).setWidth 32
  have hshown : consoleDirective args (ch 'X') arg =
      (arg + 1, .ok ((digits sixteen v.toNat).map upperHex).reverse) := by
    show (arg + 1, List.map upperHex <$> uitoa v sixteen) = _
    rw [uitoa_eq (by decide)]
    show (arg + 1, Except.ok (List.map upperHex (digits sixteen v.toNat).reverse)) = _
    rw [List.map_reverse]
  have hstored : (directive args (ch 'X') arg).2.text = (digits sixteen v.toNat).reverse := rfl
  have halike : SameText (ch 'X') (args.slot arg) ↔ ∀ x ∈ Nat.digits 16 v.toNat, x < 10 :=
    ⟨fun h => h.2.1 rfl, fun h => ⟨fun hd => absurd hd (by decide), fun _ => h,
      fun hp => absurd hp (by decide)⟩⟩
  refine ⟨by rw [hshown]; rfl, fun text htext => ?_, ?_⟩
  · rw [hshown] at htext
    rw [← Except.ok.inj htext, hstored]
    simp
  · rw [hshown, hstored, Except.ok.injEq, List.reverse_inj, map_upperHex_digits, halike]

theorem matches_pointer :
    Matches (consoleDirective args (ch 'p') arg) (directive args (ch 'p') arg)
      (SameText (ch 'p') (args.slot arg)) := by
  let v := args.slot arg
  have hshown : consoleDirective args (ch 'p') arg =
      (arg + 1, .ok (hexPrefix.bytes ++ (digits sixteen (v.toNat % 2^32 : Nat)).reverse)) := by
    show (arg + 1, (hexPrefix.bytes ++ ·) <$> uitoa (v.setWidth 32) sixteen) = _
    rw [uitoa_eq (by decide), BitVec.toNat_setWidth]
    rfl
  have hstored : (directive args (ch 'p') arg).2.text =
      hexPrefix.bytes ++ (digits sixteen v.toNat).reverse := rfl
  have halike : SameText (ch 'p') (args.slot arg) ↔ v.toNat < 2^32 :=
    ⟨fun h => h.2.2 rfl, fun h => ⟨fun hd => absurd hd (by decide),
      fun hX => absurd hX (by decide), fun _ => h⟩⟩
  refine ⟨by rw [hshown]; rfl, fun text htext => ?_, ?_⟩
  · rw [hshown] at htext
    rw [← Except.ok.inj htext, hstored, List.length_append, List.length_append,
      List.length_reverse, List.length_reverse]
    exact Nat.add_le_add_left (digits_length_mono (Nat.mod_le _ _)) _
  · rw [hshown, hstored, Except.ok.injEq, List.append_cancel_left_eq, List.reverse_inj, halike]
    refine ⟨fun heq => ?_, fun hlt => by rw [Nat.mod_eq_of_lt hlt]⟩
    have hvalue := congrArg (valueOf sixteen) heq
    rw [valueOf_digits, valueOf_digits] at hvalue
    rw [← hvalue]
    exact Nat.mod_lt _ (by decide)

theorem consoleDirective_matches {d : U8} (hd : d ≠ ch 'l') :
    Matches (consoleDirective args d arg) (directive args d arg) (SameText d (args.slot arg)) := by
  by_cases hsigned : d = ch 'd' ∨ d = ch 'i'
  · exact matches_signed args arg hsigned
  by_cases hX : d = ch 'X'
  · subst hX
    exact matches_upper args arg
  by_cases hp : d = ch 'p'
  · subst hp
    exact matches_pointer args arg
  have halike : SameText d (args.slot arg) := SameText.of_ne hsigned hX hp
  by_cases hu : d = ch 'u'
  · subst hu
    exact Matches.same rfl (uitoa_eq (by decide) _) halike
  by_cases hx : d = ch 'x'
  · subst hx
    exact Matches.same rfl (uitoa_eq (by decide) _) halike
  by_cases hc : d = ch 'c'
  · subst hc
    exact Matches.same rfl rfl halike
  by_cases hs : d = ch 's'
  · subst hs
    exact Matches.same rfl rfl halike
  by_cases hpercent : d = ch '%'
  · subst hpercent
    exact Matches.same rfl rfl halike
  have hshown : consoleDirective args d arg = (arg, .ok [ch '%', d]) := by
    apply consoleDirective_unknown
    rw [not_or] at hsigned
    simp only [mem_directiveBytes, hsigned, hX, hp, hu, hx, hc, hs, hpercent, hd, or_false,
      not_false_eq_true]
  have hstored : directive args d arg = (arg, .unknown d) := by
    rw [directive, if_neg hsigned, if_neg hu, if_neg (not_or.mpr ⟨hx, hX⟩), if_neg hp, if_neg hs,
      if_neg hc, if_neg hpercent]
  rw [hshown, hstored]
  exact Matches.same rfl rfl halike

end

/-! ## The whole format -/

/-- The directives of a format and their arguments, as `vsnprintf` reads them. -/
def directives (args : Args) : List U8 → Nat → List (U8 × U64)
  | [], _ => []
  | [_], _ => []
  | c :: d :: rest, arg =>
    if c = ch '%' then (d, args.slot arg) :: directives args rest (directive args d arg).1
    else directives args (d :: rest) arg

/-- Pieces that are not longer than their counterparts give the same text only one by one. -/
theorem append_eq_iff {α : Type*} {a b t u : List α} (hab : a.length ≤ b.length)
    (htu : t.length ≤ u.length) : a ++ t = b ++ u ↔ a = b ∧ t = u := by
  refine ⟨fun h => ?_, fun ⟨ha, ht⟩ => by rw [ha, ht]⟩
  have hlen := congrArg List.length h
  rw [List.length_append, List.length_append] at hlen
  exact List.append_inj h (by omega)

theorem appended {shown rest : Except Fault (List U8)} {b u : List U8} {alike alikes : Prop}
    (hshown : ∀ text, shown = .ok text → text.length ≤ b.length) (hsame : shown = .ok b ↔ alike)
    (hrest : ∀ text, rest = .ok text → text.length ≤ u.length) (hsames : rest = .ok u ↔ alikes) :
    (∀ text, (do let a ← shown; return a ++ (← rest)) = Except.ok text →
      text.length ≤ (b ++ u).length) ∧
    ((do let a ← shown; return a ++ (← rest)) = Except.ok (b ++ u) ↔ alike ∧ alikes) := by
  rw [← hsame, ← hsames]
  cases shown with
  | error fault =>
    refine ⟨fun text htext => ?_, fun htext => ?_, fun h => ?_⟩
    · cases htext
    · cases htext
    · cases h.1
  | ok a =>
    cases rest with
    | error fault =>
      refine ⟨fun text htext => ?_, fun htext => ?_, fun h => ?_⟩
      · cases htext
      · cases htext
      · cases h.2
    | ok t =>
      have ha := hshown a rfl
      have ht := hrest t rfl
      refine ⟨fun text htext => ?_, ?_⟩
      · rw [← Except.ok.inj htext, List.length_append, List.length_append]
        exact Nat.add_le_add ha ht
      · show Except.ok (a ++ t) = Except.ok (b ++ u) ↔ _
        simp only [Except.ok.injEq]
        exact append_eq_iff ha ht

/-- What is shown for a format without `%l` is not longer than its text, and it is this
text exactly if every directive is written the same way. -/
theorem formatText_matches (args : Args) (format : List U8) (arg : Nat)
    (hlong : ∀ p ∈ directives args format arg, p.1 ≠ ch 'l') :
    (∀ text, formatText args format arg = .ok text →
      text.length ≤ (textOf (expand args format arg)).length) ∧
    (formatText args format arg = .ok (textOf (expand args format arg)) ↔
      ∀ p ∈ directives args format arg, SameText p.1 p.2) := by
  induction format using List.twoStepInduction generalizing arg with
  | nil =>
    refine ⟨fun text htext => ?_, fun _ p hp => absurd hp List.not_mem_nil, fun _ => rfl⟩
    rw [← Except.ok.inj htext]
    exact Nat.le_refl _
  | singleton c =>
    refine ⟨fun text htext => ?_, fun _ p hp => absurd hp List.not_mem_nil, fun _ => rfl⟩
    rw [← Except.ok.inj htext]
    exact Nat.le_refl _
  | cons_cons c d rest ih₁ ih₂ =>
    have hchunks (chunk : Chunk) (chunks : List Chunk) :
        textOf (chunk :: chunks) = chunk.text ++ textOf chunks := List.flatMap_cons
    rw [directives] at hlong ⊢
    rw [expand]
    by_cases hc : c = ch '%'
    · rw [if_pos hc, List.forall_mem_cons] at hlong
      have hd := consoleDirective_matches args arg hlong.1
      obtain ⟨hlength, hsame⟩ := ih₁ (directive args d arg).1 hlong.2
      rw [if_pos hc, if_pos hc, hc, formatText_directive rest arg hlong.1, hchunks,
        List.forall_mem_cons, hd.arg]
      exact appended hd.length_le hd.same_iff hlength hsame
    · rw [if_neg hc] at hlong
      obtain ⟨hlength, hsame⟩ := ih₂ d arg hlong
      rw [if_neg hc, if_neg hc, formatText_byte d rest arg hc, hchunks, ← true_and (∀ p ∈ _, _)]
      have hbyte : ∀ text, Except.ok [c] = (Except.ok text : Except Fault (List U8)) →
          text.length ≤ [c].length := fun text htext => by rw [← Except.ok.inj htext]
      exact appended hbyte (iff_true_intro rfl) hlength hsame

/-! ## Formats with `%l` -/

section
variable {args : Args} {c d : U8} {rest text : List U8} {arg : Nat}

theorem formatText_byte_ok (hc : c ≠ ch '%') (h : formatText args (c :: rest) arg = .ok text) :
    ∃ after, formatText args rest arg = .ok after ∧ text = c :: after := by
  cases rest with
  | nil => exact ⟨[], rfl, (Except.ok.inj h).symm⟩
  | cons d rest =>
    rw [formatText_byte d rest arg hc] at h
    cases hrest : formatText args (d :: rest) arg with
    | error fault => rw [hrest] at h; cases h
    | ok after => rw [hrest] at h; exact ⟨after, rfl, (Except.ok.inj h).symm⟩

theorem formatText_directive_ok (hd : d ≠ ch 'l')
    (h : formatText args (ch '%' :: d :: rest) arg = .ok text) :
    ∃ shown arg' after, (consoleDirective args d arg).2 = .ok shown ∧
      formatText args rest arg' = .ok after ∧ text = shown ++ after := by
  rw [formatText_directive rest arg hd] at h
  cases hshown : (consoleDirective args d arg).2 with
  | error fault => rw [hshown] at h; cases h
  | ok shown =>
    cases hrest : formatText args rest (consoleDirective args d arg).1 with
    | error fault => rw [hshown, hrest] at h; cases h
    | ok after =>
      rw [hshown, hrest] at h
      exact ⟨shown, _, after, rfl, hrest, (Except.ok.inj h).symm⟩

theorem formatText_long_ok (h : formatText args (ch '%' :: ch 'l' :: rest) arg = .ok text) :
    ∃ e rest' shown arg' after, rest = e :: rest' ∧ (longDirective args e arg).2 = .ok shown ∧
      formatText args rest' arg' = .ok after ∧ text = shown ++ after := by
  rw [formatText.eq_def] at h
  simp only [if_true] at h
  cases rest with
  | nil => cases h
  | cons e rest =>
    cases hshown : (longDirective args e arg).2 with
    | error fault => simp only [hshown] at h; cases h
    | ok shown =>
      cases hrest : formatText args rest (longDirective args e arg).1 with
      | error fault => simp only [hshown, hrest] at h; cases h
      | ok after =>
        simp only [hshown, hrest] at h
        exact ⟨e, rest, shown, _, after, rfl, hshown, hrest, (Except.ok.inj h).symm⟩

end

/-- Every argument is 1, or points to a string of one byte. -/
def ones : Args := ⟨fun _ => 1, fun _ => ⟨[ch 'a'], by decide⟩⟩

/-- The length of the text of a format for these arguments. -/
def onesLength (format : List U8) (arg : Nat) : Nat := (textOf (expand ones format arg)).length

theorem ones_slot (arg : Nat) : ones.slot arg = 1 := rfl

theorem one_ne_nul : ((1 : U64) = 0) = False := by decide

theorem digits_one (base : Base) : digits base (1 : Nat) = [ch '1'] := by
  have hdiv : 1 / base.val = 0 := Nat.div_eq_of_lt base.two_le
  have hmod : 1 % base.val = 1 := Nat.mod_eq_of_lt base.two_le
  rw [digits_natCast, if_pos hdiv, hmod]
  rfl

theorem directive_ones (d : U8) (arg : Nat) :
    1 ≤ (directive ones d arg).2.text.length ∧ (directive ones d arg).2.text.length ≤ 3 := by
  have hnumber (base : Base) : (number CStr.empty base (1 : Nat)).bytes = [ch '1'] := by
    show (digits base (1 : Nat)).reverse = _
    rw [digits_one]
    rfl
  have hshort (text : List U8) (h : text.length = 1) : 1 ≤ text.length ∧ text.length ≤ 3 := by omega
  rw [directive]
  simp only [ones_slot, one_ne_nul, if_false]
  split_ifs
  · exact hshort _ (congrArg List.length (hnumber ten))
  · exact hshort _ (congrArg List.length (hnumber ten))
  · exact hshort _ (congrArg List.length (hnumber sixteen))
  · show 1 ≤ (hexPrefix.bytes ++ (number CStr.empty sixteen (1 : Nat)).bytes).length ∧
      (hexPrefix.bytes ++ (number CStr.empty sixteen (1 : Nat)).bytes).length ≤ 3
    rw [hnumber]
    decide
  · exact hshort _ rfl
  · exact hshort _ rfl
  · exact hshort _ rfl
  · exact ⟨Nat.le_succ 1, Nat.le_succ 2⟩

/-- A directive is shown with at most the bytes that are stored for it, whichever argument
it takes. -/
theorem consoleDirective_ones {d : U8} (hd : d ≠ ch 'l') {arg : Nat} (arg' : Nat) {shown : List U8}
    (h : (consoleDirective ones d arg).2 = .ok shown) :
    shown.length ≤ (directive ones d arg').2.text.length := by
  have hsame : (consoleDirective ones d arg).2 = (consoleDirective ones d arg').2 := by
    simp only [consoleDirective, apply_ite Prod.snd, ones_slot]
    rfl
  rw [hsame] at h
  exact (consoleDirective_matches ones arg' hd).length_le shown h

theorem longDirective_ones {e : U8} {arg : Nat} {shown : List U8}
    (h : (longDirective ones e arg).2 = .ok shown) :
    shown.length ≤ 1 ∧ (e = ch '%' → shown = []) := by
  have hnumber (base : Base) (hbase : base.val ≤ 16) :
      List.reverse <$> lastDigits base (1 : Nat) = .ok [ch '1'] := by
    rw [lastDigits_natCast hbase, digits_one]
    rfl
  rw [longDirective] at h
  split_ifs at h with hu hd hneg hx
  · obtain rfl := Except.ok.inj ((hnumber ten (by decide)).symm.trans h)
    exact ⟨Nat.le_refl 1, fun he => absurd (he.symm.trans hu) (by decide)⟩
  · exact absurd hneg (by decide : ¬ (1 : U64).toInt < 0)
  · obtain rfl := Except.ok.inj ((hnumber ten (by decide)).symm.trans h)
    exact ⟨Nat.le_refl 1, fun he => absurd (he.symm.trans hd) (by decide)⟩
  · obtain rfl := Except.ok.inj ((hnumber sixteen (by decide)).symm.trans h)
    exact ⟨Nat.le_refl 1, fun he => absurd (he.symm.trans hx) (by decide)⟩
  · obtain rfl := Except.ok.inj h
    exact ⟨Nat.zero_le 1, fun _ => rfl⟩

theorem onesLength_byte {c : U8} (hc : c ≠ ch '%') (rest : List U8) (arg : Nat) :
    onesLength (c :: rest) arg = 1 + onesLength rest arg := by
  cases rest with
  | nil => rfl
  | cons d rest =>
    rw [onesLength, expand, if_neg hc, textOf, List.flatMap_cons, List.length_append]
    rfl

theorem onesLength_directive (d : U8) (rest : List U8) (arg : Nat) :
    onesLength (ch '%' :: d :: rest) arg =
      (directive ones d arg).2.text.length + onesLength rest (directive ones d arg).1 := by
  rw [onesLength, expand, if_pos rfl, textOf, List.flatMap_cons, List.length_append]
  rfl

/-- What is shown of a format is not longer than what is stored of it, with a slack of two
or one bytes where only one of the two has a `%` in front of it. -/
structure NotLonger (format : List U8) : Prop where
  aligned : ∀ arg arg' text, formatText ones format arg = .ok text →
    text.length ≤ onesLength format arg'
  shownBehind : ∀ arg arg' text, formatText ones (ch '%' :: format) arg = .ok text →
    text.length ≤ onesLength format arg' + 2
  storedBehind : ∀ arg arg' text, formatText ones format arg = .ok text →
    text.length ≤ onesLength (ch '%' :: format) arg' + 1

section
variable {d : U8} {rest text : List U8}

/-- Behind a `%l` the console goes on one byte later. -/
theorem formatText_long_ones (ih : ∀ e rest', rest = e :: rest' → NotLonger rest') (arg arg' : Nat)
    (h : formatText ones (ch '%' :: ch 'l' :: rest) arg = .ok text) :
    text.length ≤ onesLength rest arg' + 1 := by
  obtain ⟨e, rest', shown, next, after, hrest, hshown, hafter, htext⟩ := formatText_long_ok h
  obtain ⟨hle, hpercent⟩ := longDirective_ones hshown
  have hnext := ih e rest' hrest
  rw [htext, hrest, List.length_append]
  by_cases he : e = ch '%'
  · have hbound := hnext.storedBehind next arg' after hafter
    rw [hpercent he, he, List.length_nil]
    omega
  · have hbound := hnext.aligned next arg' after hafter
    rw [onesLength_byte he]
    omega

theorem notLonger_nil : NotLonger [] := by
  refine ⟨fun arg arg' text h => ?_, fun arg arg' text h => ?_, fun arg arg' text h => ?_⟩
  · rw [← Except.ok.inj h]
    exact Nat.zero_le _
  · rw [← Except.ok.inj h]
    exact Nat.le_add_left 1 1
  · rw [← Except.ok.inj h]
    exact Nat.zero_le _

theorem NotLonger.aligned_cons (hrest : NotLonger rest)
    (ih : ∀ e rest', rest = e :: rest' → NotLonger rest')
    (ih₂ : ∀ d e rest', rest = d :: e :: rest' → NotLonger rest') (arg arg' : Nat)
    (h : formatText ones (d :: rest) arg = .ok text) :
    text.length ≤ onesLength (d :: rest) arg' := by
  by_cases hd : d = ch '%'
  · subst hd
    cases rest with
    | nil =>
      rw [← Except.ok.inj h]
      exact Nat.le_refl 1
    | cons x rest =>
      rw [onesLength_directive x rest arg']
      by_cases hx : x = ch 'l'
      · subst hx
        have hlong : (directive ones (ch 'l') arg').2.text.length = 2 := rfl
        have hbound := formatText_long_ones (fun e rest' he => ih₂ _ e rest' (by rw [he])) arg
          (directive ones (ch 'l') arg').1 h
        omega
      · obtain ⟨shown, next, after, hshown, hafter, htext⟩ := formatText_directive_ok hx h
        have hbound := (ih x rest rfl).aligned next (directive ones x arg').1 after hafter
        have hle := consoleDirective_ones hx arg' hshown
        rw [htext, List.length_append]
        omega
  · obtain ⟨after, hafter, htext⟩ := formatText_byte_ok hd h
    have hbound := hrest.aligned arg arg' after hafter
    rw [htext, onesLength_byte hd, List.length_cons]
    omega

theorem NotLonger.shownBehind_cons (hrest : NotLonger rest)
    (ih : ∀ e rest', rest = e :: rest' → NotLonger rest') (arg arg' : Nat)
    (h : formatText ones (ch '%' :: d :: rest) arg = .ok text) :
    text.length ≤ onesLength (d :: rest) arg' + 2 := by
  by_cases hl : d = ch 'l'
  · subst hl
    have hbound := formatText_long_ones ih arg arg' h
    rw [onesLength_byte (by decide)]
    omega
  · obtain ⟨shown, next, after, hshown, hafter, htext⟩ := formatText_directive_ok hl h
    have hle := consoleDirective_ones hl arg' hshown
    rw [htext, List.length_append]
    by_cases hd : d = ch '%'
    · subst hd
      have hone : (directive ones (ch '%') arg').2.text.length = 1 := rfl
      have hbound := hrest.storedBehind next arg' after hafter
      omega
    · have hbound := hrest.aligned next arg' after hafter
      have hthree := (directive_ones d arg').2
      rw [onesLength_byte hd]
      omega

theorem NotLonger.storedBehind_cons (hrest : NotLonger rest) (arg arg' : Nat)
    (h : formatText ones (d :: rest) arg = .ok text) :
    text.length ≤ onesLength (ch '%' :: d :: rest) arg' + 1 := by
  have hone := (directive_ones d arg').1
  rw [onesLength_directive d rest arg']
  by_cases hd : d = ch '%'
  · subst hd
    have hbound := hrest.shownBehind arg (directive ones (ch '%') arg').1 text h
    omega
  · obtain ⟨after, hafter, htext⟩ := formatText_byte_ok hd h
    have hbound := hrest.aligned arg (directive ones d arg').1 after hafter
    rw [htext, List.length_cons]
    omega

theorem NotLonger.cons (hrest : NotLonger rest) (ih : ∀ e rest', rest = e :: rest' → NotLonger rest')
    (ih₂ : ∀ d e rest', rest = d :: e :: rest' → NotLonger rest') : NotLonger (d :: rest) where
  aligned arg arg' _ := hrest.aligned_cons ih ih₂ arg arg'
  shownBehind arg arg' _ := hrest.shownBehind_cons ih arg arg'
  storedBehind arg arg' _ := hrest.storedBehind_cons arg arg'

end

theorem notLonger (format : List U8) : NotLonger format := by
  induction hlen : format.length using Nat.strong_induction_on generalizing format with
  | _ n ih =>
    cases format with
    | nil => exact notLonger_nil
    | cons d rest =>
      rw [List.length_cons] at hlen
      refine NotLonger.cons (ih rest.length (by omega) rest rfl) (fun e rest' he => ?_)
        fun d e rest' he => ?_
      · rw [he, List.length_cons] at hlen
        exact ih rest'.length (by omega) rest' rfl
      · rw [he, List.length_cons, List.length_cons] at hlen
        exact ih rest'.length (by omega) rest' rfl

/-- A `%l` is stored with its letter, and shown at most as the number it stands for. -/
theorem long_shorter (format : List U8) (arg arg' : Nat) (text : List U8)
    (hlong : ∃ p ∈ directives ones format arg', p.1 = ch 'l')
    (h : formatText ones format arg = .ok text) : text.length < onesLength format arg' := by
  induction format using List.twoStepInduction generalizing arg arg' text with
  | nil =>
    obtain ⟨p, hp, -⟩ := hlong
    exact absurd hp List.not_mem_nil
  | singleton c =>
    obtain ⟨p, hp, -⟩ := hlong
    exact absurd hp List.not_mem_nil
  | cons_cons c d rest ih₁ ih₂ =>
    rw [directives] at hlong
    by_cases hc : c = ch '%'
    · subst hc
      rw [if_pos rfl, List.exists_mem_cons_iff] at hlong
      rw [onesLength_directive d rest arg']
      by_cases hd : d = ch 'l'
      · subst hd
        have hbound := formatText_long_ones (fun e rest' _ => notLonger rest') arg
          (directive ones (ch 'l') arg').1 h
        have htwo : (directive ones (ch 'l') arg').2.text.length = 2 := rfl
        omega
      · obtain ⟨shown, next, after, hshown, hafter, htext⟩ := formatText_directive_ok hd h
        have hbound := ih₁ next _ after (hlong.resolve_left hd) hafter
        have hle := consoleDirective_ones hd arg' hshown
        rw [htext, List.length_append]
        omega
    · rw [if_neg hc] at hlong
      obtain ⟨after, hafter, htext⟩ := formatText_byte_ok hc h
      have hbound := ih₂ d arg arg' after hlong hafter
      rw [htext, onesLength_byte hc, List.length_cons]
      omega

/-! ## Agreement -/

/-- What the console shows is what `vsprintf` stores. -/
def Agree (format : CStr) (args : Args) : Prop :=
  ∃ text, (printf format args).2 = .ok text ∧
    (vsprintf format args).2 = (text.length, 0) :: stores 0 text

theorem agree_iff {format : CStr} {args : Args}
    (hroom : (textOf (expand args format.bytes 0)).length ≤ 2^64 - 2) :
    Agree format args ↔
      formatText args format.bytes 0 = .ok (textOf (expand args format.bytes 0)) := by
  rw [Agree, vsprintf_writes format args hroom]
  refine ⟨fun ⟨text, hshown, hstored⟩ => ?_, fun h => ⟨_, h, rfl⟩⟩
  rw [stores_inj (List.cons.inj hstored).2]
  exact hshown

/-- The two formatters agree on a format without `%l` and arguments both write the same
way, and a format without `%l` on which they agree has only such arguments. A format with
`%l` they do not even write the same way when every argument is 1. -/
theorem formatters_agree_iff (format : CStr) (args : Args)
    (hroom : (textOf (expand args format.bytes 0)).length ≤ 2^64 - 2) :
    ((∀ p ∈ directives args format.bytes 0, p.1 ≠ ch 'l' ∧ SameText p.1 p.2) →
      Agree format args) ∧
    ((∀ p ∈ directives args format.bytes 0, p.1 ≠ ch 'l') → Agree format args →
      ∀ p ∈ directives args format.bytes 0, SameText p.1 p.2) ∧
    ((∃ p ∈ directives ones format.bytes 0, p.1 = ch 'l') →
      (textOf (expand ones format.bytes 0)).length ≤ 2^64 - 2 → ¬ Agree format ones) := by
  rw [agree_iff hroom]
  refine ⟨fun h => ?_, fun hlong h => ?_, fun hlong hroomOnes h => ?_⟩
  · exact (formatText_matches args format.bytes 0 fun p hp => (h p hp).1).2.mpr
      fun p hp => (h p hp).2
  · exact (formatText_matches args format.bytes 0 hlong).2.mp h
  · rw [agree_iff hroomOnes] at h
    exact Nat.lt_irrefl _ (long_shorter format.bytes 0 0 _ hlong h)

-- by accident a format with `%l` comes out the same: `%l%%s` and the string `%l%s`
example :
    let args : Args := ⟨fun _ => 1, fun _ => ⟨"%l%s".toList.map ch, by decide⟩⟩
    formatText args ("%l%%s".toList.map ch) 0 =
      .ok (textOf (expand args ("%l%%s".toList.map ch) 0)) := rfl

/-- `%s%c%%`, for which neither needs a digit. -/
theorem formatters_agree_iff_text :
    (textOf (expand ones ("%s%c%%".toList.map ch) 0)).length ≤ 2^64 - 2 ∧
      Agree ⟨"%s%c%%".toList.map ch, by decide⟩ ones := by
  have hroom : (textOf (expand ones ("%s%c%%".toList.map ch) 0)).length ≤ 2^64 - 2 := by decide
  refine ⟨hroom, (formatters_agree_iff ⟨"%s%c%%".toList.map ch, by decide⟩ ones hroom).1 ?_⟩
  have hdirectives : directives ones ("%s%c%%".toList.map ch) 0 =
      [(ch 's', 1), (ch 'c', 1), (ch '%', 1)] := rfl
  rw [hdirectives, List.forall_mem_cons, List.forall_mem_cons, List.forall_mem_singleton]
  refine ⟨⟨?_, SameText.of_ne ?_ ?_ ?_⟩, ⟨?_, SameText.of_ne ?_ ?_ ?_⟩,
    ⟨?_, SameText.of_ne ?_ ?_ ?_⟩⟩
  all_goals decide

/-- `%X` for 10: the console shows `A`, `vsprintf` stores `a`. -/
theorem formatters_differ :
    let format : CStr := ⟨"%X".toList.map ch, by decide⟩
    let args : Args := ⟨fun _ => 10, fun _ => CStr.empty⟩
    (printf format args).2 = .ok [ch 'A'] ∧
      (vsprintf format args).2 = [(1, 0), (0, ch 'a')] ∧ ¬ Agree format args := by
  intro format args
  have hdigits : digits sixteen (10 : Nat) = [ch 'a'] := by
    rw [digits_natCast]
    rfl
  have hshown : (printf format args).2 = .ok [ch 'A'] := by
    have hletter : (consoleDirective args (ch 'X') 0).2 = .ok [ch 'A'] := by
      show List.map upperHex <$> uitoa 10 sixteen = _
      rw [uitoa_eq (by decide)]
      show Except.ok ((digits sixteen (10 : Nat)).reverse.map upperHex) = _
      rw [hdigits]
      rfl
    show formatText args (ch '%' :: [ch 'X']) 0 = _
    rw [formatText_directive [] 0 (by decide), hletter]
    rfl
  have htext : textOf (expand args format.bytes 0) = [ch 'a'] := by
    show (digits sixteen (10 : Nat)).reverse ++ [] = _
    rw [hdigits]
    rfl
  have hstored : (vsprintf format args).2 = [(1, 0), (0, ch 'a')] := by
    rw [vsprintf_writes format args (by rw [htext]; decide), htext]
    rfl
  refine ⟨hshown, hstored, fun ⟨text, htext, hstores⟩ => ?_⟩
  rw [hshown] at htext
  rw [hstored, ← Except.ok.inj htext] at hstores
  exact absurd hstores (by decide)

end JarJar.Vga
