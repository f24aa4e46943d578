import JarJar.StrftimeBounds

/- Two digits for a field. `%02d` is not a directive of `snprintf`, which stores its four
   bytes for whatever number it is given; so a text with a two-digit field in it starts to
   differ from the expected one at the first of them.

   Correspondence (C ↔ Lean):
     the ranges of the fields of `struct tm`   ↔ `Tm.FromEpoch`
     the number behind a directive             ↔ `Tm.number`
     the text that is expected                 ↔ `expectedText`
   What is proved is `strftime_two_digits_iff`. -/
namespace JarJar.Libc

/-- The ranges of `gmtime` from the epoch on. -/
structure Tm.FromEpoch (tm : Tm) : Prop where
  sec : 0 ≤ tm.sec ∧ tm.sec ≤ 59
  min : 0 ≤ tm.min ∧ tm.min ≤ 59
  hour : 0 ≤ tm.hour ∧ tm.hour ≤ 23
  mday : 1 ≤ tm.mday ∧ tm.mday ≤ 31
  mon : 0 ≤ tm.mon ∧ tm.mon ≤ 11
  year : 70 ≤ tm.year

/-- The number a two-digit directive stands for. -/
def Tm.number (tm : Tm) (d : U8) : Int :=
  if d = ch 'd' then tm.mday
  else if d = ch 'H' then tm.hour
  else if d = ch 'I' then if tm.hour % 12 = 0 then 12 else tm.hour % 12
  else if d = ch 'm' then tm.mon + 1
  else if d = ch 'M' then tm.min
  else if d = ch 'S' then tm.sec
  else tm.year % 100

def twoDigits (n : Int) : List U8 :=
  [BitVec.ofNat 8 (48 + n.toNat / 10), BitVec.ofNat 8 (48 + n.toNat % 10)]

/-- A byte other than `%`, or a two-digit directive. -/
def Token.TwoDigit : Token → Prop
  | .byte c => c ≠ ch '%'
  | .directive d => d ∈ twoDigitLetters

def expectedText (tm : Tm) : List Token → List U8
  | [] => []
  | .byte c :: toks => c :: expectedText tm toks
  | .directive d :: toks => twoDigits (tm.number d) ++ expectedText tm toks

/-- The string `text` is in the buffer, and its length is returned. -/
def Holds (text : List U8) (r : U64 × List (Nat × U8)) : Prop :=
  r.1.toNat = text.length ∧ r.2.lookup text.length = some 0 ∧
    ∀ i < text.length, r.2.lookup i = text[i]?

theorem number_range {tm : Tm} (h : tm.FromEpoch) {d : U8} (hd : d ∈ twoDigitLetters) :
    0 ≤ tm.number d ∧ tm.number d < 100 := by
  obtain ⟨hsec, hmin, hhour, hmday, hmon, -⟩ := h
  obtain rfl | rfl | rfl | rfl | rfl | rfl | rfl := mem_twoDigitLetters.mp hd
  · show 0 ≤ tm.mday ∧ tm.mday < 100
    omega
  · show 0 ≤ tm.hour ∧ tm.hour < 100
    omega
  · show 0 ≤ (if tm.hour % 12 = 0 then 12 else tm.hour % 12) ∧
      (if tm.hour % 12 = 0 then 12 else tm.hour % 12) < 100
    split <;> omega
  · show 0 ≤ tm.mon + 1 ∧ tm.mon + 1 < 100
    omega
  · show 0 ≤ tm.min ∧ tm.min < 100
    omega
  · show 0 ≤ tm.sec ∧ tm.sec < 100
    omega
  · show 0 ≤ tm.year % 100 ∧ tm.year % 100 < 100
    omega

theorem twoDigits_head {n : Int} (h : n < 100) : (twoDigits n)[0]? ≠ some (ch '%') := by
  intro heq
  have hbyte : BitVec.ofNat 8 (48 + n.toNat / 10) = ch '%' := Option.some.inj heq
  have hnat := congrArg BitVec.toNat hbyte
  have hpercent : (ch '%').toNat = 37 := rfl
  rw [BitVec.toNat_ofNat, hpercent] at hnat
  omega

section
variable {max : U64} {tm : Tm} {o o' : Stamp} {toks : List Token} {text : List U8}

theorem strftimeTokens_bytes (tm : Tm) (hmax : max ≠ 0) (hbytes : ∀ tok ∈ toks, ∀ d, tok ≠ .directive d)
    (h : Spells text o) (hroom : text.length + (expectedText tm toks).length < max.toNat) :
    ∃ o', strftimeTokens max tm toks o = some o' ∧ Spells (text ++ expectedText tm toks) o' := by
  induction toks generalizing text o with
  | nil => exact ⟨o, rfl, by rwa [expectedText, List.append_nil]⟩
  | cons tok toks ih =>
    cases tok with
    | directive d => exact absurd rfl (hbytes _ List.mem_cons_self d)
    | byte c =>
      rw [expectedText, List.length_cons] at hroom
      have hcount := h.count
      have hlast := max.isLt
      obtain ⟨o', hrun, ho'⟩ := ih (fun tok' h' => hbytes tok' (List.mem_cons_of_mem _ h'))
        (h.put (by omega) c) (by rw [List.length_append, List.length_singleton]; omega)
      refine ⟨o', ?_, ?_⟩
      · rw [strftimeTokens_go hmax (by omega)]
        exact hrun
      · rwa [expectedText, List.append_cons]

theorem strftimeDirective_two {d : U8} (hd : d ∈ twoDigitLetters) (h : Spells text o)
    (hroom : o.count.toNat + 2 < max.toNat) (hstep : strftimeDirective max tm d o = some o') :
    ∃ rest, Spells (text ++ ch '%' :: rest) o' := by
  have hlt : o.count.toNat + 1 < max.toNat := Nat.lt_of_succ_lt hroom
  obtain ⟨v, hv⟩ := strftimeField_two tm hd
  obtain rfl : o.directive max (.print (literal "%02d") (intArg v)) = o' := by
    rw [strftimeDirective, hv] at hstep
    exact Option.some.inj hstep
  have hprints := prints_two v (show 2 < (max - o.count).toNat by rw [toNat_room hlt]; omega)
  obtain ⟨hcount, hwrites⟩ := directive_print hprints hlt
  have hspells := h.append [_] hcount hwrites (by simp)
  obtain ⟨room, hsome⟩ : ∃ room, max.toNat - 1 - o.count.toNat = room + 1 :=
    ⟨max.toNat - 1 - o.count.toNat - 1, by omega⟩
  rw [hsome] at hspells
  exact ⟨[ch '0', ch '2', ch 'd'].take room, hspells⟩

/-- The `%` of the first `%02d` stays where a digit is expected. -/
theorem strftimeTokens_digits (hmax : max ≠ 0) (htm : tm.FromEpoch) (h : Spells text o)
    (hshape : ∀ tok ∈ toks, tok.TwoDigit) (hmeets : ∃ d, Token.directive d ∈ toks)
    (hroom : text.length + (expectedText tm toks).length < max.toNat)
    (hrun : strftimeTokens max tm toks o = some o') :
    ∃ i < (text ++ expectedText tm toks).length, o'.writes.lookup i = some (ch '%') ∧
      (text ++ expectedText tm toks)[i]? ≠ some (ch '%') := by
  induction toks generalizing text o with
  | nil => obtain ⟨d, hd⟩ := hmeets; cases hd
  | cons tok toks ih =>
    have hcount := h.count
    have hrest : ∀ tok' ∈ toks, tok'.TwoDigit := fun tok' h' => hshape tok' (List.mem_cons_of_mem _ h')
    cases tok with
    | byte c =>
      rw [expectedText, List.length_cons] at hroom
      have hlast := max.isLt
      obtain ⟨d, hd⟩ := hmeets
      have hmeets' : Token.directive d ∈ toks := by simpa using hd
      rw [strftimeTokens_go hmax (by omega)] at hrun
      rw [expectedText, List.append_cons]
      exact ih (h.put (by omega) c) hrest ⟨d, hmeets'⟩
        (by rw [List.length_append, List.length_singleton]; omega) hrun
    | directive d =>
      have hd : d ∈ twoDigitLetters := hshape _ List.mem_cons_self
      have htwo : (twoDigits (tm.number d)).length = 2 := rfl
      rw [expectedText, List.length_append, htwo] at hroom
      rw [strftimeTokens_go hmax (by omega)] at hrun
      obtain ⟨o₁, hstep, hafter⟩ := Option.bind_eq_some_iff.mp hrun
      obtain ⟨rest, hspells⟩ := strftimeDirective_two hd h (by omega) hstep
      have hsafe : Safe max o₁.count.toNat toks := .inr (.inr fun d' hd' => .inr (hrest _ hd'))
      have hlater := strftimeTokens_extends hmax hsafe hafter
      have hlength : text.length < (text ++ ch '%' :: rest).length := by
        rw [List.length_append, List.length_cons]
        omega
      refine ⟨text.length, ?_, ?_, ?_⟩
      · rw [expectedText, List.length_append, List.length_append, htwo]
        omega
      · rw [hspells.lookup_extends hlater hlength, List.getElem_append_right (Nat.le_refl _)]
        simp
      · rw [expectedText, List.getElem?_append_right (Nat.le_refl _), Nat.sub_self,
          List.getElem?_append_left (by rw [htwo]; decide)]
        exact twoDigits_head (number_range htm hd).2

end

/-- **Two digits for a field.** For every structure with the fields of a time from the epoch
on, every format of bytes other than `%` and of two-digit directives, and every buffer that
has room for the expected text: `strftime` produces that text exactly when the format has no
directive. -/
theorem strftime_two_digits_iff {tm : Tm} (htm : tm.FromEpoch) (max : U64) (format : CStr)
    (hshape : ∀ tok ∈ tokens format.bytes, tok.TwoDigit)
    (hroom : (expectedText tm (tokens format.bytes)).length < max.toNat) :
    (∃ r, strftime max format tm = some r ∧ Holds (expectedText tm (tokens format.bytes)) r) ↔
      ∀ d, Token.directive d ∉ tokens format.bytes := by
  have hmax : max ≠ 0 := by
    rintro rfl
    exact Nat.not_lt_zero _ hroom
  generalize htoks : tokens format.bytes = toks at hshape hroom ⊢
  have hstart : [] ++ expectedText tm toks = expectedText tm toks := List.nil_append _
  constructor
  · rintro ⟨r, hr, hcount, -, hholds⟩ d hd
    rw [strftime, if_neg hmax, strftimeLoop_eq, htoks] at hr
    obtain ⟨o, hrun, rfl⟩ := Option.map_eq_some_iff.mp hr
    obtain ⟨i, hi, hpercent, hne⟩ := strftimeTokens_digits hmax htm spells_start hshape ⟨d, hd⟩
      (by simpa using hroom) hrun
    rw [hstart] at hi hne
    have hlookup := hholds i hi
    dsimp only at hcount hlookup
    rw [lookup_cons_of_ne (by omega), hpercent] at hlookup
    exact hne hlookup.symm
  · intro hnone
    obtain ⟨o, hrun, hspells⟩ := strftimeTokens_bytes tm hmax
      (fun tok htok d hd => hnone d (hd ▸ htok)) spells_start (by simpa using hroom)
    rw [hstart] at hspells
    refine ⟨(o.count, (o.count.toNat, 0) :: o.writes), ?_, hspells.count, ?_, ?_⟩
    · rw [strftime, if_neg hmax, strftimeLoop_eq, htoks, hrun, Option.map_some]
    · rw [← hspells.count]
      exact List.lookup_cons_self
    · intro i hi
      have hcount := hspells.count
      dsimp only
      rw [lookup_cons_of_ne (by omega), hspells.spelled i hi, List.getElem?_eq_getElem hi]

/-- The day and the month at the epoch in a buffer of 26 bytes, without directives and as one. -/
theorem strftime_two_digits_iff_plain :
    let tm : Tm := ⟨0, 0, 0, 1, 0, 70, 4, 0, -1⟩
    (∃ r, strftime 26 (literal "01/01") tm = some r ∧ Holds (literal "01/01").bytes r) ∧
      ¬ ∃ r, strftime 26 (literal "%d") tm = some r ∧ Holds (literal "01").bytes r := by
  intro tm
  have htm : tm.FromEpoch := ⟨by decide, by decide, by decide, by decide, by decide, by decide⟩
  constructor
  · exact (strftime_two_digits_iff htm 26 (literal "01/01")
      (by simp [literal, tokens, Token.TwoDigit, ch]) (by decide)).mpr
      (by simp [literal, tokens, ch])
  · intro hholds
    have hshape : ∀ tok ∈ tokens (literal "%d").bytes, tok.TwoDigit :=
      List.forall_mem_singleton.mpr (mem_twoDigitLetters.mpr (.inl rfl))
    have htext : (literal "01").bytes = expectedText tm (tokens (literal "%d").bytes) := by decide
    rw [htext] at hholds
    exact (strftime_two_digits_iff htm 26 (literal "%d") hshape (by decide)).mp hholds (ch 'd')
      List.mem_cons_self

/-- `%d/%m` at the epoch comes out as `%02d/%02d`. -/
theorem strftime_two_digits_literal :
    let tm : Tm := ⟨0, 0, 0, 1, 0, 70, 4, 0, -1⟩
    let format := literal "%d/%m"
    (∀ tok ∈ tokens format.bytes, tok.TwoDigit) ∧ expectedText tm (tokens format.bytes) =
        (literal "01/01").bytes ∧
      (∃ r, strftime 26 format tm = some r ∧ Holds (literal "%02d/%02d").bytes r) ∧
      ¬∃ r, strftime 26 format tm = some r ∧ Holds (expectedText tm (tokens format.bytes)) r := by
  intro tm format
  refine ⟨?_, by decide, ⟨_, rfl, ?_⟩, ?_⟩
  · intro tok htok
    have htokens : tokens format.bytes = [.directive (ch 'd'), .byte (ch '/'), .directive (ch 'm')] := rfl
    rw [htokens] at htok
    simp only [List.mem_cons, List.not_mem_nil, or_false] at htok
    rcases htok with rfl | rfl | rfl
    · exact mem_twoDigitLetters.mpr (.inl rfl)
    · show ch '/' ≠ ch '%'
      decide
    · exact mem_twoDigitLetters.mpr (.inr (.inr (.inr (.inl rfl))))
  · unfold Holds
    decide
  · rintro ⟨r, hr, hlength, -⟩
    obtain rfl := Option.some.inj hr
    exact absurd hlength (by decide)

end JarJar.Libc
