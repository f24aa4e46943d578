import JarJar.StrftimeFields
import JarJar.StrftimeNames

/- The whole text. Where every token fits into the room it meets, `strftime` stores what the
   tokens spell, one behind the other, as far as there is room. A two-digit field spells the
   four bytes `%02d`, so the lines of `ctime` tell the day of the week and the month apart and
   nothing else, and end in the middle of a field, where the 26 bytes of `buf` are full.

   Correspondence (C ↔ Lean):
     what a case of the `switch` prints   ↔ `Tm.spelled`
     the line in `buf`                    ↔ `ctimeLine` -/
namespace JarJar.Libc

def nameText (table : List CStr) (i : Int) : List U8 := ((nameAt table i).getD CStr.empty).bytes

def intText (v : Int) : List U8 := (itoa ((BitVec.ofInt 64 v).setWidth 32) 10).bytes

/-- The text of a directive that is printed. -/
def Tm.spelled (tm : Tm) (d : U8) : List U8 :=
  if d = ch 'a' then nameText dayAbbr tm.wday
  else if d = ch 'A' then nameText dayNames tm.wday
  else if d = ch 'b' then nameText monthAbbr tm.mon
  else if d = ch 'B' then nameText monthNames tm.mon
  else if d = ch 'p' then (if tm.hour < 12 then literal "AM" else literal "PM").bytes
  else if d = ch 'w' then intText tm.wday
  else if d = ch 'Y' then intText (tm.year + 1900)
  else (literal "%02d").bytes

def Token.text (tm : Tm) : Token → List U8
  | .byte c => [c]
  | .directive d => tm.spelled d

/-! ## One token -/

section
variable {max : U64} {tm : Tm} {o o' : Stamp} {d : U8} {field : Field}

/-- A field that prints the text, whatever the room is. -/
def Field.Shows (field : Field) (text : List U8) : Prop :=
  ∃ format args, field = .print format args ∧ ∀ size : U64, size ≠ 0 → Prints format args text size

theorem shows_name {table : List CStr} {i : Int} (hshort : ∀ name ∈ table, name.bytes.length ≤ 9)
    (h : printName table i = some field) : field.Shows (nameText table i) := by
  rw [printName, Option.map_eq_some_iff] at h
  obtain ⟨name, hname, rfl⟩ := h
  have hmem : name ∈ table := by
    rw [nameAt] at hname
    split at hname
    · cases hname
    · exact List.mem_of_getElem? hname
  have hle := hshort name hmem
  rw [nameText, hname, Option.getD_some]
  exact ⟨_, _, rfl, fun size hsize => prints_string (by omega) hsize⟩

theorem shows_int {v : Int} (h : printInt v = some field) : field.Shows (intText v) := by
  obtain rfl := Option.some.inj h
  exact ⟨_, _, rfl, fun size hsize => prints_int v hsize⟩

theorem strftimeField_shows (hd : d ∈ printedLetters) (h : strftimeField tm d = some field) :
    field.Shows (tm.spelled d) := by
  obtain ⟨hdayAbbr, hdayNames, hmonthAbbr, hmonthNames⟩ := names_short
  obtain rfl | rfl | rfl | rfl | rfl | rfl | rfl := mem_printedLetters.mp hd
  · exact shows_name hdayAbbr h
  · exact shows_name hdayNames h
  · exact shows_name hmonthAbbr h
  · exact shows_name hmonthNames h
  · obtain rfl := Option.some.inj h
    refine ⟨_, _, rfl, fun size hsize => prints_string ?_ hsize⟩
    split
    · decide
    · decide
  · exact shows_int h
  · exact shows_int h

theorem spelled_two (hd : d ∈ twoDigitLetters) : tm.spelled d = (literal "%02d").bytes := by
  obtain rfl | rfl | rfl | rfl | rfl | rfl | rfl := mem_twoDigitLetters.mp hd <;> rfl

theorem strftimeDirective_text (hlt : o.count.toNat + 1 < max.toNat)
    (hfits : (Token.directive d).Fits (max.toNat - o.count.toNat))
    (hstep : strftimeDirective max tm d o = some o') :
    let stored := (tm.spelled d).take (max.toNat - 1 - o.count.toNat)
    o'.count.toNat = o.count.toNat + stored.length ∧
      o'.writes = (o.count.toNat + stored.length, 0) :: stores o.count.toNat stored ++ o.writes := by
  have hroom := toNat_room hlt
  rw [strftimeDirective, Option.map_eq_some_iff] at hstep
  obtain ⟨field, hfield, rfl⟩ := hstep
  obtain hprinted | ⟨htwo, hne⟩ := hfits
  · obtain ⟨format, args, rfl, hprints⟩ := strftimeField_shows hprinted hfield
    have hsize : max - o.count ≠ 0 := by
      intro hzero
      rw [hzero] at hroom
      have hnone : (0 : U64).toNat = 0 := rfl
      omega
    exact directive_print (hprints _ hsize) hlt
  · obtain ⟨v, hv⟩ := strftimeField_two tm htwo
    obtain rfl := Option.some.inj (hv.symm.trans hfield)
    rw [spelled_two htwo]
    exact directive_print (prints_two v (by omega)) hlt

theorem strftimeToken_text {text : List U8} {tok : Token} (h : Spells text o)
    (hlt : o.count.toNat + 1 < max.toNat) (hfits : tok.Fits (max.toNat - o.count.toNat))
    (hstep : strftimeToken max tm o tok = some o') :
    Spells (text ++ (tok.text tm).take (max.toNat - 1 - text.length)) o' := by
  have hmax := max.isLt
  have hcount := h.count
  cases tok with
  | byte c =>
    obtain rfl := Option.some.inj hstep
    rw [Token.text, List.take_of_length_le (by rw [List.length_singleton]; omega)]
    exact h.put (by omega) c
  | directive d =>
    obtain ⟨hindex, hwrites⟩ := strftimeDirective_text hlt hfits hstep
    show Spells (text ++ (tm.spelled d).take (max.toNat - 1 - text.length)) o'
    rw [← hcount]
    exact h.append [_] hindex hwrites (by simp)

theorem nameText_length (table : List CStr) (i : Int) :
    (nameText table i).length = nameWidth table i := by
  rw [nameText, nameWidth]
  cases nameAt table i with
  | none => rfl
  | some name => rfl

theorem Token.text_length {tok : Token} {room : Nat} (h : tok.Fits room) :
    (tok.text tm).length = tok.width tm := by
  cases tok with
  | byte c => rfl
  | directive d =>
    obtain hprinted | ⟨htwo, -⟩ := h
    · obtain rfl | rfl | rfl | rfl | rfl | rfl | rfl := mem_printedLetters.mp hprinted
      · exact nameText_length dayAbbr tm.wday
      · exact nameText_length dayNames tm.wday
      · exact nameText_length monthAbbr tm.mon
      · exact nameText_length monthNames tm.mon
      · show (if tm.hour < 12 then literal "AM" else literal "PM").bytes.length = 2
        split <;> rfl
      · rfl
      · rfl
    · rw [Token.text, Token.width, spelled_two htwo, directiveWidth_two htwo]
      rfl

end

/-! ## All tokens -/

/-- What the tokens spell. -/
def spelledText (tm : Tm) (toks : List Token) : List U8 := toks.flatMap (Token.text tm)

section
variable {max : U64} {tm : Tm} {o o' : Stamp} {toks : List Token}

theorem strftimeTokens_text {before : List U8} (hmax : max ≠ 0)
    (h : Spells (before.take (max.toNat - 1)) o)
    (hclean : CleanFrom max.toNat tm before.length toks)
    (hrun : strftimeTokens max tm toks o = some o') :
    Spells ((before ++ spelledText tm toks).take (max.toNat - 1)) o' := by
  induction toks generalizing before o with
  | nil =>
    obtain rfl := Option.some.inj hrun
    rwa [spelledText, List.flatMap_nil, List.append_nil]
  | cons tok toks ih =>
    have hcount := h.count
    rw [List.length_take] at hcount
    by_cases hlt : o.count.toNat + 1 < max.toNat
    · have hshort : before.length + 1 < max.toNat := by omega
      obtain ⟨hfits, hrest⟩ := hclean hshort
      have hplace : o.count.toNat = before.length := by omega
      rw [List.take_of_length_le (by omega)] at h
      rw [← hplace] at hfits
      rw [strftimeTokens_go hmax hlt] at hrun
      obtain ⟨o₁, hstep, hafter⟩ := Option.bind_eq_some_iff.mp hrun
      have hspells := strftimeToken_text h hlt hfits hstep
      have hnext : (before ++ tok.text tm).take (max.toNat - 1) =
          before ++ (tok.text tm).take (max.toNat - 1 - before.length) := by
        rw [List.take_append, List.take_of_length_le (l := before) (by omega)]
      rw [← hnext] at hspells
      have hwidth : (before ++ tok.text tm).length = before.length + tok.width tm := by
        rw [List.length_append, Token.text_length hfits]
      rw [spelledText, List.flatMap_cons, ← List.append_assoc]
      exact ih hspells (by rwa [hwidth]) hafter
    · -- there is no room for more
      rw [strftimeTokens_stop hmax hlt] at hrun
      obtain rfl := Option.some.inj hrun
      rwa [List.take_append_of_le_length (by omega)]

end

theorem Spells.holds {text : List U8} {o : Stamp} (h : Spells text o) :
    Holds text (o.count, (o.count.toNat, 0) :: o.writes) := by
  refine ⟨h.count, ?_, fun i hi => ?_⟩
  · rw [← h.count]
    exact List.lookup_cons_self
  · rw [lookup_cons_of_ne (Nat.ne_of_gt (h.count ▸ hi)), h.spelled i hi, List.getElem?_eq_getElem hi]

theorem strftime_spells {max : U64} {tm : Tm} {format : CStr}
    (hmon : 0 ≤ tm.mon ∧ tm.mon < 12) (hwday : 0 ≤ tm.wday ∧ tm.wday < 7) (hmax : max ≠ 0)
    (hclean : Clean max tm format) :
    ∃ o : Stamp, strftime max format tm = some (o.count, (o.count.toNat, 0) :: o.writes) ∧
      Spells ((spelledText tm (tokens format.bytes)).take (max.toNat - 1)) o := by
  obtain ⟨o, hrun⟩ := strftimeTokens_total max hmon hwday (tokens format.bytes) ⟨0, []⟩
  have hstart : Spells (([] : List U8).take (max.toNat - 1)) ⟨0, []⟩ := by
    rw [List.take_nil]
    exact spells_start
  have hspells := strftimeTokens_text hmax hstart hclean hrun
  rw [List.nil_append] at hspells
  refine ⟨o, ?_, hspells⟩
  rw [strftime, if_neg hmax, strftimeLoop_eq, hrun, Option.map_some]

theorem take_length_lt {max : U64} (hmax : max ≠ 0) (text : List U8) :
    (text.take (max.toNat - 1)).length < max.toNat := by
  have hpos := toNat_pos hmax
  rw [List.length_take]
  omega

/-- **The text of `strftime`.** For any date whose month and day of the week are in the tables,
any buffer with room for a byte and any format whose tokens all fit, the buffer holds what the
tokens spell, cut off where it is full, and nothing is stored behind it. -/
theorem strftime_text {tm : Tm} (hmon : 0 ≤ tm.mon ∧ tm.mon < 12)
    (hwday : 0 ≤ tm.wday ∧ tm.wday < 7) (max : U64) (hmax : max ≠ 0) (format : CStr)
    (hclean : Clean max tm format) :
    ∃ r, strftime max format tm = some r ∧ InBuffer max r ∧
      Holds ((spelledText tm (tokens format.bytes)).take (max.toNat - 1)) r := by
  obtain ⟨o, ho, hspells⟩ := strftime_spells hmon hwday hmax hclean
  exact ⟨_, ho, hspells.inBuffer (take_length_lt hmax _), hspells.holds⟩

/-- `%B %d` at the epoch in a buffer of 12 bytes, where the month leaves two bytes of `%02d`. -/
theorem strftime_text_january :
    ∃ r, strftime 12 (literal "%B %d") ⟨0, 0, 0, 1, 0, 70, 4, 0, -1⟩ = some r ∧ InBuffer 12 r ∧
      Holds ((spelledText ⟨0, 0, 0, 1, 0, 70, 4, 0, -1⟩ (tokens (literal "%B %d").bytes)).take 11) r := by
  refine strftime_text (by decide) (by decide) 12 (by decide) (literal "%B %d") fun _ => ?_
  refine ⟨.inl (by decide), fun _ => ⟨trivial, fun _ => ⟨.inr ⟨by decide, by decide⟩, trivial⟩⟩⟩

/-! ## The line of `ctime` -/

section
variable {tm tm' : Tm}

/-- The 25 bytes in front of the NUL. -/
def ctimeLine (tm : Tm) : List U8 :=
  nameText dayAbbr tm.wday ++ [ch ' '] ++ nameText monthAbbr tm.mon ++
    (literal " %02d %02d:%02d:%0").bytes

theorem dayAbbr_three : ∀ i : Fin 7, ∃ a b c, nameText dayAbbr i = [a, b, c] := by
  intro i
  have hlength : (nameText dayAbbr i).length = 3 := by decide +revert
  exact List.length_eq_three.mp hlength

theorem monthAbbr_three : ∀ i : Fin 12, ∃ a b c, nameText monthAbbr i = [a, b, c] := by
  intro i
  have hlength : (nameText monthAbbr i).length = 3 := by decide +revert
  exact List.length_eq_three.mp hlength

theorem dayAbbr_injective :
    ∀ i j : Fin 7, nameText dayAbbr i = nameText dayAbbr j → i = j := by decide

theorem monthAbbr_injective :
    ∀ i j : Fin 12, nameText monthAbbr i = nameText monthAbbr j → i = j := by decide

/-- The day of the week and the month are in their tables. -/
structure Tm.Named (tm : Tm) (day : Fin 7) (month : Fin 12) : Prop where
  wday : tm.wday = day
  mon : tm.mon = month

theorem gmtime_named {t : Int} (hepoch : 0 ≤ t) (htm : gmtime t = some tm) :
    ∃ day month, tm.Named day month := by
  have hmon := (gmtime_fields htm).1
  have hpos : 0 ≤ tm.wday := (gmtime_wday_iff htm).mpr (.inl (by omega))
  have hlt : tm.wday < 7 := by
    rw [(gmtime_fields htm).2]
    exact Int.tmod_lt_of_pos _ (by decide)
  exact ⟨⟨tm.wday.toNat, by omega⟩, ⟨tm.mon.toNat, by omega⟩, (Int.toNat_of_nonneg hpos).symm,
    (Int.toNat_of_nonneg hmon.1).symm⟩

theorem asctime_tokens : tokens (literal "%a %b %d %H:%M:%S %Y\n").bytes =
    [.directive (ch 'a'), .byte (ch ' '), .directive (ch 'b'), .byte (ch ' '), .directive (ch 'd'),
      .byte (ch ' '), .directive (ch 'H'), .byte (ch ':'), .directive (ch 'M'), .byte (ch ':'),
      .directive (ch 'S'), .byte (ch ' '), .directive (ch 'Y'), .byte (ch '\n')] := rfl

section
variable {day day' : Fin 7} {month month' : Fin 12}

theorem Tm.Named.widths (h : tm.Named day month) :
    directiveWidth tm (ch 'a') = 3 ∧ directiveWidth tm (ch 'b') = 3 := by
  obtain ⟨a, b, c, hday⟩ := dayAbbr_three day
  obtain ⟨a', b', c', hmonth⟩ := monthAbbr_three month
  refine ⟨?_, ?_⟩
  · show nameWidth dayAbbr tm.wday = 3
    rw [← nameText_length, h.wday, hday]
    rfl
  · show nameWidth monthAbbr tm.mon = 3
    rw [← nameText_length, h.mon, hmonth]
    rfl

theorem Tm.Named.clean (h : tm.Named day month) :
    Clean 26 tm (literal "%a %b %d %H:%M:%S %Y\n") := by
  obtain ⟨hday, hmonth⟩ := h.widths
  have htwo : ∀ d ∈ twoDigitLetters, directiveWidth tm d = 4 := fun d hd => directiveWidth_two hd
  rw [Clean, asctime_tokens]
  simp only [CleanFrom, Token.width, Token.Fits, hday, hmonth, htwo (ch 'd') (by decide),
    htwo (ch 'H') (by decide), htwo (ch 'M') (by decide), htwo (ch 'S') (by decide)]
  -- two names, four two-digit fields and the bytes between them, up to the bound
  exact fun _ => ⟨.inl (by decide), fun _ => ⟨trivial, fun _ => ⟨.inl (by decide), fun _ => ⟨trivial,
    fun _ => ⟨.inr (by decide), fun _ => ⟨trivial, fun _ => ⟨.inr (by decide), fun _ => ⟨trivial,
    fun _ => ⟨.inr (by decide), fun _ => ⟨trivial, fun _ => ⟨.inr (by decide),
    fun _ => ⟨trivial, fun hfull => absurd hfull (by decide)⟩⟩⟩⟩⟩⟩⟩⟩⟩⟩⟩⟩

theorem Tm.Named.text (h : tm.Named day month) :
    (spelledText tm (tokens (literal "%a %b %d %H:%M:%S %Y\n").bytes)).take 25 = ctimeLine tm := by
  obtain ⟨a, b, c, hday⟩ := dayAbbr_three day
  obtain ⟨a', b', c', hmonth⟩ := monthAbbr_three month
  have hnames : tm.spelled (ch 'a') = [a, b, c] ∧ tm.spelled (ch 'b') = [a', b', c'] := by
    rw [← hday, ← hmonth, ← h.wday, ← h.mon]
    exact ⟨rfl, rfl⟩
  have htwo : ∀ d ∈ twoDigitLetters, tm.spelled d = (literal "%02d").bytes := fun d hd => spelled_two hd
  rw [asctime_tokens, ctimeLine, h.wday, h.mon, hday, hmonth]
  simp only [spelledText, List.flatMap_cons, Token.text, hnames, htwo (ch 'd') (by decide),
    htwo (ch 'H') (by decide), htwo (ch 'M') (by decide), htwo (ch 'S') (by decide)]
  rfl

theorem ctimeLine_length (h : tm.Named day month) : (ctimeLine tm).length = 25 := by
  obtain ⟨a, b, c, hday⟩ := dayAbbr_three day
  obtain ⟨a', b', c', hmonth⟩ := monthAbbr_three month
  rw [ctimeLine, h.wday, h.mon, hday, hmonth]
  rfl

theorem ctimeLine_eq_iff (h : tm.Named day month) (h' : tm'.Named day' month') :
    ctimeLine tm = ctimeLine tm' ↔ tm.wday = tm'.wday ∧ tm.mon = tm'.mon := by
  refine ⟨fun heq => ?_, fun ⟨hwday, hmon⟩ => by rw [ctimeLine, hwday, hmon, ctimeLine]⟩
  rw [ctimeLine, ctimeLine, h.wday, h.mon, h'.wday, h'.mon] at heq
  have hdays : (nameText dayAbbr day).length = (nameText dayAbbr day').length := by
    obtain ⟨a, b, c, hday⟩ := dayAbbr_three day
    obtain ⟨a', b', c', hday'⟩ := dayAbbr_three day'
    rw [hday, hday']
    rfl
  obtain ⟨hfront, -⟩ := List.append_inj' heq rfl
  rw [List.append_assoc, List.append_assoc] at hfront
  obtain ⟨hday, hrest⟩ := List.append_inj hfront hdays
  obtain ⟨-, hmonth⟩ := List.cons.inj hrest
  rw [h.wday, h.mon, h'.wday, h'.mon, dayAbbr_injective _ _ hday, monthAbbr_injective _ _ hmonth]
  exact ⟨rfl, rfl⟩

end

end

theorem ctime_line {t : Int} {tm : Tm} {day : Fin 7} {month : Fin 12}
    (htm : gmtime t = some tm) (h : tm.Named day month) :
    ∃ r, ctime t = some r ∧ InBuffer 26 r ∧ Holds (ctimeLine tm) r := by
  have hmon : 0 ≤ tm.mon ∧ tm.mon < 12 := by
    have hlt := month.isLt
    rw [h.mon]
    omega
  have hwday : 0 ≤ tm.wday ∧ tm.wday < 7 := by
    have hlt := day.isLt
    rw [h.wday]
    omega
  obtain ⟨o, ho, hspells⟩ := strftime_spells hmon hwday (show (26 : U64) ≠ 0 by decide) h.clean
  have hline : Spells (ctimeLine tm) o := h.text ▸ hspells
  refine ⟨(o.count, (o.count.toNat, 0) :: o.writes), ?_, hline.inBuffer ?_, hline.holds⟩
  · rw [ctime, htm, Option.bind_some, asctime, ho]
  · rw [ctimeLine_length h]
    decide

/-- From the epoch on, `ctime` keeps to its 26 bytes, each line has 25 of them, and the lines of
two times are the same exactly if the day of the week and the month are. -/
theorem ctime_same_iff {t t' : Int} {tm tm' : Tm} (hepoch : 0 ≤ t) (hepoch' : 0 ≤ t')
    (htm : gmtime t = some tm) (htm' : gmtime t' = some tm') :
    ∃ r r' line line', ctime t = some r ∧ ctime t' = some r' ∧ InBuffer 26 r ∧ InBuffer 26 r' ∧
      Holds line r ∧ Holds line' r' ∧ line.length = 25 ∧ line'.length = 25 ∧
      (line = line' ↔ tm.wday = tm'.wday ∧ tm.mon = tm'.mon) := by
  obtain ⟨day, month, hnamed⟩ := gmtime_named hepoch htm
  obtain ⟨day', month', hnamed'⟩ := gmtime_named hepoch' htm'
  obtain ⟨r, hr, hbuffer, hholds⟩ := ctime_line htm hnamed
  obtain ⟨r', hr', hbuffer', hholds'⟩ := ctime_line htm' hnamed'
  exact ⟨r, r', ctimeLine tm, ctimeLine tm', hr, hr', hbuffer, hbuffer', hholds, hholds',
    ctimeLine_length hnamed, ctimeLine_length hnamed', ctimeLine_eq_iff hnamed hnamed'⟩

/-- The epoch and a second a week later have one line. -/
theorem ctime_same_iff_week : ∃ r r' line, ctime 0 = some r ∧ ctime 608461 = some r' ∧
    Holds line r ∧ Holds line r' := by
  have hweek : gmtime 608461 = some ⟨1, 1, 1, 8, 0, 70, 4, 7, -1⟩ :=
    gmtime_of_lt_february (by decide)
  obtain ⟨r, r', line, line', hr, hr', -, -, hholds, hholds', -, -, hsame⟩ :=
    ctime_same_iff (Int.le_refl 0) (by decide) gmtime_epoch hweek
  obtain rfl := hsame.mpr ⟨rfl, rfl⟩
  exact ⟨r, r', line, hr, hr', hholds, hholds'⟩

end JarJar.Libc
