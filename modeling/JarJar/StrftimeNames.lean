import JarJar.StrftimeBounds

/- The tables of names. `gmtime` counts the months up from 0 and stops below 12, but takes
   the day of the week by a remainder, which is negative for days before the first Sunday
   that is counted from, a multiple of seven days before it apart.

   Correspondence (C ↔ Lean):
     formats that reach `%a` or `%A` before the bound   ↔ `NamesDay`
     `asctime`, `ctime`                                 ↔ `asctime`, `ctime`
   `localtime` is `gmtime`. What is proved is `strftime_tables_iff`. -/
namespace JarJar.Libc

/-- The stores into `buf`; `none` for an index outside of a table. -/
def asctime (tm : Tm) : Option (U64 × List (Nat × U8)) :=
  strftime 26 (literal "%a %b %d %H:%M:%S %Y\n") tm

def ctime (t : Int) : Option (U64 × List (Nat × U8)) := (gmtime t).bind asctime

def Token.NamesDay : Token → Prop
  | .byte _ => False
  | .directive d => d = ch 'a' ∨ d = ch 'A'

def NamesDayFrom (max : Nat) (tm : Tm) : Nat → List Token → Prop
  | _, [] => False
  | w, tok :: toks => w + 1 < max ∧ (tok.NamesDay ∨ NamesDayFrom max tm (w + tok.width tm) toks)

def NamesDay (max : U64) (tm : Tm) (format : CStr) : Prop :=
  NamesDayFrom max.toNat tm 0 (tokens format.bytes)

section
variable {max : U64} {tm : Tm} {o : Stamp}

theorem strftimeToken_none_iff (hmon : 0 ≤ tm.mon ∧ tm.mon < 12) (hwday : tm.wday < 0) (tok : Token) :
    strftimeToken max tm o tok = none ↔ tok.NamesDay := by
  cases tok with
  | byte c => exact ⟨fun h => absurd h (Option.some_ne_none _), False.elim⟩
  | directive d =>
    rw [strftimeToken, strftimeDirective, Option.map_eq_none_iff, strftimeField_none_iff hmon]
    exact ⟨fun h => h.1, fun h => ⟨h, by omega⟩⟩

theorem strftimeTokens_none_iff (hmon : 0 ≤ tm.mon ∧ tm.mon < 12) (hwday : tm.wday < 0)
    (hmax : max ≠ 0) {toks : List Token} (hsafe : Safe max o.count.toNat toks) {w : Nat}
    (htracks : Tracks max.toNat w o) :
    strftimeTokens max tm toks o = none ↔ NamesDayFrom max.toNat tm w toks := by
  induction toks generalizing o w with
  | nil => exact ⟨fun h => absurd h (Option.some_ne_none _), False.elim⟩
  | cons tok toks ih =>
    rw [NamesDayFrom]
    by_cases hlt : o.count.toNat + 1 < max.toNat
    · have hw := htracks.below_iff.mp hlt
      rw [strftimeTokens_go hmax hlt, ← strftimeToken_none_iff hmon hwday]
      cases hstep : strftimeToken max tm o tok with
      | none => exact ⟨fun _ => ⟨hw, .inl rfl⟩, fun _ => rfl⟩
      | some o₁ =>
        obtain ⟨-, htracks', hsafe'⟩ := strftimeToken_extends hlt hsafe hstep
        rw [htracks.eq hw] at htracks'
        rw [Option.bind_some, ih hsafe' htracks']
        exact ⟨fun h => ⟨hw, .inr h⟩, fun h => h.2.resolve_left (Option.some_ne_none _)⟩
    · rw [strftimeTokens_stop hmax hlt]
      exact ⟨fun h => absurd h (Option.some_ne_none _),
        fun h => absurd (htracks.below_iff.mpr h.1) hlt⟩

theorem strftime_none_iff (hmax : max ≠ 0) {format : CStr} : strftime max format tm = none ↔
    strftimeTokens max tm (tokens format.bytes) ⟨0, []⟩ = none := by
  rw [strftime, if_neg hmax, strftimeLoop_eq, Option.map_eq_none_iff]

end

theorem gmtime_five_before : gmtime (-432000) = some ⟨0, 0, 0, -4, 0, 70, -1, -5, -1⟩ :=
  gmtime_of_lt_february (by decide)

/-- **`strftime` and its tables.** For every time: the indices of the months stay inside of
their tables, and those of the days do, in every buffer and for every format, when the day
is at most four before the epoch or a Sunday. Otherwise a format leaves the tables exactly
when it reaches the name of a day before the bound, unless that is `SIZE_MAX` and the
format has 2^58 bytes. The format of `asctime` starts with such a name. -/
theorem strftime_tables_iff {t : Int} {tm : Tm} (htm : gmtime t = some tm) :
    (0 ≤ tm.mon ∧ tm.mon ≤ 11) ∧
    ((-432000 < t ∨ 7 ∣ 4 + t.tdiv 86400) → ∀ max format, strftime max format tm ≠ none) ∧
    (∀ max format, max ≠ -1 ∨ format.bytes.length < 2^58 → (strftime max format tm ≠ none ↔
      (-432000 < t ∨ 7 ∣ 4 + t.tdiv 86400) ∨ ¬NamesDay max tm format)) ∧
    (ctime t ≠ none ↔ -432000 < t ∨ 7 ∣ 4 + t.tdiv 86400) := by
  have hmon := (gmtime_fields htm).1
  have hiff := gmtime_wday_iff htm
  have hinside : 0 ≤ tm.wday → ∀ max format, strftime max format tm ≠ none := by
    intro hpos max format
    by_cases hmax : max = 0
    · rw [strftime, if_pos hmax]
      exact Option.some_ne_none _
    · have hlt : tm.wday < 7 := by
        rw [(gmtime_fields htm).2]
        exact Int.tmod_lt_of_pos _ (by decide)
      obtain ⟨o, ho⟩ := strftimeTokens_total max hmon ⟨hpos, hlt⟩ (tokens format.bytes) ⟨0, []⟩
      rw [ne_eq, strftime_none_iff hmax, ho]
      exact Option.some_ne_none _
  have hreached : ∀ max format, max ≠ -1 ∨ format.bytes.length < 2^58 →
      (strftime max format tm ≠ none ↔ 0 ≤ tm.wday ∨ ¬NamesDay max tm format) := by
    intro max format hsmall
    by_cases hpos : 0 ≤ tm.wday
    · exact ⟨fun _ => .inl hpos, fun _ => hinside hpos max format⟩
    by_cases hmax : max = 0
    · -- nothing is reached in a buffer without a byte
      refine ⟨fun _ => .inr ?_, fun _ => by rw [strftime, if_pos hmax]; exact Option.some_ne_none _⟩
      unfold NamesDay
      rw [hmax]
      cases tokens format.bytes with
      | nil => exact id
      | cons tok toks => exact fun h => absurd h.1 (Nat.not_lt_zero _)
    · rw [ne_eq, strftime_none_iff hmax,
        strftimeTokens_none_iff hmon (Int.lt_of_not_ge hpos) hmax (safe_start hsmall) (.inl rfl), NamesDay]
      exact ⟨.inr, fun h => h.resolve_left hpos⟩
  refine ⟨⟨hmon.1, Int.le_of_lt_add_one hmon.2⟩, fun h => hinside (hiff.mpr h), ?_, ?_⟩
  · intro max format hsmall
    rw [hreached max format hsmall, hiff]
  · have hnames : NamesDay 26 tm (literal "%a %b %d %H:%M:%S %Y\n") := ⟨by decide, .inl (.inl rfl)⟩
    rw [ctime, htm, Option.bind_some, asctime, hreached 26 _ (.inl (by decide)), hiff]
    exact ⟨fun h => h.resolve_right fun hno => hno hnames, .inl⟩

/-- Five days before the epoch, a Saturday: the year can be had and the name of the day cannot;
at the epoch every format can. -/
theorem strftime_tables_iff_saturday :
    let tm : Tm := ⟨0, 0, 0, -4, 0, 70, -1, -5, -1⟩
    strftime 26 (literal "%Y") tm ≠ none ∧ strftime 26 (literal "%a") tm = none ∧
      ctime (-432000) = none ∧ ∀ max format, strftime max format ⟨0, 0, 0, 1, 0, 70, 4, 0, -1⟩ ≠ none := by
  intro tm
  obtain ⟨-, -, hformats, hline⟩ := strftime_tables_iff gmtime_five_before
  have hday : ¬ (-432000 < (-432000 : Int) ∨ 7 ∣ 4 + (-432000 : Int).tdiv 86400) := by decide
  refine ⟨?_, ?_, ?_, (strftime_tables_iff gmtime_epoch).2.1 (.inl (by decide))⟩
  · refine (hformats 26 _ (.inl (by decide))).mpr (.inr ?_)
    rintro ⟨-, (hyear | hyear) | hrest⟩
    · exact absurd hyear (by decide)
    · exact absurd hyear (by decide)
    · exact hrest
  · by_contra hsome
    refine ((hformats 26 _ (.inl (by decide))).mp hsome).elim hday fun hno => hno ?_
    exact ⟨by decide, .inl (.inl rfl)⟩
  · by_contra hsome
    exact hday (hline.mp hsome)

/-- `%a` five days before the epoch takes the entry -1 of its table. -/
theorem strftime_day_minus_one : ∃ tm, gmtime (-432000) = some tm ∧ tm.wday = -1 ∧
    strftime 26 (literal "%a") tm = none :=
  ⟨_, gmtime_five_before, rfl, rfl⟩

end JarJar.Libc
