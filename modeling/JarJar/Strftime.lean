import JarJar.StdioPrefix
import JarJar.Time
import Mathlib.Data.List.TakeWhile

/- Formatted time. `strftime` hands every field to `snprintf`, with the room that is left,
   and adds what it returns to the index; the cases that store their bytes themselves add
   to the index once more. `snprintf` knows no field widths, so that `%02d` comes out as it
   stands there.

   Correspondence (C ↔ Lean):
     `day_abbr`, `day_names`, `month_abbr`, `month_names`   ↔ `dayAbbr`, `dayNames`, …
     an index into one of them                  ↔ `nameAt`, `none` outside of the table
     `count`, `s[count++] = …`                  ↔ `Stamp`, `Stamp.put`
     what a case of the `switch` does           ↔ `Field`, `strftimeField`
     the `switch`, `count += n`                 ↔ `Stamp.field`, `Stamp.directive`
     the loop, `strftime`                       ↔ `strftimeLoop`, `strftime`
   No pointer is NULL (the result is 0 for that). Stores are logged with their offset from
   `s`, the latest first. -/
namespace JarJar.Libc

/-- A string literal, up to its first NUL. -/
def literal (s : String) : CStr where
  bytes := (s.toList.map ch).takeWhile fun b => b ≠ 0
  nonzero b hb := by simpa using List.mem_takeWhile_imp hb

def dayAbbr : List CStr := ["Sun", "Mon", "Tue", "Wed", "Thu", "Fri", "Sat"].map literal

def dayNames : List CStr :=
  ["Sunday", "Monday", "Tuesday", "Wednesday", "Thursday", "Friday", "Saturday"].map literal

def monthAbbr : List CStr :=
  ["Jan", "Feb", "Mar", "Apr", "May", "Jun", "Jul", "Aug", "Sep", "Oct", "Nov", "Dec"].map literal

def monthNames : List CStr :=
  ["January", "February", "March", "April", "May", "June", "July", "August", "September",
    "October", "November", "December"].map literal

def nameAt (table : List CStr) (i : Int) : Option CStr := if i < 0 then none else table[i.toNat]?

/-- The arguments of `snprintf`: a string, or an `int`. -/
def stringArg (s : CStr) : Args := ⟨fun _ => 1, fun _ => s⟩

def intArg (v : Int) : Args := ⟨fun _ => BitVec.ofInt 64 v, fun _ => CStr.empty⟩

structure Stamp where
  count : U64
  writes : List (Nat × U8)

/-- `s[count++] = b`. -/
def Stamp.put (o : Stamp) (b : U8) : Stamp := ⟨o.count + 1, (o.count.toNat, b) :: o.writes⟩

/-- What a directive does: a call of `snprintf`, or the stores of one of the last two
cases. -/
inductive Field where
  | print (format : CStr) (args : Args)
  | percent
  | unknown (d : U8)

/-- `snprintf(…, "%s", table[i])`. -/
def printName (table : List CStr) (i : Int) : Option Field :=
  (nameAt table i).map fun name => .print (literal "%s") (stringArg name)

/-- `snprintf(…, "%d", v)`. -/
def printInt (v : Int) : Option Field := some (.print (literal "%d") (intArg v))

/-- `snprintf(…, "%02d", v)`. -/
def printTwo (v : Int) : Option Field := some (.print (literal "%02d") (intArg v))

/-- The cases of the `switch`. -/
def strftimeField (tm : Tm) (d : U8) : Option Field :=
  if d = ch 'a' then printName dayAbbr tm.wday
  else if d = ch 'A' then printName dayNames tm.wday
  else if d = ch 'b' then printName monthAbbr tm.mon
  else if d = ch 'B' then printName monthNames tm.mon
  else if d = ch 'd' then printTwo tm.mday
  else if d = ch 'H' then printTwo tm.hour
  else if d = ch 'I' then printTwo (if tm.hour.tmod 12 = 0 then 12 else tm.hour.tmod 12)
  else if d = ch 'm' then printTwo (tm.mon + 1)
  else if d = ch 'M' then printTwo tm.min
  else if d = ch 'p' then
    some (.print (literal "%s") (stringArg (if tm.hour < 12 then literal "AM" else literal "PM")))
  else if d = ch 'S' then printTwo tm.sec
  else if d = ch 'w' then printInt tm.wday
  else if d = ch 'y' then printTwo (tm.year.tmod 100)
  else if d = ch 'Y' then printInt (tm.year + 1900)
  else if d = ch '%' then some .percent
  else some (.unknown d)

/-- The stores of a case, with the `n` it ends with. -/
def Stamp.field (max : U64) (o : Stamp) : Field → Int × Stamp
  | .print format args =>
    let (n, writes) := snprintf (max - o.count) format args
    (n, { o with writes := writes.map (fun w => (o.count.toNat + w.1, w.2)) ++ o.writes })
  | .percent => (1, o.put (ch '%'))
  | .unknown d =>
    let o := o.put (ch '%')
    (2, if o.count < max - 1 then o.put d else o)

/-- A case with `if (n > 0) count += n` behind it. -/
def Stamp.directive (max : U64) (o : Stamp) (field : Field) : Stamp :=
  let (n, o) := o.field max field
  if 0 < n then { o with count := o.count + BitVec.ofInt 64 n } else o

def strftimeDirective (max : U64) (tm : Tm) (d : U8) (o : Stamp) : Option Stamp :=
  (strftimeField tm d).map (o.directive max)

/-- The loop over the format; a `%` at its very end is an ordinary byte. -/
def strftimeLoop (max : U64) (tm : Tm) : List U8 → Stamp → Option Stamp
  | [], o => some o
  | [c], o => if o.count < max - 1 then some (o.put c) else some o
  | c :: d :: rest, o =>
    if o.count < max - 1 then
      if c = ch '%' then (strftimeDirective max tm d o).bind (strftimeLoop max tm rest)
      else strftimeLoop max tm (d :: rest) (o.put c)
    else some o

/-- The value returned and the stores made; `none` for an index outside of a table. -/
def strftime (max : U64) (format : CStr) (tm : Tm) : Option (U64 × List (Nat × U8)) :=
  if max = 0 then some (0, [])
  else (strftimeLoop max tm format.bytes ⟨0, []⟩).map fun o =>
    (o.count, (o.count.toNat, 0) :: o.writes)

/-! ## The parts of a format -/

/-- A byte that is copied, or a `%` with the byte behind it. -/
inductive Token where
  | byte (c : U8)
  | directive (d : U8)

def tokens : List U8 → List Token
  | [] => []
  | [c] => [.byte c]
  | c :: d :: rest => if c = ch '%' then .directive d :: tokens rest else .byte c :: tokens (d :: rest)

def strftimeToken (max : U64) (tm : Tm) (o : Stamp) : Token → Option Stamp
  | .byte c => some (o.put c)
  | .directive d => strftimeDirective max tm d o

/-- The tokens are written until the bound is reached. -/
def strftimeTokens (max : U64) (tm : Tm) : List Token → Stamp → Option Stamp
  | [], o => some o
  | tok :: toks, o =>
    if o.count < max - 1 then (strftimeToken max tm o tok).bind (strftimeTokens max tm toks)
    else some o

theorem tokens_length_le (format : List U8) : (tokens format).length ≤ format.length := by
  induction format using List.twoStepInduction with
  | nil => exact Nat.le_refl 0
  | singleton c => exact Nat.le_refl 1
  | cons_cons c d rest ih₁ ih₂ =>
    unfold tokens
    split
    · rw [List.length_cons, List.length_cons, List.length_cons]
      omega
    · exact Nat.succ_le_succ (ih₂ d)

theorem strftimeLoop_eq (max : U64) (tm : Tm) (format : List U8) (o : Stamp) :
    strftimeLoop max tm format o = strftimeTokens max tm (tokens format) o := by
  induction format using List.twoStepInduction generalizing o with
  | nil => rfl
  | singleton c => rfl
  | cons_cons c d rest ih₁ ih₂ =>
    rw [strftimeLoop, tokens]
    by_cases hc : c = ch '%'
    · rw [if_pos hc, if_pos hc, strftimeTokens]
      have hrest : strftimeLoop max tm rest = strftimeTokens max tm (tokens rest) := funext ih₁
      rw [hrest]
      rfl
    · rw [if_neg hc, if_neg hc, strftimeTokens, ih₂]
      rfl

/-! ## What is printed -/

/-- `snprintf` stores a text as far as there is room, and a NUL behind it. -/
def Prints (format : CStr) (args : Args) (text : List U8) (size : U64) : Prop :=
  snprintf size format args = (((min (size.toNat - 1) text.length : Nat) : Int),
    (min (size.toNat - 1) text.length, 0) :: stores 0 (text.take (size.toNat - 1)))

section
variable {size : U64}

theorem prints_string {name : CStr} (hshort : name.bytes.length < 2^31) (hsize : size ≠ 0) :
    Prints (literal "%s") (stringArg name) name.bytes size := by
  have htext : textOf (expand (stringArg name) (literal "%s").bytes 0) = name.bytes :=
    List.append_nil name.bytes
  have hchunks : expand (stringArg name) (literal "%s").bytes 0 = [.copied name] := rfl
  have hnone : NoneAcross (size.toNat - 1) (expand (stringArg name) (literal "%s").bytes 0) 0 := by
    rw [hchunks]
    exact noneAcross_of_known (by simp [Chunk.Known]) _ _
  exact vsnprintf_eq_take size _ _ hsize htext hnone (by omega)

theorem prints_int (v : Int) (hsize : size ≠ 0) :
    Prints (literal "%d") (intArg v) (itoa ((BitVec.ofInt 64 v).setWidth 32) 10).bytes size := by
  have htext : textOf (expand (intArg v) (literal "%d").bytes 0) =
      (itoa ((BitVec.ofInt 64 v).setWidth 32) 10).bytes := List.append_nil _
  have hchunks : expand (intArg v) (literal "%d").bytes 0 =
      [.copied (itoa ((BitVec.ofInt 64 v).setWidth 32) 10)] := rfl
  have hnone : NoneAcross (size.toNat - 1) (expand (intArg v) (literal "%d").bytes 0) 0 := by
    rw [hchunks]
    exact noneAcross_of_known (by simp [Chunk.Known]) _ _
  have hshort := itoa_length_le ((BitVec.ofInt 64 v).setWidth 32)
  exact vsnprintf_eq_take size _ _ hsize htext hnone (by omega)

/-- There is no directive `%0`: its two bytes are stored, and the others behind them. -/
theorem prints_two (v : Int) (hsize : 2 < size.toNat) :
    Prints (literal "%02d") (intArg v) (literal "%02d").bytes size := by
  have hchunks : expand (intArg v) (literal "%02d").bytes 0 =
      [.unknown (ch '0'), .byte (ch '2'), .byte (ch 'd')] := rfl
  have htext : textOf (expand (intArg v) (literal "%02d").bytes 0) = (literal "%02d").bytes := rfl
  have hnone : NoneAcross (size.toNat - 1) (expand (intArg v) (literal "%02d").bytes 0) 0 := by
    rw [hchunks, noneAcross_cons]
    refine ⟨fun d _ => by omega, noneAcross_of_known ?_ _ _⟩
    simp [Chunk.Known]
  have hzero : size ≠ 0 := by
    rintro rfl
    contradiction
  have hlength : (literal "%02d").bytes.length = 4 := rfl
  exact vsnprintf_eq_take size _ _ hzero htext hnone (by omega)

theorem snprintf_cramped (v : Int) :
    snprintf 2 (literal "%02d") (intArg v) = (2, [(2, 0), (1, ch '0'), (0, ch '%')]) := rfl

end

/-! ## Reading back what is stored -/

theorem mem_stores {n : Nat} {text : List U8} {w : Nat × U8} (hw : w ∈ stores n text) :
    n ≤ w.1 ∧ w.1 < n + text.length := by
  induction text generalizing n with
  | nil => cases hw
  | cons b text ih =>
    rw [List.length_cons]
    cases List.mem_append.mp hw with
    | inl htail =>
      have hrest := ih htail
      omega
    | inr hhead =>
      obtain rfl := List.mem_singleton.mp hhead
      exact ⟨Nat.le_refl n, by dsimp only; omega⟩

theorem stores_shift (m n : Nat) (text : List U8) :
    (stores n text).map (fun w => (m + w.1, w.2)) = stores (m + n) text := by
  induction text generalizing n with
  | nil => rfl
  | cons b text ih => rw [stores, List.map_append, ih, stores, List.map_singleton, Nat.add_assoc]

theorem lookup_of_ne {new old : List (Nat × U8)} {i : Nat} (h : ∀ w ∈ new, w.1 ≠ i) :
    (new ++ old).lookup i = old.lookup i := by
  have hnone : new.lookup i = none := by
    rw [List.lookup_eq_none_iff]
    intro w hw
    simpa using Ne.symm (h w hw)
  rw [List.lookup_append, hnone, Option.none_or]

theorem lookup_cons_of_ne {w : Nat × U8} {old : List (Nat × U8)} {i : Nat} (h : w.1 ≠ i) :
    (w :: old).lookup i = old.lookup i := by
  rw [← List.singleton_append]
  apply lookup_of_ne
  intro w' hw'
  rwa [List.mem_singleton.mp hw']

theorem lookup_stores (n : Nat) {text : List U8} (old : List (Nat × U8)) {i : Nat}
    (hi : i < text.length) : (stores n text ++ old).lookup (n + i) = some text[i] := by
  induction text generalizing n old i with
  | nil => cases hi
  | cons b text ih =>
    rw [stores, List.append_assoc]
    cases i with
    | zero =>
      rw [lookup_of_ne]
      · exact List.lookup_cons_self
      · intro w hw
        have hle := (mem_stores hw).1
        omega
    | succ i =>
      have hrest := ih (n + 1) ([(n, b)] ++ old) (Nat.lt_of_succ_lt_succ hi)
      rwa [Nat.add_right_comm] at hrest

/-! ## One directive -/

/-- The directives that are printed without a width. -/
def printedLetters : List U8 := [ch 'a', ch 'A', ch 'b', ch 'B', ch 'p', ch 'w', ch 'Y']

/-- The directives that are printed by `%02d`. -/
def twoDigitLetters : List U8 := [ch 'd', ch 'H', ch 'I', ch 'm', ch 'M', ch 'S', ch 'y']

theorem mem_printedLetters {d : U8} : d ∈ printedLetters ↔
    d = ch 'a' ∨ d = ch 'A' ∨ d = ch 'b' ∨ d = ch 'B' ∨ d = ch 'p' ∨ d = ch 'w' ∨ d = ch 'Y' := by
  simp only [printedLetters, List.mem_cons, List.not_mem_nil, or_false]

theorem mem_twoDigitLetters {d : U8} : d ∈ twoDigitLetters ↔
    d = ch 'd' ∨ d = ch 'H' ∨ d = ch 'I' ∨ d = ch 'm' ∨ d = ch 'M' ∨ d = ch 'S' ∨ d = ch 'y' := by
  simp only [twoDigitLetters, List.mem_cons, List.not_mem_nil, or_false]

def nameWidth (table : List CStr) (i : Int) : Nat :=
  ((nameAt table i).map fun name => name.bytes.length).getD 0

def intWidth (v : Int) : Nat := (itoa ((BitVec.ofInt 64 v).setWidth 32) 10).bytes.length

/-- How far a directive moves the index when there is room. -/
def directiveWidth (tm : Tm) (d : U8) : Nat :=
  if d = ch 'a' then nameWidth dayAbbr tm.wday
  else if d = ch 'A' then nameWidth dayNames tm.wday
  else if d = ch 'b' then nameWidth monthAbbr tm.mon
  else if d = ch 'B' then nameWidth monthNames tm.mon
  else if d = ch 'w' then intWidth tm.wday
  else if d = ch 'Y' then intWidth (tm.year + 1900)
  else if d = ch 'p' ∨ d = ch '%' then 2
  else 4

theorem intWidth_le (v : Int) : intWidth v ≤ 34 := itoa_length_le _

theorem nameWidth_le {table : List CStr} (hshort : ∀ name ∈ table, name.bytes.length ≤ 9) (i : Int) :
    nameWidth table i ≤ 9 := by
  unfold nameWidth nameAt
  split
  · exact Nat.zero_le 9
  · cases hname : table[i.toNat]? with
    | none => exact Nat.zero_le 9
    | some name => exact hshort name (List.mem_of_getElem? hname)

theorem names_short : (∀ name ∈ dayAbbr, name.bytes.length ≤ 9) ∧
    (∀ name ∈ dayNames, name.bytes.length ≤ 9) ∧ (∀ name ∈ monthAbbr, name.bytes.length ≤ 9) ∧
    ∀ name ∈ monthNames, name.bytes.length ≤ 9 := by decide

theorem directiveWidth_le (tm : Tm) (d : U8) : directiveWidth tm d ≤ 34 := by
  obtain ⟨hdayAbbr, hdayNames, hmonthAbbr, hmonthNames⟩ := names_short
  have hname {table : List CStr} (hshort : ∀ name ∈ table, name.bytes.length ≤ 9) (i : Int) :
      nameWidth table i ≤ 34 := Nat.le_trans (nameWidth_le hshort i) (by decide)
  unfold directiveWidth
  split
  · exact hname hdayAbbr tm.wday
  split
  · exact hname hdayNames tm.wday
  split
  · exact hname hmonthAbbr tm.mon
  split
  · exact hname hmonthNames tm.mon
  split
  · exact intWidth_le tm.wday
  split
  · exact intWidth_le (tm.year + 1900)
  split
  · decide
  · decide

/-- A field that is printed as it should be, whatever the room is. -/
def Field.Plain (field : Field) (width : Nat) : Prop :=
  ∃ format args text, field = .print format args ∧ text.length = width ∧
    ∀ size : U64, size ≠ 0 → Prints format args text size

section
variable {tm : Tm} {d : U8} {field : Field}

theorem plain_string {name : CStr} (hshort : name.bytes.length < 2^31) :
    (Field.print (literal "%s") (stringArg name)).Plain name.bytes.length :=
  ⟨_, _, _, rfl, rfl, fun _ hsize => prints_string hshort hsize⟩

theorem plain_int {v : Int} (h : printInt v = some field) : field.Plain (intWidth v) :=
  ⟨_, _, _, (Option.some.inj h).symm, rfl, fun _ hsize => prints_int v hsize⟩

theorem plain_name {table : List CStr} {i : Int} (hshort : ∀ name ∈ table, name.bytes.length ≤ 9)
    (h : printName table i = some field) : field.Plain (nameWidth table i) := by
  unfold printName at h
  unfold nameWidth
  cases hname : nameAt table i with
  | none => simp [hname] at h
  | some name =>
    have hmem : name ∈ table := by
      unfold nameAt at hname
      split at hname
      · cases hname
      · exact List.mem_of_getElem? hname
    have hle := hshort name hmem
    have hfield : field = .print (literal "%s") (stringArg name) := by simpa [hname] using h.symm
    rw [hfield]
    exact plain_string (by omega)

theorem strftimeField_printed (hd : d ∈ printedLetters) (h : strftimeField tm d = some field) :
    field.Plain (directiveWidth tm d) := by
  obtain ⟨hdayAbbr, hdayNames, hmonthAbbr, hmonthNames⟩ := names_short
  obtain rfl | rfl | rfl | rfl | rfl | rfl | rfl := mem_printedLetters.mp hd
  · exact plain_name hdayAbbr h
  · exact plain_name hdayNames h
  · exact plain_name hmonthAbbr h
  · exact plain_name hmonthNames h
  · obtain rfl := Option.some.inj h
    split
    · exact plain_string (by decide)
    · exact plain_string (by decide)
  · exact plain_int h
  · exact plain_int h

theorem strftimeField_two (tm : Tm) (hd : d ∈ twoDigitLetters) :
    ∃ v, strftimeField tm d = some (.print (literal "%02d") (intArg v)) := by
  obtain rfl | rfl | rfl | rfl | rfl | rfl | rfl := mem_twoDigitLetters.mp hd
  · exact ⟨tm.mday, rfl⟩
  · exact ⟨tm.hour, rfl⟩
  · exact ⟨_, rfl⟩
  · exact ⟨tm.mon + 1, rfl⟩
  · exact ⟨tm.min, rfl⟩
  · exact ⟨tm.sec, rfl⟩
  · exact ⟨tm.year.tmod 100, rfl⟩

theorem directiveWidth_two (hd : d ∈ twoDigitLetters) : directiveWidth tm d = 4 := by
  obtain rfl | rfl | rfl | rfl | rfl | rfl | rfl := mem_twoDigitLetters.mp hd <;> rfl

theorem strftimeField_other (tm : Tm) (hprinted : d ∉ printedLetters) (htwo : d ∉ twoDigitLetters) :
    strftimeField tm d = some (if d = ch '%' then .percent else .unknown d) ∧
      directiveWidth tm d = if d = ch '%' then 2 else 4 := by
  simp only [mem_printedLetters, not_or] at hprinted
  simp only [mem_twoDigitLetters, not_or] at htwo
  obtain ⟨ha, hA, hb, hB, hp, hw, hY⟩ := hprinted
  obtain ⟨hd, hH, hI, hm, hM, hS, hy⟩ := htwo
  refine ⟨?_, ?_⟩
  · rw [strftimeField, if_neg ha, if_neg hA, if_neg hb, if_neg hB, if_neg hd, if_neg hH, if_neg hI,
      if_neg hm, if_neg hM, if_neg hp, if_neg hS, if_neg hw, if_neg hy, if_neg hY]
    split <;> rfl
  · rw [directiveWidth, if_neg ha, if_neg hA, if_neg hb, if_neg hB, if_neg hw, if_neg hY]
    by_cases hpercent : d = ch '%'
    · rw [if_pos (Or.inr hpercent), if_pos hpercent]
    · rw [if_neg (not_or.mpr ⟨hp, hpercent⟩), if_neg hpercent]

theorem printName_none_iff {table : List CStr} {i : Int} :
    printName table i = none ↔ ¬(0 ≤ i ∧ i < table.length) := by
  unfold printName nameAt
  rw [Option.map_eq_none_iff]
  split
  · next hneg => simp only [true_iff]; omega
  · next hpos => rw [List.getElem?_eq_none_iff]; omega

/-- Only the names of the days can be outside of their tables, when the month is not. -/
theorem strftimeField_none_iff (hmon : 0 ≤ tm.mon ∧ tm.mon < 12) : strftimeField tm d = none ↔
    (d = ch 'a' ∨ d = ch 'A') ∧ ¬(0 ≤ tm.wday ∧ tm.wday < 7) := by
  by_cases hprinted : d ∈ printedLetters
  · obtain rfl | rfl | rfl | rfl | rfl | rfl | rfl := mem_printedLetters.mp hprinted
    · exact printName_none_iff.trans (by simp [dayAbbr])
    · exact printName_none_iff.trans (by simp [dayNames])
    · exact printName_none_iff.trans (by simp [monthAbbr, ch, hmon])
    · exact printName_none_iff.trans (by simp [monthNames, ch, hmon])
    · exact ⟨fun h => absurd h (Option.some_ne_none _), fun h => absurd h.1 (by decide)⟩
    · exact ⟨fun h => absurd h (Option.some_ne_none _), fun h => absurd h.1 (by decide)⟩
    · exact ⟨fun h => absurd h (Option.some_ne_none _), fun h => absurd h.1 (by decide)⟩
  · have hname : ¬(d = ch 'a' ∨ d = ch 'A') := by
      rintro (rfl | rfl)
      · exact hprinted (mem_printedLetters.mpr (.inl rfl))
      · exact hprinted (mem_printedLetters.mpr (.inr (.inl rfl)))
    have hsome : strftimeField tm d ≠ none := by
      by_cases htwo : d ∈ twoDigitLetters
      · obtain ⟨v, hv⟩ := strftimeField_two tm htwo
        simp [hv]
      · simp [(strftimeField_other tm hprinted htwo).1]
    exact ⟨fun h => absurd h hsome, fun h => absurd h.1 hname⟩

end

end JarJar.Libc
