import JarJar.ConsoleFormat

/- The output of single characters and of strings. All of it goes through
   `console_printf`, and the text itself is the format: what a caller wants to show is
   read for directives, and a directive takes whatever the call finds where its arguments
   would be.

   Correspondence (C ↔ Lean):
     `console_printf(format)`     ↔ `consolePrintf`
     `putchar`                    ↔ `putchar`
     `puts`, `fputs`              ↔ `puts`, `fputs`
   `args` are the values a call finds for the arguments it was not given. -/
namespace JarJar.Vga
open Libc

def consolePrintf (format : CStr) (args : Args) : Except Fault (List U8) :=
  consoleVprintf format args

/-- `char str[2] = {(char)c, '\0'}`. -/
def charStr (c : U32) : CStr where
  bytes := if c.setWidth 8 = (0 : U8) then [] else [c.setWidth 8]
  nonzero := by
    intro b hb
    split at hb
    · cases hb
    · next hne => simpa [List.mem_singleton.mp hb] using hne

/-- `"\n"`. -/
def newline : CStr := ⟨[ch '\n'], by decide⟩

/-- The value returned, and what is shown. -/
def putchar (args : Args) (c : U32) : Int × Except Fault (List U8) :=
  (c.toInt, consolePrintf (charStr c) args)

def puts (args : Args) (s : CStr) : Int × Except Fault (List U8) :=
  (0, do
    let text ← consolePrintf s args
    return text ++ (← consolePrintf newline args))

def fputs (args : Args) (s : CStr) (_stream : U64) : Int × Except Fault (List U8) := puts args s

/-- What `putchar` shows for one byte after the other; a `char` is signed. -/
def putchars (args : Args) : List U8 → Except Fault (List U8)
  | [] => .ok []
  | b :: bytes => do
    let text ← (putchar args (b.signExtend 32)).2
    return text ++ (← putchars args bytes)

/-- The format has a `%` with one of the letters of the directives directly behind it. -/
def Interprets : List U8 → Prop
  | c :: d :: rest => (c = ch '%' ∧ d ∈ directiveBytes) ∨ Interprets (d :: rest)
  | _ => False

instance Interprets.decidable : (s : List U8) → Decidable (Interprets s)
  | [] => isFalse id
  | [_] => isFalse id
  | c :: d :: rest =>
    have := Interprets.decidable (d :: rest)
    inferInstanceAs (Decidable ((c = ch '%' ∧ d ∈ directiveBytes) ∨ Interprets (d :: rest)))

theorem interprets_byte {c : U8} (hc : c ≠ ch '%') (rest : List U8) :
    Interprets (c :: rest) ↔ Interprets rest := by
  cases rest <;> simp [Interprets, hc]

/-! ## One byte -/

theorem formatText_single (args : Args) (b : U8) (arg : Nat) :
    formatText args [b] arg = .ok [b] := by
  simp [formatText]

theorem setWidth_signExtend (b : U8) : (b.signExtend 32).setWidth 8 = b := by
  apply BitVec.eq_of_getLsbD_eq
  intro i hi
  rw [BitVec.getLsbD_setWidth, BitVec.getLsbD_signExtend]
  simp [hi, Nat.lt_trans hi]

/-- A single `%` is shown like every other byte. -/
theorem putchar_text (args : Args) {b : U8} (hb : b ≠ 0) :
    (putchar args (b.signExtend 32)).2 = .ok [b] := by
  have hbytes : (charStr (b.signExtend 32)).bytes = [b] := by
    simp only [charStr, setWidth_signExtend, if_neg hb]
  rw [putchar, consolePrintf, consoleVprintf, hbytes]
  exact formatText_single args b 0

theorem putchars_text (args : Args) {bytes : List U8} (h : ∀ b ∈ bytes, b ≠ 0) :
    putchars args bytes = .ok bytes := by
  induction bytes with
  | nil => simp [putchars]
  | cons b bytes ih =>
    rw [List.forall_mem_cons] at h
    rw [putchars, putchar_text args h.1, ih h.2]
    simp [bind, Except.bind, pure, Except.pure]

theorem puts_text {args : Args} {s : CStr} {text : List U8}
    (h : formatText args s.bytes 0 = .ok text) : (puts args s).2 = .ok (text ++ [ch '\n']) := by
  have hnewline : consolePrintf newline args = .ok [ch '\n'] :=
    formatText_single args (ch '\n') 0
  rw [puts, hnewline, consolePrintf, consoleVprintf, h]
  simp [bind, Except.bind, pure, Except.pure]

theorem puts_error {args : Args} {s : CStr} {fault : Fault}
    (h : formatText args s.bytes 0 = .error fault) : (puts args s).2 = .error fault := by
  rw [puts, consolePrintf, consoleVprintf, h]
  simp [bind, Except.bind]

/-! ## The whole string -/

theorem formatText_verbatim (args : Args) {format : List U8} (arg : Nat) (h : ¬ Interprets format) :
    formatText args format arg = .ok format := by
  induction format using List.twoStepInduction generalizing arg with
  | nil => simp [formatText]
  | singleton c => exact formatText_single args c arg
  | cons_cons c d rest ih₁ ih₂ =>
    rw [Interprets, not_or, not_and] at h
    by_cases hc : c = ch '%'
    · have hd : d ∉ directiveBytes := h.1 hc
      have hl : d ≠ ch 'l' := fun heq => hd (by rw [heq]; decide)
      have hpercent : d ≠ ch '%' := fun heq => hd (by rw [heq]; decide)
      have hrest := ih₁ arg fun hrest => h.2 ((interprets_byte hpercent rest).mpr hrest)
      rw [hc, formatText_directive rest arg hl, consoleDirective_unknown args arg hd]
      simp [hrest, bind, Except.bind, pure, Except.pure]
    · rw [formatText_byte d rest arg hc, ih₂ d arg h.2]
      simp [bind, Except.bind, pure, Except.pure]

/-! ## The percent signs of a text -/

theorem lastDigits_one {base : Base} (hbase : base.val ≤ 16) :
    lastDigits base (1 : Nat) = .ok [ch '1'] := by
  rw [lastDigits_natCast hbase, digits_one]

theorem uitoa_one {base : Base} (hbase : base.val ≤ 16) : uitoa 1 base = .ok [ch '1'] := by
  rw [uitoa_eq hbase]
  show Except.ok (digits base (1 : Nat)).reverse = _
  rw [digits_one]
  rfl

theorem signed_one : signed 1 = .ok [ch '1'] := by
  have hpos : ¬ (1 : U32).toInt < 0 := by decide
  rw [signed, if_neg hpos, itoa_eq 1 (by decide)]
  show Except.ok (digits ten (1 : Nat)).reverse = _
  rw [digits_one]
  rfl

/-- What a directive shows has fewer percent signs than the directive itself, if its
argument is 1. -/
theorem consoleDirective_count {d : U8} {arg : Nat} {shown : List U8} (hd : d ∈ directiveBytes)
    (hl : d ≠ ch 'l') (h : (consoleDirective ones d arg).2 = .ok shown) :
    shown.count (ch '%') < [ch '%', d].count (ch '%') := by
  have hfewer (text : List U8) (heq : (consoleDirective ones d arg).2 = .ok text)
      (hcount : text.count (ch '%') < [ch '%', d].count (ch '%')) :
      shown.count (ch '%') < [ch '%', d].count (ch '%') := by
    rw [← Except.ok.inj (heq.symm.trans h)]
    exact hcount
  rw [mem_directiveBytes] at hd
  obtain rfl | rfl | rfl | rfl | rfl | rfl | rfl | rfl | rfl | rfl := hd
  · exact hfewer [1] rfl (by decide)
  · exact hfewer [ch 'a'] rfl (by decide)
  · exact hfewer [ch '1'] signed_one (by decide)
  · exact hfewer [ch '1'] signed_one (by decide)
  · exact hfewer [ch '1'] (uitoa_one (by decide)) (by decide)
  · exact hfewer [ch '1'] (uitoa_one (by decide)) (by decide)
  · refine hfewer [ch '1'] ?_ (by decide)
    show List.map upperHex <$> uitoa 1 sixteen = _
    rw [uitoa_one (by decide)]
    rfl
  · refine hfewer [ch '0', ch 'x', ch '1'] ?_ (by decide)
    show (hexPrefix.bytes ++ ·) <$> uitoa 1 sixteen = _
    rw [uitoa_one (by decide)]
    rfl
  · exact hfewer [ch '%'] rfl (by decide)
  · exact absurd rfl hl

theorem longDirective_count {e : U8} {arg : Nat} {shown : List U8}
    (h : (longDirective ones e arg).2 = .ok shown) : shown.count (ch '%') = 0 := by
  have hone (base : Base) (hbase : base.val ≤ 16)
      (hnumber : List.reverse <$> lastDigits base (1 : Nat) = .ok shown) :
      shown.count (ch '%') = 0 := by
    rw [lastDigits_one hbase] at hnumber
    obtain rfl := Except.ok.inj hnumber
    decide
  rw [longDirective] at h
  split_ifs at h with hu hd hneg hx
  · exact hone ten (by decide) h
  · exact absurd hneg (by decide : ¬ (1 : U64).toInt < 0)
  · exact hone ten (by decide) h
  · exact hone sixteen (by decide) h
  · obtain rfl := Except.ok.inj h
    exact List.count_nil

/-- A `%l` swallows the byte behind it and shows no percent sign itself. -/
theorem formatText_long_count {rest text : List U8} {arg : Nat}
    (h : formatText ones (ch '%' :: ch 'l' :: rest) arg = .ok text)
    (ih : ∀ rest' : List U8, rest'.length < rest.length → ∀ arg' text',
      formatText ones rest' arg' = .ok text' → text'.count (ch '%') ≤ rest'.count (ch '%')) :
    text.count (ch '%') ≤ rest.count (ch '%') := by
  obtain ⟨e, rest', shown, next, after, hrest, hshown, hafter, htext⟩ := formatText_long_ok h
  rw [htext, hrest]
  calc (shown ++ after).count (ch '%') = shown.count (ch '%') + after.count (ch '%') :=
        List.count_append
    _ = after.count (ch '%') := by rw [longDirective_count hshown, Nat.zero_add]
    _ ≤ rest'.count (ch '%') := ih rest' (by rw [hrest]; exact Nat.lt_succ_self _) next after hafter
    _ ≤ (e :: rest').count (ch '%') := List.count_le_count_cons

/-- A format never shows more percent signs than it has, and fewer if one of them is read
as a directive. -/
theorem formatText_count (format : List U8) (arg : Nat) (text : List U8)
    (h : formatText ones format arg = .ok text) :
    text.count (ch '%') ≤ format.count (ch '%') ∧
      (Interprets format → text.count (ch '%') < format.count (ch '%')) := by
  induction hlen : format.length using Nat.strong_induction_on generalizing format arg text with
  | _ n ih =>
    cases format with
    | nil =>
      rw [← Except.ok.inj h]
      exact ⟨Nat.le_refl _, False.elim⟩
    | cons c rest =>
      by_cases hc : c = ch '%'
      · subst hc
        cases rest with
        | nil =>
          rw [← Except.ok.inj h]
          exact ⟨Nat.le_refl _, False.elim⟩
        | cons d rest =>
          have hsplit : (ch '%' :: d :: rest).count (ch '%') =
              [ch '%', d].count (ch '%') + rest.count (ch '%') := by
            rw [← List.count_append, List.cons_append, List.singleton_append]
          rw [List.length_cons, List.length_cons] at hlen
          rw [hsplit]
          by_cases hl : d = ch 'l'
          · subst hl
            have hpair : [ch '%', ch 'l'].count (ch '%') = 1 := by decide
            have hfewer := formatText_long_count h fun rest' hshorter arg' text' h' =>
              (ih rest'.length (by omega) rest' arg' text' h' rfl).1
            exact ⟨by omega, fun _ => by omega⟩
          · obtain ⟨shown, next, after, hshown, hafter, htext⟩ := formatText_directive_ok hl h
            obtain ⟨hle, hlt⟩ := ih rest.length (by omega) rest next after hafter rfl
            rw [htext, List.count_append]
            by_cases hd : d ∈ directiveBytes
            · have hfewer := consoleDirective_count hd hl hshown
              exact ⟨by omega, fun _ => by omega⟩
            · have hpercent : d ≠ ch '%' := fun heq => hd (by rw [heq]; decide)
              rw [consoleDirective_unknown ones arg hd] at hshown
              rw [← Except.ok.inj hshown]
              refine ⟨Nat.add_le_add_left hle _, fun hreads => Nat.add_lt_add_left (hlt ?_) _⟩
              rw [Interprets, interprets_byte hpercent] at hreads
              exact hreads.resolve_left fun hpair => hd hpair.2
      · obtain ⟨after, hafter, htext⟩ := formatText_byte_ok hc h
        rw [List.length_cons] at hlen
        obtain ⟨hle, hlt⟩ := ih rest.length (by omega) rest arg after hafter rfl
        rw [htext, List.count_cons, List.count_cons, interprets_byte hc]
        exact ⟨Nat.add_le_add_right hle _, fun hreads => Nat.add_lt_add_right (hlt hreads) _⟩

/-! ## Strings as they stand -/

/-- `puts` shows what `putchar` shows for the bytes of the string and a newline, whatever
it finds for arguments. -/
def PutsVerbatim (s : CStr) : Prop :=
  ∀ args, (puts args s).2 = putchars args (s.bytes ++ [ch '\n'])

/-- `fputs` shows the bytes of the string and nothing else. -/
def FputsVerbatim (s : CStr) (stream : U64) : Prop :=
  ∀ args, (fputs args s stream).2 = .ok s.bytes

theorem putchars_line (args : Args) (s : CStr) :
    putchars args (s.bytes ++ [ch '\n']) = .ok (s.bytes ++ [ch '\n']) := by
  apply putchars_text
  intro b hb
  cases List.mem_append.mp hb with
  | inl h => exact s.nonzero b h
  | inr h => rw [List.mem_singleton.mp h]; decide

theorem puts_ones_ne {s : CStr} (h : Interprets s.bytes) {text : List U8}
    (htext : text = s.bytes ∨ text = s.bytes ++ [ch '\n']) : (puts ones s).2 ≠ .ok text := by
  intro hputs
  have hnewline : [ch '\n'].count (ch '%') = 0 := by decide
  cases hshown : formatText ones s.bytes 0 with
  | error fault =>
    rw [puts_error hshown] at hputs
    cases hputs
  | ok shown =>
    have hfewer := (formatText_count s.bytes 0 shown hshown).2 h
    rw [puts_text hshown] at hputs
    have hcount := congrArg (List.count (ch '%')) (Except.ok.inj hputs)
    obtain rfl | rfl := htext
    · rw [List.count_append] at hcount
      omega
    · rw [List.count_append, List.count_append] at hcount
      omega

/-- `puts` shows a string as it stands exactly if no `%` in it has the letter of a
directive directly behind it; `fputs` adds a newline to every string. -/
theorem puts_verbatim_iff (s : CStr) (stream : U64) :
    (PutsVerbatim s ↔ ¬ Interprets s.bytes) ∧ ¬ FputsVerbatim s stream := by
  refine ⟨⟨fun h hreads => ?_, fun hreads args => ?_⟩, fun h => ?_⟩
  · have hones := h ones
    rw [putchars_line] at hones
    exact puts_ones_ne hreads (.inr rfl) hones
  · rw [puts_text (formatText_verbatim args 0 hreads), putchars_line]
  · have hones := h ones
    by_cases hreads : Interprets s.bytes
    · exact puts_ones_ne hreads (.inl rfl) hones
    · rw [fputs, puts_text (formatText_verbatim ones 0 hreads), Except.ok.injEq] at hones
      have hlength := congrArg List.length hones
      rw [List.length_append, List.length_singleton] at hlength
      omega

/-- `puts("%%")` shows one percent sign, and `fputs("a", stream)` a line. -/
theorem puts_interprets :
    let percents : CStr := ⟨"%%".toList.map ch, by decide⟩
    let letter : CStr := ⟨"a".toList.map ch, by decide⟩
    (puts ones percents).2 = .ok ("%\n".toList.map ch) ∧
      putchars ones (percents.bytes ++ [ch '\n']) = .ok ("%%\n".toList.map ch) ∧
      ¬ PutsVerbatim percents ∧
      (fputs ones letter 0).2 = .ok ("a\n".toList.map ch) ∧ ¬ FputsVerbatim letter 0 := by
  refine ⟨rfl, rfl, fun h => ?_, rfl, fun h => ?_⟩
  · exact absurd (Except.ok.inj (h ones)) (by decide)
  · exact absurd (Except.ok.inj (h ones)) (by decide)

end JarJar.Vga
