import JarJar.Ctype
import JarJar.Stdlib
import JarJar.Memory
import JarJar.Lib.Words
import Mathlib.Data.List.Forall2
import Mathlib.Data.List.GetD
import Mathlib.Data.List.TakeWhile

/- The shell takes a command line apart in place: it records where each argument
   starts and puts a NUL over the whitespace behind it. Double quotes are meant to
   keep whitespace inside an argument. A quote is overwritten with a NUL as well, so
   an argument read as a C string ends at its first quote.

   Correspondence (C ↔ Lean):
     `SHELL_MAX_ARGS`                          ↔ `shellMaxArgs`
     `p`, `in_quotes`, `shell_argv`            ↔ `Parser`
     `while (*p && isspace(*p)) p++`           ↔ `skipSpaces`
     the loop to the end of an argument        ↔ `findEnd`
     `shell_parse_line`                        ↔ `parseArgs`, `shellParseLine`
   `shell_argc` is the length of `Parser.argv`. The loops take a bound on their turns,
   `none` standing for a line without an end. -/
namespace JarJar.Shell
open Libc Words

def shellMaxArgs : Nat := 64

def quote : U8 := ch '"'

structure Parser where
  mem : Memory
  p : Nat
  inQuotes : Bool
  argv : List Nat

namespace Parser

/-- `*p`. -/
def deref (s : Parser) : U8 × Parser :=
  let (c, mem) := s.mem.load s.p
  (c, { s with mem := mem })

/-- `*p = '\0'`. -/
def cut (s : Parser) : Parser := { s with mem := s.mem.store s.p 0 }

/-- `p++`. -/
def next (s : Parser) : Parser := { s with p := s.p + 1 }

@[simp] theorem deref_p (s : Parser) : s.deref.2.p = s.p := rfl
@[simp] theorem deref_inQuotes (s : Parser) : s.deref.2.inQuotes = s.inQuotes := rfl
@[simp] theorem deref_argv (s : Parser) : s.deref.2.argv = s.argv := rfl

end Parser

def skipSpaces : Nat → Parser → Option Parser
  | 0, _ => none
  | fuel + 1, s =>
    let (c, s) := s.deref
    if c ≠ 0 ∧ isspace c then skipSpaces fuel s.next else some s

def findEnd : Nat → Parser → Option Parser
  | 0, _ => none
  | fuel + 1, s =>
    let (c, s) := s.deref
    if c = 0 then some s
    else if c = quote then findEnd fuel { s with inQuotes := !s.inQuotes }.cut.next
    else if !s.inQuotes && isspace c then some s.cut.next
    else findEnd fuel s.next

def parseArgs : Nat → Parser → Option Parser
  | 0, _ => none
  | fuel + 1, s =>
    let (c, s) := s.deref
    if c ≠ 0 ∧ s.argv.length < shellMaxArgs then do
      let s ← findEnd fuel { s with argv := s.argv ++ [s.p] }
      let s ← skipSpaces fuel s
      parseArgs fuel s
    else some s

def shellParseLine (fuel : Nat) (mem : Memory) (line : Nat) : Option Parser := do
  let s ← skipSpaces fuel ⟨mem, line, false, []⟩
  parseArgs fuel s

/-! ## The arguments of a line -/

/-- Every byte of the text with whether it stands inside quotes. -/
def marks (inQuotes : Bool) : List U8 → List (U8 × Bool)
  | [] => []
  | b :: rest => (b, inQuotes) :: marks (if b = quote then !inQuotes else inQuotes) rest

/-- Whitespace outside of quotes. -/
def separates (b : U8 × Bool) : Bool := !b.2 && isspace b.1

/-- The arguments of a line as the quotes are meant to group it, quotes included. -/
def arguments (line : List U8) : List (List U8) :=
  (words separates (marks false line)).map fun arg => arg.map Prod.fst

/-- The text of an argument. -/
def unquoted (arg : List U8) : List U8 := arg.filter fun b => b ≠ quote

/-- The argument at the front of a text, and what is behind it. -/
def cutArg (inQuotes : Bool) : List U8 → List U8 × List U8
  | [] => ([], [])
  | b :: rest =>
    if b = quote then
      (b :: (cutArg (!inQuotes) rest).1, (cutArg (!inQuotes) rest).2)
    else if !inQuotes && isspace b then ([], rest)
    else (b :: (cutArg inQuotes rest).1, (cutArg inQuotes rest).2)

@[simp] theorem isspace_quote : isspace quote = false := by decide

theorem quote_ne_nul : quote ≠ 0 := by decide

section
variable {q : Bool} {b : U8} {rest : List U8}

@[simp] theorem cutArg_nil : cutArg q [] = ([], []) := rfl

@[simp] theorem cutArg_quote :
    cutArg q (quote :: rest) = (quote :: (cutArg (!q) rest).1, (cutArg (!q) rest).2) := by
  rw [cutArg, if_pos rfl]

theorem cutArg_space (hb : isspace b = true) : cutArg false (b :: rest) = ([], rest) := by
  have hne : b ≠ quote := by
    rintro rfl
    simp at hb
  simp [cutArg, hne, hb]

theorem cutArg_byte (hne : b ≠ quote) (hb : (!q && isspace b) = false) :
    cutArg q (b :: rest) = (b :: (cutArg q rest).1, (cutArg q rest).2) := by
  rw [cutArg, if_neg hne, if_neg (by simp [hb])]

theorem cutArg_length (q : Bool) (text : List U8) :
    (cutArg q text).1.length + (cutArg q text).2.length ≤ text.length := by
  induction q, text using cutArg.induct with
  | case1 q => exact Nat.le_refl 0
  | case2 q rest ih =>
    simp only [cutArg_quote, List.length_cons]
    omega
  | case3 q b rest hne hspace =>
    rw [cutArg, if_neg hne, if_pos hspace]
    simp
  | case4 q b rest hne hbyte ih =>
    rw [cutArg_byte hne (by simpa using hbyte)]
    simp only [List.length_cons]
    omega

theorem cutArg_prefix (q : Bool) (text : List U8) : (cutArg q text).1 <+: text := by
  induction q, text using cutArg.induct with
  | case1 q => exact List.nil_prefix
  | case2 q rest ih =>
    rw [cutArg_quote]
    exact (List.prefix_cons_inj quote).mpr ih
  | case3 q b rest hne hspace =>
    rw [cutArg, if_neg hne, if_pos hspace]
    exact List.nil_prefix
  | case4 q b rest hne hbyte ih =>
    rw [cutArg_byte hne (by simpa using hbyte)]
    exact (List.prefix_cons_inj b).mpr ih

theorem marks_quote : marks q (quote :: rest) = (quote, q) :: marks (!q) rest := by
  rw [marks, if_pos rfl]

theorem marks_byte (hne : b ≠ quote) : marks q (b :: rest) = (b, q) :: marks q rest := by
  rw [marks, if_neg hne]

theorem map_marks (q : Bool) (text : List U8) : (marks q text).map Prod.fst = text := by
  induction text generalizing q with
  | nil => rfl
  | cons b text ih => rw [marks, List.map_cons, ih]

theorem cutArg_marks (q : Bool) (text : List U8) :
    (∀ x ∈ marks q (cutArg q text).1, separates x = false) ∧
      ((cutArg q text).2 = [] ∧ (cutArg q text).1 = text ∨
        ∃ b, separates (b, false) = true ∧
          marks q text = marks q (cutArg q text).1 ++ (b, false) :: marks false (cutArg q text).2) := by
  induction q, text using cutArg.induct with
  | case1 q => exact ⟨fun x hx => absurd hx List.not_mem_nil, Or.inl ⟨rfl, rfl⟩⟩
  | case2 q rest ih =>
    obtain ⟨hword, hbehind⟩ := ih
    simp only [cutArg_quote, marks_quote]
    refine ⟨fun x hx => ?_, ?_⟩
    · cases List.mem_cons.mp hx with
      | inl heq => simp [heq, separates]
      | inr hx => exact hword x hx
    · obtain ⟨hend, hall⟩ | ⟨b, hb, heq⟩ := hbehind
      · exact Or.inl ⟨hend, by rw [hall]⟩
      · exact Or.inr ⟨b, hb, by rw [heq]; rfl⟩
  | case3 q b rest hne hspace =>
    obtain ⟨hq, hb⟩ : q = false ∧ isspace b = true := by simpa using hspace
    subst hq
    rw [cutArg_space hb]
    exact ⟨fun x hx => absurd hx List.not_mem_nil, Or.inr ⟨b, hspace, by rw [marks_byte hne]; rfl⟩⟩
  | case4 q b rest hne hbyte ih =>
    obtain ⟨hword, hbehind⟩ := ih
    have hbyte' : separates (b, q) = false := by simpa [separates] using hbyte
    rw [cutArg_byte hne hbyte']
    simp only [marks_byte hne]
    refine ⟨fun x hx => ?_, ?_⟩
    · cases List.mem_cons.mp hx with
      | inl heq => rw [heq, hbyte']
      | inr hx => exact hword x hx
    · obtain ⟨hend, hall⟩ | ⟨c, hc, heq⟩ := hbehind
      · exact Or.inl ⟨hend, by rw [hall]⟩
      · exact Or.inr ⟨c, hc, by rw [heq]; rfl⟩

@[simp] theorem arguments_nil : arguments [] = [] := rfl

theorem arguments_dropWhile (line : List U8) : arguments (line.dropWhile isspace) = arguments line := by
  induction line with
  | nil => rfl
  | cons b line ih =>
    rw [List.dropWhile_cons]
    split
    · next hb =>
      have hne : b ≠ quote := by
        rintro rfl
        simp at hb
      rw [ih, arguments, arguments, marks_byte hne, words_separator (by simpa [separates] using hb)]
    · rfl

theorem cutArg_fst_ne_nil (q : Bool) (rest : List U8) (hb : isspace b = false) : (cutArg q (b :: rest)).1 ≠ [] := by
  by_cases hq : b = quote
  · subst hq
    simp
  · rw [cutArg_byte hq (by simp [hb])]
    simp

theorem arguments_cutArg (hb : isspace b = false) :
    arguments (b :: rest) =
      (cutArg false (b :: rest)).1 :: arguments (cutArg false (b :: rest)).2 := by
  have hne : marks false (cutArg false (b :: rest)).1 ≠ [] := by
    intro hnil
    have hempty := map_marks false (cutArg false (b :: rest)).1
    rw [hnil, List.map_nil] at hempty
    exact cutArg_fst_ne_nil false rest hb hempty.symm
  obtain ⟨hword, hbehind⟩ := cutArg_marks false (b :: rest)
  obtain ⟨hend, hall⟩ | ⟨c, hc, heq⟩ := hbehind
  · rw [hall] at hne hword
    rw [hend, hall, arguments_nil, arguments, words_single hne hword, List.map_singleton, map_marks]
  · rw [arguments, heq, words_append _ _ hc, words_single hne hword, List.map_append, List.map_cons,
      map_marks]
    rfl

end

/-! ## Going through the line -/

/-- The parser got from `text` in front of it to `text'`, the rest of it: it overwrote
whitespace and quotes only, and nothing of what is still in front of it. -/
structure Advances (s s' : Parser) (text text' : List U8) : Prop where
  string : s'.mem.HasString s'.p text'
  pos : s'.p + text'.length = s.p + text.length
  forward : s.p ≤ s'.p
  touches : Touches s.p (text.length + 1) s.mem s'.mem
  ahead : ∀ x, s'.p ≤ x → s'.mem.bytes x = s.mem.bytes x
  kept : ∀ x, isspace (s.mem.bytes x) = false → s.mem.bytes x ≠ quote →
    s'.mem.bytes x = s.mem.bytes x

namespace Advances
variable {s s₁ s₂ : Parser} {text text₁ text₂ rest : List U8} {b : U8}

theorem trans (h₁ : Advances s s₁ text text₁) (h₂ : Advances s₁ s₂ text₁ text₂) :
    Advances s s₂ text text₂ where
  string := h₂.string
  pos := h₂.pos.trans h₁.pos
  forward := Nat.le_trans h₁.forward h₂.forward
  touches := by
    have hpos := h₁.pos
    exact h₁.touches.trans (h₂.touches.widen h₁.forward (by omega))
  ahead x hx := (h₂.ahead x hx).trans (h₁.ahead x (Nat.le_trans h₂.forward hx))
  kept x hspace hquote := by
    have hsame := h₁.kept x hspace hquote
    rw [← hsame] at hspace hquote
    exact (h₂.kept x hspace hquote).trans hsame

theorem same (h : s.mem.HasString s.p text) (inQuotes : Bool) (argv : List Nat) :
    Advances s { s with inQuotes := inQuotes, argv := argv } text text where
  string := h
  pos := rfl
  forward := Nat.le_refl _
  touches := Touches.refl
  ahead _ _ := rfl
  kept _ _ _ := rfl

theorem deref (h : s.mem.HasString s.p text) : Advances s s.deref.2 text text where
  string := h.frame fun _ _ _ => rfl
  pos := rfl
  forward := Nat.le_refl _
  touches := Touches.load (by omega)
  ahead _ _ := rfl
  kept _ _ _ := rfl

theorem next (h : s.mem.HasString s.p (b :: rest)) : Advances s s.next (b :: rest) rest where
  string := h.2.2
  pos := Nat.add_right_comm s.p 1 rest.length
  forward := Nat.le_succ _
  touches := Touches.refl
  ahead _ _ := rfl
  kept _ _ _ := rfl

theorem cut (h : s.mem.HasString s.p (b :: rest)) (hb : isspace b = true ∨ b = quote) :
    Advances s s.cut.next (b :: rest) rest where
  string := h.2.2.frame fun x hx _ => if_neg (by omega)
  pos := Nat.add_right_comm s.p 1 rest.length
  forward := Nat.le_succ _
  touches := Touches.store (by omega) 0
  ahead x hx := if_neg (Nat.ne_of_gt hx)
  kept x hspace hquote := by
    refine if_neg fun hx => ?_
    rw [hx, h.1] at hspace hquote
    cases hb with
    | inl hb => rw [hb] at hspace; contradiction
    | inr hb => exact hquote hb

end Advances

theorem headD_dropWhile (text : List U8) : isspace ((text.dropWhile isspace).headD 0) = false := by
  induction text with
  | nil => exact isspace_nul
  | cons b text ih =>
    rw [List.dropWhile_cons]
    split
    · exact ih
    · next hb => exact Bool.eq_false_iff.mpr hb

section
variable {s : Parser} {text : List U8} {fuel : Nat}

theorem deref_fst (h : s.mem.HasString s.p text) : s.deref.1 = text.getD 0 0 := h.getD (Nat.zero_le _)

theorem skipSpaces_spec (h : s.mem.HasString s.p text) (hfuel : text.length < fuel) :
    ∃ s', skipSpaces fuel s = some s' ∧ Advances s s' text (text.dropWhile isspace) ∧
      s'.inQuotes = s.inQuotes ∧ s'.argv = s.argv ∧ s'.mem.bytes = s.mem.bytes := by
  induction text generalizing s fuel with
  | nil =>
    cases fuel with
    | zero => contradiction
    | succ fuel =>
      refine ⟨s.deref.2, ?_, Advances.deref h, rfl, rfl, rfl⟩
      rw [skipSpaces]
      simp [deref_fst h]
  | cons b rest ih =>
    cases fuel with
    | zero => contradiction
    | succ fuel =>
      have hread := Advances.deref h
      rw [skipSpaces]
      simp only [deref_fst h, List.getD_cons_zero]
      by_cases hb : isspace b = true
      · have hnext := Advances.next hread.string
        obtain ⟨s', hrun, hadv, hquotes, hargv, hbytes⟩ :=
          ih hnext.string (Nat.lt_of_succ_lt_succ hfuel)
        rw [if_pos ⟨h.2.1, hb⟩, hrun, List.dropWhile_cons_of_pos hb]
        exact ⟨s', rfl, hread.trans (hnext.trans hadv), hquotes, hargv, hbytes⟩
      · rw [if_neg (fun h => hb h.2), List.dropWhile_cons_of_neg hb]
        exact ⟨_, rfl, hread, rfl, rfl, rfl⟩

/-- The loop stops behind the argument at the front. Read as a string, the argument ends
at its first quote. -/
theorem findEnd_spec (h : s.mem.HasString s.p text) (hfuel : text.length < fuel) :
    ∃ s', findEnd fuel s = some s' ∧ Advances s s' text (cutArg s.inQuotes text).2 ∧
      s'.argv = s.argv ∧ (s'.inQuotes = false ∨ (cutArg s.inQuotes text).2 = []) ∧
      s'.mem.HasString s.p ((cutArg s.inQuotes text).1.takeWhile fun b => b ≠ quote) := by
  induction text generalizing s fuel with
  | nil =>
    cases fuel with
    | zero => contradiction
    | succ fuel =>
      refine ⟨s.deref.2, ?_, Advances.deref h, rfl, Or.inr rfl, h⟩
      rw [findEnd]
      simp [deref_fst h]
  | cons b rest ih =>
    cases fuel with
    | zero => contradiction
    | succ fuel =>
      have hread := Advances.deref h
      have hfuel' : rest.length < fuel := Nat.lt_of_succ_lt_succ hfuel
      rw [findEnd]
      simp only [deref_fst h, List.getD_cons_zero, Parser.deref_inQuotes]
      rw [if_neg h.2.1]
      by_cases hquote : b = quote
      · subst hquote
        have htoggle := Advances.same hread.string (!s.inQuotes) s.argv
        have hcut := htoggle.trans (Advances.cut htoggle.string (Or.inr rfl))
        obtain ⟨s', hrun, hadv, hargv, hquotes, -⟩ := ih hcut.string hfuel'
        rw [if_pos rfl, cutArg_quote]
        refine ⟨s', hrun, hread.trans (hcut.trans hadv), hargv, hquotes, ?_⟩
        rw [List.takeWhile_cons_of_neg (by simp)]
        exact (hadv.touches.outside s.p (Or.inl (Nat.lt_succ_self _))).trans (if_pos rfl)
      · rw [if_neg hquote]
        by_cases hend : (!s.inQuotes && isspace b) = true
        · obtain ⟨hq, hb⟩ : s.inQuotes = false ∧ isspace b = true := by simpa using hend
          have hcut := Advances.cut hread.string (Or.inl hb)
          rw [if_pos hend, hq, cutArg_space hb]
          exact ⟨_, rfl, hread.trans hcut, rfl, Or.inl hq, if_pos rfl⟩
        · have hnext := Advances.next hread.string
          obtain ⟨s', hrun, hadv, hargv, hquotes, hstring⟩ := ih hnext.string hfuel'
          rw [if_neg hend, cutArg_byte hquote (by simpa using hend)]
          refine ⟨s', hrun, hread.trans (hnext.trans hadv), hargv, hquotes, ?_⟩
          rw [List.takeWhile_cons_of_pos (by simpa using hquote)]
          refine ⟨?_, h.2.1, hstring⟩
          exact (hadv.touches.outside s.p (Or.inl (Nat.lt_succ_self _))).trans h.1

/-- What an entry of `argv` is worth: where its argument stood in the line, and what
is left there. The line runs from `start` to the NUL at `stop`. -/
structure Recorded (before after : Memory) (start stop ptr : Nat) (arg : List U8) : Prop where
  start_le : start ≤ ptr
  le_stop : ptr + arg.length ≤ stop
  spells : ∀ j, j < arg.length → before.bytes (ptr + j) = arg.getD j 0
  string : after.HasString ptr (arg.takeWhile fun b => b ≠ quote)

/-- The string of an argument survives when the parser goes on from behind it. -/
theorem Advances.keeps_string {s s' : Parser} {text text' : List U8} (hadv : Advances s s' text text')
    {ptr : Nat} {arg : List U8} (hptr : ptr + arg.length ≤ s.p) (h : s.mem.HasString ptr arg) :
    s'.mem.HasString ptr arg := by
  refine h.frame fun x hx hx' => ?_
  by_cases hlt : x < s.p
  · exact hadv.touches.outside x (Or.inl hlt)
  · -- only the NUL of the string can be in reach, and it is neither whitespace nor a quote
    have hnul : s.mem.bytes (ptr + arg.length) = 0 := by simpa using h.getD (Nat.le_refl arg.length)
    obtain rfl : x = ptr + arg.length := by omega
    exact hadv.kept _ (hnul ▸ isspace_nul) (hnul ▸ quote_ne_nul.symm)

theorem Recorded.earlier {s s' : Parser} {text text' : List U8} (hadv : Advances s s' text text')
    {after : Memory} {ptr : Nat} {arg : List U8}
    (h : Recorded s'.mem after s'.p (s'.p + text'.length) ptr arg) :
    Recorded s.mem after s.p (s.p + text.length) ptr arg where
  start_le := Nat.le_trans hadv.forward h.start_le
  le_stop := hadv.pos ▸ h.le_stop
  spells j hj := by
    rw [← h.spells j hj]
    exact (hadv.ahead _ (Nat.le_trans h.start_le (Nat.le_add_right ptr j))).symm
  string := h.string

/-- One turn of the loop: it stops at the next argument, and the one it records survives
wherever the parser goes on to. -/
theorem recordArg_spec {b : U8} {rest : List U8} (h : s.mem.HasString s.p (b :: rest))
    (hb : isspace b = false) (hq : s.inQuotes = false) (hfuel : (b :: rest).length < fuel) :
    ∃ s₁ s₂ next, findEnd fuel { s with argv := s.argv ++ [s.p] } = some s₁ ∧
      skipSpaces fuel s₁ = some s₂ ∧ Advances s s₂ (b :: rest) next ∧
      isspace (next.headD 0) = false ∧ (s₂.inQuotes = false ∨ next = []) ∧
      s₂.argv = s.argv ++ [s.p] ∧ next.length < (b :: rest).length ∧
      ∃ arg, arguments (b :: rest) = arg :: arguments next ∧
        ∀ out text', Advances s₂ out next text' →
          Recorded s.mem out.mem s.p (s.p + (b :: rest).length) s.p arg := by
  have hrecord := Advances.same h false (s.argv ++ [s.p])
  have hlen := cutArg_length false (b :: rest)
  obtain ⟨s₁, hrun₁, hadv₁, hargv₁, hquotes₁, hstring₁⟩ := findEnd_spec hrecord.string hfuel
  dsimp only at hadv₁ hargv₁ hquotes₁ hstring₁
  have hne := List.length_pos_of_ne_nil (cutArg_fst_ne_nil false rest hb)
  have hprefix := cutArg_prefix false (b :: rest)
  rw [arguments_cutArg hb]
  generalize cutArg false (b :: rest) = c at hadv₁ hquotes₁ hstring₁ hlen hne hprefix ⊢
  obtain ⟨s₂, hrun₂, hadv₂, hquotes₂, hargv₂, hbytes₂⟩ :=
    skipSpaces_spec hadv₁.string (show c.2.length < fuel by omega)
  have hlen₂ : (c.2.dropWhile isspace).length ≤ c.2.length := (List.dropWhile_sublist _).length_le
  have hbehind := hrecord.trans (hadv₁.trans hadv₂)
  refine ⟨s₁, s₂, c.2.dropWhile isspace, hq.symm ▸ hrun₁, hrun₂, hbehind,
    headD_dropWhile c.2, ?_, by rw [hargv₂, hargv₁], by omega, c.1,
    by rw [arguments_dropWhile], fun out text' hadv => ?_⟩
  · rw [hquotes₂]
    refine hquotes₁.imp id fun hnil => ?_
    rw [hnil, List.dropWhile_nil]
  · refine ⟨Nat.le_refl _, by omega, fun j hj => ?_, ?_⟩
    · obtain ⟨behind, htext⟩ := hprefix
      rw [h.getD (by omega), ← htext, List.getD_append _ _ _ _ hj]
    · have hpos := hbehind.pos
      have hlen₁ : (c.1.takeWhile fun b => b ≠ quote).length ≤ c.1.length :=
        (List.takeWhile_sublist _).length_le
      exact hadv.keeps_string (by omega) (hstring₁.frame fun x _ _ => by rw [hbytes₂])

/-- The loop records the arguments of the text in front of it, as many as there is room for. -/
theorem parseArgs_spec (h : s.mem.HasString s.p text) (hfront : isspace (text.headD 0) = false)
    (hquotes : s.inQuotes = false ∨ text = []) (hfuel : text.length + 2 ≤ fuel) :
    ∃ s' text' ptrs, parseArgs fuel s = some s' ∧ Advances s s' text text' ∧
      s'.argv = s.argv ++ ptrs ∧
      List.Forall₂ (Recorded s.mem s'.mem s.p (s.p + text.length)) ptrs
        ((arguments text).take (shellMaxArgs - s.argv.length)) := by
  induction fuel generalizing s text with
  | zero => omega
  | succ fuel ih =>
    have hread := Advances.deref h
    rw [parseArgs]
    simp only [deref_fst h]
    cases text with
    | nil =>
      refine ⟨s.deref.2, [], [], by simp, hread, by simp, ?_⟩
      simp
    | cons b rest =>
      rw [List.getD_cons_zero]
      by_cases hroom : s.argv.length < shellMaxArgs
      · have hq : s.inQuotes = false := by simpa using hquotes
        obtain ⟨s₁, s₂, next, hrun₁, hrun₂, hadv₂, hfront₂, hquotes₂, hargv₂, hless, arg, hargs,
          hrecord⟩ := recordArg_spec hread.string hfront hq (show (b :: rest).length < fuel by omega)
        obtain ⟨s₃, text₃, ptrs, hrun₃, hadv₃, hargv₃, hrecorded⟩ :=
          ih hadv₂.string hfront₂ hquotes₂ (by omega)
        have hbehind := hread.trans hadv₂
        simp only [Parser.deref_argv, Parser.deref_p, Parser.deref_inQuotes] at hrun₁ hargv₂
        refine ⟨s₃, text₃, s.p :: ptrs, ?_, hbehind.trans hadv₃, ?_, ?_⟩
        · rw [if_pos ⟨h.2.1, hroom⟩]
          simp [hrun₁, hrun₂, hrun₃]
        · rw [hargv₃, hargv₂]
          simp
        · have hroom' : shellMaxArgs - s.argv.length = shellMaxArgs - s₂.argv.length + 1 := by
            rw [hargv₂, List.length_append, List.length_singleton]
            omega
          rw [hargs, hroom', List.take_succ_cons]
          exact List.Forall₂.cons ((hrecord s₃ text₃ hadv₃).earlier hread)
            (hrecorded.imp fun ptr arg harg => harg.earlier hbehind)
      · rw [if_neg (fun h => hroom h.2)]
        refine ⟨s.deref.2, b :: rest, [], rfl, hread, by simp, ?_⟩
        rw [Nat.sub_eq_zero_of_le (Nat.le_of_not_lt hroom), List.take_zero]
        exact List.Forall₂.nil

theorem shellParseLine_spec {mem : Memory} {line : Nat} (h : mem.HasString line text) :
    ∃ out text', shellParseLine (text.length + 2) mem line = some out ∧
      Advances ⟨mem, line, false, []⟩ out text text' ∧
      List.Forall₂ (Recorded mem out.mem line (line + text.length)) out.argv
        ((arguments text).take shellMaxArgs) := by
  obtain ⟨s₁, hrun₁, hadv₁, hquotes₁, hargv₁, -⟩ :=
    skipSpaces_spec (s := ⟨mem, line, false, []⟩) h (show text.length < text.length + 2 by omega)
  have hlen₁ : (text.dropWhile isspace).length ≤ text.length := (List.dropWhile_sublist _).length_le
  obtain ⟨out, text', ptrs, hrun, hadv, hargv, hrecorded⟩ :=
    parseArgs_spec hadv₁.string (headD_dropWhile text) (Or.inl hquotes₁)
      (show (text.dropWhile isspace).length + 2 ≤ text.length + 2 by omega)
  rw [hargv₁, List.nil_append] at hargv
  rw [hargv₁, arguments_dropWhile] at hrecorded
  refine ⟨out, text', ?_, hadv₁.trans hadv, ?_⟩
  · simp [shellParseLine, hrun₁, hrun]
  · rw [hargv]
    exact hrecorded.imp fun ptr arg harg => harg.earlier hadv₁

end

/-! ## Quotes -/

/-- The bytes in front of the first quote are all of an argument's text only if nothing but
quotes follows. -/
theorem takeWhile_eq_unquoted (arg : List U8) :
    (arg.takeWhile fun b => b ≠ quote) = unquoted arg ↔
      ∀ b ∈ arg.dropWhile fun b => b ≠ quote, b = quote := by
  have hfront : (arg.takeWhile fun b => b ≠ quote).filter (fun b => b ≠ quote) =
      arg.takeWhile fun b => b ≠ quote :=
    List.filter_eq_self.mpr fun b hb => List.mem_takeWhile_imp (p := fun b => b ≠ quote) hb
  have hsplit : unquoted arg = (arg.takeWhile fun b => b ≠ quote) ++
      (arg.dropWhile fun b => b ≠ quote).filter fun b => b ≠ quote := by
    rw [← hfront, ← List.filter_append, List.takeWhile_append_dropWhile, unquoted]
  rw [hsplit, List.self_eq_append_right, List.filter_eq_nil_iff]
  simp

/-- Quotes group the bytes of a line into arguments as they should, and every entry of
`argv` points to its argument. It reads as the argument's text exactly if no argument goes
on behind its first quote. -/
theorem parse_line_quotes_iff (mem : Memory) (line : Nat) (text : List U8)
    (h : mem.HasString line text) (hmax : (arguments text).length ≤ shellMaxArgs) :
    ∃ out, shellParseLine (text.length + 2) mem line = some out ∧
      List.Forall₂ (fun ptr arg => line ≤ ptr ∧ ptr + arg.length ≤ line + text.length ∧
        ∀ j, j < arg.length → mem.bytes (ptr + j) = arg.getD j 0) out.argv (arguments text) ∧
      (List.Forall₂ out.mem.HasString out.argv ((arguments text).map unquoted) ↔
        ∀ arg ∈ arguments text, ∀ b ∈ arg.dropWhile (fun b => b ≠ quote), b = quote) := by
  obtain ⟨out, text', hrun, -, hrecorded⟩ := shellParseLine_spec h
  rw [List.take_of_length_le hmax] at hrecorded
  refine ⟨out, hrun, hrecorded.imp fun ptr arg harg =>
    ⟨harg.start_le, harg.le_stop, harg.spells⟩, ?_⟩
  rw [List.forall₂_map_right_iff]
  generalize out.argv = argv, arguments text = args at hrecorded
  induction hrecorded with
  | nil => simp
  | @cons ptr arg argv args harg _ ih =>
    rw [List.forall₂_cons, ih, List.forall_mem_cons, ← takeWhile_eq_unquoted]
    refine and_congr_left fun _ => ⟨fun hstring => harg.string.unique hstring, fun htext => ?_⟩
    rw [← htext]
    exact harg.string

/-- A line whose quotes are fine: `echo "" one`. -/
theorem parse_line_quotes_iff_echo :
    let text := "echo ".toList.map ch ++ [quote, quote] ++ " one".toList.map ch
    let mem : Memory := ⟨fun x => text.getD x 0, []⟩
    ∃ out, shellParseLine (text.length + 2) mem 0 = some out ∧
      List.Forall₂ out.mem.HasString out.argv
        ["echo".toList.map ch, [], "one".toList.map ch] := by
  intro text mem
  obtain ⟨out, hrun, -, hiff⟩ := parse_line_quotes_iff mem 0 text (by decide) (by decide)
  exact ⟨out, hrun, hiff.mpr (by decide)⟩

/-- `say "hello"`: the second argument reads as the empty string. -/
theorem parse_line_empties_quoted :
    let text := "say ".toList.map ch ++ [quote] ++ "hello".toList.map ch ++ [quote]
    let mem : Memory := ⟨fun x => text.getD x 0, []⟩
    mem.HasString 0 text ∧
      (arguments text).map unquoted = ["say".toList.map ch, "hello".toList.map ch] ∧
      (shellParseLine (text.length + 2) mem 0).map (fun out =>
        (out.argv, decide (out.mem.HasString 4 []))) = some ([0, 4], true) ∧
      ¬ ∃ out, shellParseLine (text.length + 2) mem 0 = some out ∧
        List.Forall₂ out.mem.HasString out.argv ((arguments text).map unquoted) := by
  intro text mem
  have hargs : (arguments text).map unquoted = ["say".toList.map ch, "hello".toList.map ch] := by
    decide
  have hempty : (shellParseLine (text.length + 2) mem 0).map (fun out =>
      (out.argv, decide (out.mem.HasString 4 []))) = some ([0, 4], true) := by decide
  refine ⟨by decide, hargs, hempty, fun ⟨out, hrun, hread⟩ => ?_⟩
  rw [hrun, Option.map_some, Option.some.injEq, Prod.mk.injEq, decide_eq_true_eq] at hempty
  rw [hempty.1, hargs] at hread
  obtain ⟨-, hrest⟩ := List.forall₂_cons.mp hread
  obtain ⟨hhello, -⟩ := List.forall₂_cons.mp hrest
  exact absurd (hempty.2.unique hhello) (by decide)

end JarJar.Shell
