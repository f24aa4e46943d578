import JarJar.ShellCommands
import JarJar.ConsoleDecimal

/- Formats and what stands behind them. The compiler does not look at the arguments of
   `console_printf`; here it is looked at once, for each call of the shell, whether every
   directive finds an argument of its kind (`typed`). Such a call shows a text of characters
   and silent bytes, as long as its strings are made of them, and never reads past its format
   or looks for a digit that is not there (`Call.ops_spec`).

   Correspondence (C ↔ Lean):
     `console->color` after a call   ↔ `pen`
   `fits` looks at the format and at the kinds of the arguments only, so that the calls of a
   command can be checked by evaluation whatever its strings are. -/
namespace JarJar.ShellCommands
open Libc Vga Shell

/-- What a directive may ask for; a signed number is known where it is printed. -/
inductive Kind where
  | str
  | int (v : U32)
  | long
  deriving DecidableEq

def Arg.kind : Arg → Kind
  | .str _ => .str
  | .int v => .int v
  | .long _ => .long

def Arg.isStr : Arg → Bool
  | .str _ => true
  | _ => false

/-- Where the scan of a format is: in the text, behind a `%`, or behind a `%l`. -/
inductive Mode where
  | text | percent | long

/-- Every directive of the format is `%s`, `%d`, `%lu`, `%%` or unknown, and finds an argument
of its kind. -/
def typed : Mode → List U8 → List Kind → Bool
  | .long, [], _ => false
  | _, [], _ => true
  | .text, c :: rest, kinds => typed (if c = ch '%' then .percent else .text) rest kinds
  | .percent, d :: rest, kinds =>
    if d = ch 's' then
      match kinds with
      | .str :: kinds => typed .text rest kinds
      | _ => false
    else if d = ch 'd' then
      match kinds with
      | .int v :: kinds => v ≠ BitVec.intMin 32 && typed .text rest kinds
      | _ => false
    else if d = ch 'l' then typed .long rest kinds
    else (d = ch '%' || d ∉ directiveBytes) && typed .text rest kinds
  | .long, d :: rest, kinds =>
    match kinds with
    | .long :: kinds => d = ch 'u' && typed .text rest kinds
    | _ => false

/-- A character of a text, or a byte that leaves no trace. -/
def Plain (b : U8) : Prop := IsText b ∨ Silent b

instance : DecidablePred Plain := fun b =>
  inferInstanceAs (Decidable ((b = ch '\n' ∨ 0x20 ≤ b.toNat ∧ b.toNat ≤ 0x7E) ∨ Silent b))

/-- The format and the kinds of the arguments. A call that sets a colour has none. -/
def Call.shape : Call → String × List Kind
  | .printf format args => (format, args.map Arg.kind)
  | _ => ("", [])

def Call.args : Call → List Arg
  | .printf _ args => args
  | _ => []

/-- The format is plain text, and its directives find what they ask for. -/
def fits (shape : String × List Kind) : Bool :=
  typed .text (literal shape.1) shape.2 && (literal shape.1).all (fun b => Plain b) &&
    shape.2.length < 8

/-! ## One format -/

theorem isText_decimal {v : Int} {b : U8} (hb : b ∈ decimal v) : IsText b := by
  have hdigit : ∀ d : Nat, d < 10 → IsText (ch '0' + BitVec.ofNat 8 d) := by
    intro d hd
    right
    revert d
    decide
  have hdigits : ∀ n : Nat, ∀ b ∈ decimalDigits n, IsText b := by
    intro n b hb
    rw [decimalDigits] at hb
    split at hb
    · obtain rfl := List.mem_singleton.mp hb
      exact hdigit 0 (by decide)
    · obtain ⟨d, hd, rfl⟩ := List.mem_map.mp (List.mem_reverse.mp hb)
      exact hdigit d (Nat.digits_lt_base (by decide) hd)
  rw [decimal] at hb
  obtain hb | hb := List.mem_append.mp hb
  · split at hb
    · obtain rfl := List.mem_singleton.mp hb
      right
      decide
    · exact absurd hb List.not_mem_nil
  · exact hdigits _ b hb

section
variable {P : U8 → Prop} {args : List Arg} {format : List U8} {arg : Nat}

/-- The format can be shown from argument `arg` on, in bytes of `P`. -/
def Renders (P : U8 → Prop) (args : List Arg) (format : List U8) (arg : Nat) : Prop :=
  ∃ text, formatText (varargs args) format arg = .ok text ∧ ∀ b ∈ text, P b

theorem Renders.byte {c : U8} (hc : c ≠ ch '%') (hP : P c) (h : Renders P args format arg) :
    Renders P args (c :: format) arg := by
  obtain ⟨text, hrun, htext⟩ := h
  refine ⟨c :: text, ?_, List.forall_mem_cons.mpr ⟨hP, htext⟩⟩
  rw [formatText_cons hc, hrun]
  rfl

theorem Renders.directive {d : U8} (hd : d ≠ ch 'l') {next : Nat} {shown : List U8}
    (hshown : consoleDirective (varargs args) d arg = (next, .ok shown)) (hP : ∀ b ∈ shown, P b)
    (h : Renders P args format next) : Renders P args (ch '%' :: d :: format) arg := by
  obtain ⟨text, hrun, htext⟩ := h
  refine ⟨shown ++ text, ?_, List.forall_mem_append.mpr ⟨hP, htext⟩⟩
  rw [formatText_directive _ _ hd, hshown]
  dsimp only
  rw [hrun]
  rfl

theorem varargs_slot {a : Arg} (harg : args[arg]? = some a) :
    (varargs args).slot arg = a.slot arg := by simp [varargs, harg]

theorem varargs_string {a : Arg} {p : U64} (harg : args[p.toNat - 1]? = some a) :
    (varargs args).string p = a.string := by simp [varargs, harg]

theorem consoleDirective_str {s : CStr} (hshort : args.length < 8)
    (harg : args[arg]? = some (.str s)) :
    consoleDirective (varargs args) (ch 's') arg = (arg + 1, .ok s.bytes) := by
  have hlt : arg < args.length := (List.getElem?_eq_some_iff.mp harg).1
  have hslot : (varargs args).slot arg = BitVec.ofNat 64 (arg + 1) := varargs_slot harg
  have hnat : (BitVec.ofNat 64 (arg + 1)).toNat = arg + 1 := by
    rw [BitVec.toNat_ofNat]
    omega
  have hne : BitVec.ofNat 64 (arg + 1) ≠ 0 := by
    intro hzero
    rw [hzero] at hnat
    exact absurd hnat (Nat.succ_ne_zero arg).symm
  have hstring : (varargs args).string (BitVec.ofNat 64 (arg + 1)) = s :=
    varargs_string (by rw [hnat, Nat.add_sub_cancel, harg])
  rw [consoleDirective]
  simp only [hslot, hstring, if_neg hne]
  rfl

theorem consoleDirective_int {v : U32} (hv : v ≠ BitVec.intMin 32)
    (harg : args[arg]? = some (.int v)) :
    consoleDirective (varargs args) (ch 'd') arg = (arg + 1, .ok (decimal v.toInt)) := by
  have hslot : (varargs args).slot arg = v.setWidth 64 := varargs_slot harg
  have hval : (v.setWidth 64).setWidth 32 = v := by
    apply BitVec.eq_of_toNat_eq
    have hlt := v.isLt
    rw [BitVec.toNat_setWidth, BitVec.toNat_setWidth]
    omega
  rw [← signedText_eq hv, consoleDirective]
  simp only [hslot, hval]
  rfl

theorem longDirective_long {v : U64} (harg : args[arg]? = some (.long v)) :
    longDirective (varargs args) (ch 'u') arg = (arg + 1, .ok (decimal v.toNat)) := by
  have hslot : (varargs args).slot arg = v := varargs_slot harg
  have hdigits : ultoa v ten = .ok (decimal v.toNat) := lastDigits_decimal (Int.natCast_nonneg _)
  rw [longDirective, hslot, if_pos rfl, hdigits]

theorem Renders.long {v : U64} (h : Renders P args format (arg + 1))
    (harg : args[arg]? = some (.long v)) (hP : ∀ b ∈ decimal v.toNat, P b) :
    Renders P args (ch '%' :: ch 'l' :: ch 'u' :: format) arg := by
  obtain ⟨text, hrun, htext⟩ := h
  refine ⟨decimal v.toNat ++ text, ?_, List.forall_mem_append.mpr ⟨hP, htext⟩⟩
  rw [formatText_long, longDirective_long harg]
  dsimp only
  rw [hrun]
  rfl

theorem typed_str {kinds : List Kind} (h : typed .percent (ch 's' :: format) kinds = true) :
    ∃ rest, kinds = .str :: rest ∧ typed .text format rest = true := by
  rw [typed.eq_def] at h
  dsimp only at h
  rw [if_pos rfl] at h
  split at h
  · exact ⟨_, rfl, h⟩
  · cases h

theorem typed_int {kinds : List Kind} (h : typed .percent (ch 'd' :: format) kinds = true) :
    ∃ v rest, kinds = .int v :: rest ∧ v ≠ BitVec.intMin 32 ∧ typed .text format rest = true := by
  rw [typed.eq_def] at h
  dsimp only at h
  rw [if_neg (by decide), if_pos rfl] at h
  split at h
  · rw [Bool.and_eq_true, decide_eq_true_eq] at h
    exact ⟨_, _, rfl, h⟩
  · cases h

theorem typed_long {kinds : List Kind} (h : typed .percent (ch 'l' :: format) kinds = true) :
    ∃ rest behind, format = ch 'u' :: behind ∧ kinds = .long :: rest ∧
      typed .text behind rest = true := by
  rw [typed.eq_def] at h
  dsimp only at h
  rw [if_neg (by decide), if_neg (by decide), if_pos rfl] at h
  cases format with
  | nil => cases h
  | cons d behind =>
    rw [typed.eq_def] at h
    dsimp only at h
    split at h
    · rw [Bool.and_eq_true, decide_eq_true_eq] at h
      exact ⟨_, behind, by rw [h.1], rfl, h.2⟩
    · cases h

theorem typed_other {d : U8} {kinds : List Kind} (hs : d ≠ ch 's') (hdir : d ≠ ch 'd')
    (hl : d ≠ ch 'l') (h : typed .percent (d :: format) kinds = true) :
    (d = ch '%' ∨ d ∉ directiveBytes) ∧ typed .text format kinds = true := by
  rw [typed.eq_def] at h
  dsimp only at h
  rw [if_neg hs, if_neg hdir, if_neg hl] at h
  simpa using h

theorem map_kind_eq_cons {kind : Kind} {rest : List Kind}
    (h : (args.drop arg).map Arg.kind = kind :: rest) :
    ∃ a, args[arg]? = some a ∧ a.kind = kind ∧ (args.drop (arg + 1)).map Arg.kind = rest := by
  cases hleft : args.drop arg with
  | nil =>
    rw [hleft] at h
    cases h
  | cons a left =>
    rw [hleft, List.map_cons, List.cons.injEq] at h
    refine ⟨a, ?_, h.1, ?_⟩
    · have hfirst := congrArg List.head? hleft
      rwa [List.head?_drop] at hfirst
    · rw [← List.tail_drop, hleft, List.tail_cons]
      exact h.2

theorem typed_renders (hP : ∀ b, IsText b → P b) (hshort : args.length < 8)
    (hstrings : ∀ s, .str s ∈ args → ∀ b ∈ s.bytes, P b) (hformat : ∀ b ∈ format, P b)
    (htyped : typed .text format ((args.drop arg).map Arg.kind) = true) :
    Renders P args format arg := by
  -- a directive takes up to three bytes, and what follows it is shorter
  induction hn : format.length using Nat.strong_induction_on generalizing format arg with
  | _ n ih =>
    cases format with
    | nil => exact ⟨[], rfl, fun _ hb => absurd hb List.not_mem_nil⟩
    | cons c rest =>
      obtain ⟨hc, hrest⟩ := List.forall_mem_cons.mp hformat
      rw [List.length_cons] at hn
      by_cases hpercent : c = ch '%'
      · subst hpercent
        cases rest with
        | nil => exact ⟨[ch '%'], rfl, List.forall_mem_singleton.mpr hc⟩
        | cons d rest =>
          obtain ⟨hd, hbytes⟩ := List.forall_mem_cons.mp hrest
          rw [List.length_cons] at hn
          have hbehind : ∀ arg, typed .text rest ((args.drop arg).map Arg.kind) = true →
              Renders P args rest arg := fun arg h => ih rest.length (by omega) hbytes h rfl
          replace htyped : typed .percent (d :: rest) ((args.drop arg).map Arg.kind) = true := htyped
          by_cases hs : d = ch 's'
          · subst hs
            obtain ⟨kinds, hkinds, htyped⟩ := typed_str htyped
            obtain ⟨a, harg, hkind, rfl⟩ := map_kind_eq_cons hkinds
            cases a with
            | str s =>
              exact (hbehind _ htyped).directive (by decide) (consoleDirective_str hshort harg)
                (hstrings s (List.mem_of_getElem? harg))
            | int | long => cases hkind
          by_cases hdir : d = ch 'd'
          · subst hdir
            obtain ⟨v, kinds, hkinds, hv, htyped⟩ := typed_int htyped
            obtain ⟨a, harg, hkind, rfl⟩ := map_kind_eq_cons hkinds
            cases a with
            | int u =>
              obtain rfl := Kind.int.inj hkind
              exact (hbehind _ htyped).directive (by decide) (consoleDirective_int hv harg)
                fun b hb => hP b (isText_decimal hb)
            | str | long => cases hkind
          by_cases hl : d = ch 'l'
          · subst hl
            obtain ⟨kinds, behind, rfl, hkinds, htyped⟩ := typed_long htyped
            obtain ⟨a, harg, hkind, rfl⟩ := map_kind_eq_cons hkinds
            cases a with
            | long v =>
              rw [List.length_cons] at hn
              exact (ih behind.length (by omega) (List.forall_mem_cons.mp hbytes).2 htyped rfl).long
                harg fun b hb => hP b (isText_decimal hb)
            | str | int => cases hkind
          · obtain ⟨hknown, htyped⟩ := typed_other hs hdir hl htyped
            by_cases hpercent : d = ch '%'
            · subst hpercent
              exact (hbehind arg htyped).directive hl rfl (List.forall_mem_singleton.mpr hc)
            · exact (hbehind arg htyped).directive hl
                (consoleDirective_unknown _ arg (hknown.resolve_left hpercent))
                (List.forall_mem_cons.mpr ⟨hc, List.forall_mem_singleton.mpr hd⟩)
      · replace htyped : typed .text rest ((args.drop arg).map Arg.kind) = true := by
          rw [typed.eq_def] at htyped
          dsimp only at htyped
          rwa [if_neg hpercent] at htyped
        exact (ih rest.length (by omega) hrest htyped rfl).byte hpercent hc

end

/-! ## The calls -/

/-- Light grey on black, as `console_reset_color` leaves it. -/
def grey : U8 := vgaEntryColor .lightGrey .black

/-- The colour of the pen after a call. -/
def pen (color : U8) : Call → U8
  | .printf _ _ | .clear => color
  | .setColor fg bg => vgaEntryColor fg bg
  | .resetColor => grey
  | .aiOutput => vgaEntryColor .lightGreen .black
  | .aiThinking => vgaEntryColor .lightBlue .black

/-- The call clears the screen. -/
def Call.wipes : Call → Bool
  | .clear => true
  | _ => false

/-- All calls can be made, their strings have bytes of `P`, and a grey pen is grey at the end. -/
structure Tidy (P : U8 → Prop) (calls : List Call) : Prop where
  formats : ∀ call ∈ calls, fits call.shape = true
  strings : ∀ call ∈ calls, ∀ s, .str s ∈ call.args → ∀ b ∈ s.bytes, P b
  resets : calls.foldl pen grey = grey

/-- The call prints bytes of `P` or sets a colour. -/
def Spells (P : U8 → Prop) (op : Op) : Prop := ∃ text, op.text = some text ∧ ∀ b ∈ text, P b

theorem run_putchars (text : List U8) (c : Console) :
    Runs.run Console.step c (text.map Op.putchar) = c.putchars text := List.foldl_map

section
variable {P : U8 → Prop} {call : Call} {calls : List Call}

/-- A call that fits is made. It leaves the pen as `pen` says, and prints bytes of `P`. -/
theorem Call.ops_spec (hP : ∀ b, Plain b → P b) (hfits : fits call.shape = true)
    (hstrings : ∀ s, .str s ∈ call.args → ∀ b ∈ s.bytes, P b) :
    ∃ ops, call.ops = .ok ops ∧
      (∀ c : Console, (Runs.run Console.step c ops).color = pen c.color call) ∧
      (call.wipes = false → ∀ op ∈ ops, Spells P op) := by
  cases call with
  | printf format args =>
    simp only [fits, Call.shape, Bool.and_eq_true, List.all_eq_true,
      decide_eq_true_eq, List.length_map] at hfits
    obtain ⟨⟨htyped, hplain⟩, hshort⟩ := hfits
    have hrenders : Renders P args (literal format) 0 :=
      typed_renders (fun b hb => hP b (Or.inl hb)) hshort hstrings
        (fun b hb => hP b (hplain b hb)) htyped
    obtain ⟨text, hrun, htext⟩ := hrenders
    refine ⟨text.map Op.putchar, ?_, fun c => ?_, fun _ op hop => ?_⟩
    · rw [Call.ops, hrun]
    · rw [run_putchars]
      exact (Console.sameLook_putchars text c).color
    · obtain ⟨b, hb, rfl⟩ := List.mem_map.mp hop
      exact ⟨[b], rfl, List.forall_mem_singleton.mpr (htext b hb)⟩
  | clear => exact ⟨[.clear], rfl, fun c => (Console.sameLook_clear c).color, fun h => by cases h⟩
  | setColor | resetColor | aiOutput | aiThinking =>
    refine ⟨_, rfl, fun c => rfl, fun _ op hop => ?_⟩
    obtain rfl := List.mem_singleton.mp hop
    exact ⟨[], rfl, fun b hb => absurd hb List.not_mem_nil⟩

theorem Tidy.nil : Tidy P [] := ⟨by simp, by simp, rfl⟩

theorem Tidy.append {before after : List Call} (h₁ : Tidy P before) (h₂ : Tidy P after) :
    Tidy P (before ++ after) where
  formats := List.forall_mem_append.mpr ⟨h₁.formats, h₂.formats⟩
  strings := List.forall_mem_append.mpr ⟨h₁.strings, h₂.strings⟩
  resets := by rw [List.foldl_append, h₁.resets, h₂.resets]

theorem allOps_run (hP : ∀ b, Plain b → P b) (hfits : ∀ call ∈ calls, fits call.shape = true)
    (hstrings : ∀ call ∈ calls, ∀ s, .str s ∈ call.args → ∀ b ∈ s.bytes, P b) :
    ∃ ops, allOps calls = .ok ops ∧
      (∀ c : Console, (Runs.run Console.step c ops).color = calls.foldl pen c.color) ∧
      ((∀ call ∈ calls, call.wipes = false) → ∀ op ∈ ops, Spells P op) := by
  induction calls with
  | nil => exact ⟨[], rfl, fun c => rfl, fun _ op hop => absurd hop List.not_mem_nil⟩
  | cons call calls ih =>
    obtain ⟨hfit, hfits⟩ := List.forall_mem_cons.mp hfits
    obtain ⟨hstring, hstrings⟩ := List.forall_mem_cons.mp hstrings
    obtain ⟨ops, hrun, hcolor, hspells⟩ := Call.ops_spec hP hfit hstring
    obtain ⟨rest, hrest, hcolors, hspelled⟩ := ih hfits hstrings
    refine ⟨ops ++ rest, ?_, fun c => ?_, fun hclear => ?_⟩
    · rw [allOps, hrun, hrest]
      rfl
    · rw [Runs.run, List.foldl_append]
      exact (hcolors _).trans (by rw [List.foldl_cons, ← hcolor c]; rfl)
    · obtain ⟨hfirst, hothers⟩ := List.forall_mem_cons.mp hclear
      exact List.forall_mem_append.mpr ⟨hspells hfirst, hspelled hothers⟩

theorem Tidy.run (hP : ∀ b, Plain b → P b) (h : Tidy P calls) :
    ∃ ops, allOps calls = .ok ops ∧
      (∀ c : Console, c.color = grey →
        (Runs.run Console.step c ops).color = grey) ∧
      ((∀ call ∈ calls, call.wipes = false) → ∀ op ∈ ops, Spells P op) := by
  obtain ⟨ops, hrun, hcolor, hspells⟩ := allOps_run hP h.formats h.strings
  exact ⟨ops, hrun, fun c hc => by rw [hcolor, hc, h.resets], hspells⟩

/-- Calls without strings that leave the screen and a grey pen. -/
def fixed (calls : List Call) : Bool :=
  calls.all (fun call => fits call.shape && call.args.all (fun arg => !arg.isStr) && !call.wipes) &&
    decide (calls.foldl pen grey = grey)

theorem tidy_fixed (h : fixed calls = true) :
    Tidy P calls ∧ ∀ call ∈ calls, call.wipes = false := by
  simp only [fixed, Bool.and_eq_true, List.all_eq_true, decide_eq_true_eq, Bool.not_eq_true'] at h
  obtain ⟨hcalls, hresets⟩ := h
  refine ⟨⟨fun call hcall => (hcalls call hcall).1.1, fun call hcall s hs => ?_, hresets⟩,
    fun call hcall => (hcalls call hcall).2⟩
  have hnumber := (hcalls call hcall).1.2 _ hs
  cases hnumber

theorem tidy_printf {format : String} {args : List Arg} (kinds : List Kind)
    (hkinds : args.map Arg.kind = kinds) (hfits : fits (format, kinds) = true)
    (hstrings : ∀ s, .str s ∈ args → ∀ b ∈ s.bytes, P b) : Tidy P [.printf format args] where
  formats := List.forall_mem_singleton.mpr (by rw [Call.shape, hkinds]; exact hfits)
  strings := List.forall_mem_singleton.mpr hstrings
  resets := rfl

end

end JarJar.ShellCommands
