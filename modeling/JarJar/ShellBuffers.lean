import JarJar.ShellWords
import JarJar.StringCopies

/- The commands of the shell that put their arguments back together. `jarvis`, `learn` and
   `search` append one argument after the other, each with a blank behind it, to a buffer of
   1024 bytes, and check no length. A line may have 4095 bytes.

   Correspondence (C ↔ Lean):
     `*d = c` for a `d` into a local array         ↔ `Buffer.store`, `Fault.outside` beside it
     `strcat`                                      ↔ `strcat` (`strcatLoop`)
     `for (int i = first; i < argc; i++) …`        ↔ `concatArgs`
     `cmd_jarvis`, `cmd_learn`, `cmd_search`       ↔ `cmdJarvis`, `cmdLearn`, `cmdSearch`
   The arguments are given by their bytes: they are in the line, and the buffer is not. What the
   commands do before and after the loop is left out, but for the check of `argc`. -/
namespace JarJar.Libc

inductive Fault where
  | outside
  | turns
  deriving DecidableEq

/-- A local array. -/
structure Buffer where
  start : Nat
  size : Nat

def Buffer.store (b : Buffer) (d : Nat) (c : U8) (m : Memory) : Except Fault Memory :=
  if b.start ≤ d ∧ d < b.start + b.size then .ok (m.store d c) else .error .outside

/-- `while ((*d++ = *src++))`. -/
def strcatLoop (b : Buffer) : Nat → List U8 → Memory → Except Fault Memory
  | d, [], m => b.store d 0 m
  | d, c :: src, m => do strcatLoop b (d + 1) src (← b.store d c m)

def strcat (fuel : Nat) (b : Buffer) (src : CStr) (m : Memory) : Except Fault Memory :=
  match skipString fuel b.start m with
  | none => .error .turns
  | some (d, m) => strcatLoop b d src.bytes m

section
variable {b : Buffer} {d fuel : Nat} {s : List U8} {m : Memory}

theorem strcatLoop_inside (src : List U8) (m : Memory) (hstart : b.start ≤ d)
    (hend : d + src.length < b.start + b.size) :
    strcatLoop b d src m = .ok (m.storeAll d (src ++ [0])) := by
  induction src generalizing d m with
  | nil => exact if_pos ⟨hstart, hend⟩
  | cons c src ih =>
    rw [List.length_cons] at hend
    have hstore : b.store d c m = .ok (m.store d c) := if_pos ⟨hstart, by omega⟩
    rw [strcatLoop, hstore]
    exact ih (m.store d c) (by omega) (by omega)

theorem strcatLoop_outside (src : List U8) (m : Memory)
    (hend : b.start + b.size ≤ d + src.length) : strcatLoop b d src m = .error .outside := by
  induction src generalizing d m with
  | nil => exact if_neg fun h => Nat.not_lt.mpr hend h.2
  | cons c src ih =>
    rw [List.length_cons] at hend
    rw [strcatLoop, Buffer.store]
    split
    · exact ih (m.store d c) (by omega)
    · rfl

/-- What a call leaves when the string in the buffer becomes `s`. -/
structure Appended (b : Buffer) (s : List U8) (m m' : Memory) : Prop where
  string : m'.HasString b.start s
  touches : Touches b.start b.size m m'

theorem strcat_inside (src : CStr) (hs : m.HasString b.start s) (hfuel : b.size ≤ fuel)
    (hfits : s.length + src.bytes.length < b.size) :
    ∃ m', strcat fuel b src m = .ok m' ∧ Appended b (s ++ src.bytes) m m' := by
  obtain ⟨m', hskip, hbytes, htouch⟩ := skipString_eq hs (show s.length < fuel by omega)
  have hstores := Memory.storeAll_touches m' (b.start + s.length) (src.bytes ++ [0])
  rw [List.length_append, List.length_singleton] at hstores
  refine ⟨m'.storeAll (b.start + s.length) (src.bytes ++ [0]), ?_, ?_, ?_⟩
  · rw [strcat, hskip]
    exact strcatLoop_inside src.bytes m' (by omega) (by omega)
  · apply hs.extend _ (Memory.storeAll_hasString m' _ src.nonzero)
    intro x _ hx
    rw [hstores.outside x (Or.inl hx), hbytes]
  · exact (htouch.widen (by omega) (by omega)).trans (hstores.widen (by omega) (by omega))

theorem strcat_outside (src : CStr) (hs : m.HasString b.start s) (hfuel : b.size ≤ fuel)
    (hlen : s.length < b.size) (hfits : b.size ≤ s.length + src.bytes.length) :
    strcat fuel b src m = .error .outside := by
  obtain ⟨m', hskip, -, -⟩ := skipString_eq hs (show s.length < fuel by omega)
  rw [strcat, hskip]
  exact strcatLoop_outside src.bytes m' (by omega)

end

end JarJar.Libc

namespace JarJar.Shell
open Libc Words

def blank : CStr := ⟨[ch ' '], by decide⟩

/-- `strcat(query, argv[i]); strcat(query, " ")` for one argument after the other. -/
def concatArgs (fuel : Nat) (b : Buffer) : List CStr → Memory → Except Fault Memory
  | [], m => .ok m
  | arg :: args, m => do concatArgs fuel b args (← strcat fuel b blank (← strcat fuel b arg m))

/-- Without `least` arguments nothing happens; otherwise those from `first` on are put together
in a new array. -/
def concatCommand (least first fuel query : Nat) (argv : List CStr) (m : Memory) :
    Except Fault Memory :=
  if argv.length < least then .ok m
  else concatArgs fuel ⟨query, 1024⟩ (argv.drop first) (m.storeAll query (List.replicate 1024 0))

def cmdJarvis : Nat → Nat → List CStr → Memory → Except Fault Memory := concatCommand 2 1

def cmdLearn : Nat → Nat → List CStr → Memory → Except Fault Memory := concatCommand 3 2

def cmdSearch : Nat → Nat → List CStr → Memory → Except Fault Memory := concatCommand 2 1

/-- The arguments, with a blank behind each of them. -/
def concatenated (args : List CStr) : List U8 := args.flatMap fun arg => arg.bytes ++ blank.bytes

/-! ## The loop over the arguments -/

section
variable {b : Buffer} {fuel : Nat} {s : List U8} {m : Memory}

theorem concatenated_cons_length (arg : CStr) (args : List CStr) :
    (concatenated (arg :: args)).length = arg.bytes.length + 1 + (concatenated args).length := by
  rw [concatenated, List.flatMap_cons, List.length_append, List.length_append]
  rfl

theorem concatArgs_inside (args : List CStr) (hs : m.HasString b.start s) (hfuel : b.size ≤ fuel)
    (hfits : s.length + (concatenated args).length < b.size) :
    ∃ m', concatArgs fuel b args m = .ok m' ∧ Appended b (s ++ concatenated args) m m' := by
  induction args generalizing s m with
  | nil =>
    refine ⟨m, rfl, ?_, .refl⟩
    rw [concatenated, List.flatMap_nil, List.append_nil]
    exact hs
  | cons arg args ih =>
    have hlength := concatenated_cons_length arg args
    have hblank : blank.bytes.length = 1 := rfl
    obtain ⟨m₁, hcat₁, hstring₁, htouch₁⟩ := strcat_inside arg hs hfuel (by omega)
    obtain ⟨m₂, hcat₂, hstring₂, htouch₂⟩ := strcat_inside blank hstring₁ hfuel
      (by rw [List.length_append]; omega)
    obtain ⟨m', hcat, hstring, htouch⟩ := ih hstring₂
      (by rw [List.length_append, List.length_append]; omega)
    refine ⟨m', ?_, ?_, htouch₁.trans (htouch₂.trans htouch)⟩
    · rw [concatArgs, hcat₁]
      change strcat fuel b blank m₁ >>= concatArgs fuel b args = .ok m'
      rw [hcat₂]
      exact hcat
    · rw [concatenated, List.flatMap_cons, ← List.append_assoc, ← List.append_assoc]
      exact hstring

theorem concatArgs_outside (args : List CStr) (hs : m.HasString b.start s) (hfuel : b.size ≤ fuel)
    (hlen : s.length < b.size) (hfits : b.size ≤ s.length + (concatenated args).length) :
    concatArgs fuel b args m = .error .outside := by
  induction args generalizing s m with
  | nil => exact absurd hlen (Nat.not_lt.mpr hfits)
  | cons arg args ih =>
    have hlength := concatenated_cons_length arg args
    have hblank : blank.bytes.length = 1 := rfl
    rw [concatArgs]
    by_cases harg : s.length + arg.bytes.length < b.size
    · obtain ⟨m₁, hcat₁, hstring₁, -⟩ := strcat_inside arg hs hfuel harg
      rw [hcat₁]
      by_cases hseparator : (s ++ arg.bytes).length + blank.bytes.length < b.size
      · obtain ⟨m₂, hcat₂, hstring₂, -⟩ := strcat_inside blank hstring₁ hfuel hseparator
        have hlength₂ : (s ++ arg.bytes ++ blank.bytes).length = s.length + arg.bytes.length + 1 := by
          rw [List.length_append, List.length_append, hblank]
        rw [List.length_append] at hseparator
        change strcat fuel b blank m₁ >>= concatArgs fuel b args = .error .outside
        rw [hcat₂]
        exact ih hstring₂ (by omega) (by omega)
      · -- the argument filled the buffer up to its last byte
        have hcat₂ := strcat_outside blank hstring₁ hfuel (by rw [List.length_append]; omega)
          (Nat.le_of_not_lt hseparator)
        change strcat fuel b blank m₁ >>= concatArgs fuel b args = .error .outside
        rw [hcat₂]
        rfl
    · rw [strcat_outside arg hs hfuel hlen (Nat.le_of_not_lt harg)]
      rfl

end

/-! ## The commands -/

/-- The command comes to its end, and changed and touched nothing but its array. -/
def StaysInside (query : Nat) (m : Memory) (r : Except Fault Memory) : Prop :=
  ∃ m', r = .ok m' ∧ Touches query 1024 m m'

theorem zeroed_string (m : Memory) (query : Nat) :
    (m.storeAll query (List.replicate 1024 0)).HasString query [] := by
  rw [List.replicate_succ]
  exact Memory.storeAll_hasString (s := []) m query fun _ h => absurd h List.not_mem_nil

section
variable {least first fuel query : Nat} {argv : List CStr} {m : Memory}

theorem concatCommand_inside (hfuel : 1024 ≤ fuel)
    (hshort : (concatenated (argv.drop first)).length < 1024) :
    StaysInside query m (concatCommand least first fuel query argv m) := by
  rw [concatCommand]
  split
  · exact ⟨m, rfl, .refl⟩
  · have hzeroed := Memory.storeAll_touches m query (List.replicate 1024 0)
    rw [List.length_replicate] at hzeroed
    obtain ⟨m', hrun, -, htouch⟩ := concatArgs_inside (b := ⟨query, 1024⟩) (argv.drop first)
      (zeroed_string m query) hfuel (by rwa [List.length_nil, Nat.zero_add])
    exact ⟨m', hrun, hzeroed.trans htouch⟩

theorem concatCommand_outside (hleast : least = first + 1) (hfuel : 1024 ≤ fuel)
    (hlong : 1024 ≤ (concatenated (argv.drop first)).length) :
    concatCommand least first fuel query argv m = .error .outside := by
  rw [concatCommand, if_neg]
  · exact concatArgs_outside (b := ⟨query, 1024⟩) (argv.drop first) (zeroed_string m query) hfuel
      (Nat.zero_lt_succ 1023) (by rwa [List.length_nil, Nat.zero_add])
  · -- too few arguments would leave nothing to append
    intro hargc
    rw [List.drop_eq_nil_of_le (by omega)] at hlong
    exact absurd hlong (by decide)

theorem concatCommand_inside_iff (hleast : least = first + 1) (hfuel : 1024 ≤ fuel) :
    StaysInside query m (concatCommand least first fuel query argv m) ↔
      (concatenated (argv.drop first)).length < 1024 := by
  refine ⟨?_, concatCommand_inside hfuel⟩
  rintro ⟨m', hrun, -⟩
  by_contra hlong
  rw [concatCommand_outside hleast hfuel (Nat.le_of_not_lt hlong)] at hrun
  cases hrun

end

/-- What a line has to say behind its first `first` arguments: each of them up to its first
quote, and a blank behind it. -/
def joinedArgs (first : Nat) (text : List U8) : List U8 :=
  (((arguments text).take shellMaxArgs).drop first).flatMap fun arg =>
    (arg.takeWhile fun b => b ≠ quote) ++ [ch ' ']

theorem parsed_args {mem : Memory} {line : Nat} {text : List U8} (hline : mem.HasString line text) :
    ∃ out args, shellParseLine (text.length + 2) mem line = some out ∧
      List.Forall₂ (fun ptr (arg : CStr) => out.mem.HasString ptr arg.bytes) out.argv args ∧
      ∀ first, concatenated (args.drop first) = joinedArgs first text := by
  obtain ⟨out, text', hrun, -, hrecorded⟩ := shellParseLine_spec hline
  have hread : ∃ args : List CStr,
      List.Forall₂ (fun ptr (arg : CStr) => out.mem.HasString ptr arg.bytes) out.argv args ∧
      args.map CStr.bytes =
        ((arguments text).take shellMaxArgs).map fun arg => arg.takeWhile fun b => b ≠ quote := by
    generalize out.argv = argv, (arguments text).take shellMaxArgs = args at hrecorded
    induction hrecorded with
    | nil => exact ⟨[], .nil, rfl⟩
    | cons harg _ ih =>
      obtain ⟨args', hstrings, hbytes⟩ := ih
      exact ⟨⟨_, harg.string.nonzero⟩ :: args', .cons harg.string hstrings,
        congrArg (List.cons _) hbytes⟩
  obtain ⟨args, hstrings, hbytes⟩ := hread
  refine ⟨out, args, hrun, hstrings, fun first => ?_⟩
  calc concatenated (args.drop first)
      = ((args.map CStr.bytes).drop first).flatMap (fun bytes => bytes ++ [ch ' ']) := by
        rw [← List.map_drop, List.flatMap_map]
        rfl
    _ = joinedArgs first text := by
        rw [hbytes, ← List.map_drop, List.flatMap_map]
        rfl

/-- **The buffers of the commands.** For every line the parser is given and every place of the
array: each of the commands writes inside its array only, and comes to its end, exactly if what
it puts together has at most 1023 bytes. -/
theorem commands_stay_inside_iff (mem : Memory) (line query fuel : Nat) (text : List U8)
    (hline : mem.HasString line text) (hfuel : 1024 ≤ fuel) :
    ∃ out args, shellParseLine (text.length + 2) mem line = some out ∧
      List.Forall₂ (fun ptr (arg : CStr) => out.mem.HasString ptr arg.bytes) out.argv args ∧
      (StaysInside query out.mem (cmdJarvis fuel query args out.mem) ↔
        (joinedArgs 1 text).length < 1024) ∧
      (StaysInside query out.mem (cmdLearn fuel query args out.mem) ↔
        (joinedArgs 2 text).length < 1024) ∧
      (StaysInside query out.mem (cmdSearch fuel query args out.mem) ↔
        (joinedArgs 1 text).length < 1024) := by
  obtain ⟨out, args, hrun, hstrings, hjoined⟩ := parsed_args hline
  refine ⟨out, args, hrun, hstrings, ?_, ?_, ?_⟩
  · rw [← hjoined 1]
    exact concatCommand_inside_iff rfl hfuel
  · rw [← hjoined 2]
    exact concatCommand_inside_iff rfl hfuel
  · rw [← hjoined 1]
    exact concatCommand_inside_iff rfl hfuel

/-- A question of two words fits. -/
theorem commands_stay_inside_iff_question :
    let text := "jarvis who are".toList.map ch
    let mem : Memory := ⟨fun x => text.getD x 0, []⟩
    ∃ out args, shellParseLine (text.length + 2) mem 0 = some out ∧
      StaysInside 4096 out.mem (cmdJarvis 1024 4096 args out.mem) := by
  intro text mem
  obtain ⟨out, args, hrun, -, hjarvis, -⟩ :=
    commands_stay_inside_iff mem 0 4096 1024 text (by decide) (by decide)
  exact ⟨out, args, hrun, hjarvis.mpr (by decide)⟩

theorem joinedArgs_single {command word : List U8} (hcommand : command ≠ []) (hword : word ≠ [])
    (hletters : ∀ b ∈ command ++ word, isspace b = false ∧ b ≠ quote) :
    joinedArgs 1 (command ++ ch ' ' :: word) = word ++ [ch ' '] := by
  have hquote : quote ∉ command ++ ch ' ' :: word := by
    intro h
    rw [List.mem_append, List.mem_cons] at h
    obtain h | h | h := h
    · exact (hletters _ (List.mem_append_left _ h)).2 rfl
    · exact absurd h (by decide)
    · exact (hletters _ (List.mem_append_right _ h)).2 rfl
  have hargs : arguments (command ++ ch ' ' :: word) = [command, word] := by
    rw [arguments_unquoted hquote, words_append _ _ (by decide),
      words_single hcommand fun b hb => (hletters b (List.mem_append_left _ hb)).1,
      words_single hword fun b hb => (hletters b (List.mem_append_right _ hb)).1]
    rfl
  have hwhole : (word.takeWhile fun b => b ≠ quote) = word :=
    List.takeWhile_eq_self_iff.mpr fun b hb => by
      simpa using (hletters b (List.mem_append_right _ hb)).2
  calc joinedArgs 1 (command ++ ch ' ' :: word)
      = (word.takeWhile fun b => b ≠ quote) ++ [ch ' '] := by
        rw [joinedArgs, hargs]
        exact List.append_nil _
    _ = word ++ [ch ' '] := by rw [hwhole]

/-- One word of 1023 bytes leaves no room for the NUL behind the blank. -/
theorem commands_leave_buffer :
    let text := "jarvis".toList.map ch ++ ch ' ' :: List.replicate 1023 (ch 'a')
    let mem : Memory := ⟨fun x => text.getD x 0, []⟩
    text.length ≤ 4095 ∧ mem.HasString 0 text ∧
      ∃ out args, shellParseLine (text.length + 2) mem 0 = some out ∧
        List.Forall₂ (fun ptr (arg : CStr) => out.mem.HasString ptr arg.bytes) out.argv args ∧
        cmdJarvis 1024 4096 args out.mem = .error .outside := by
  intro text mem
  have hletter : ∀ b ∈ List.replicate 1023 (ch 'a'), b = ch 'a' := fun _ => List.eq_of_mem_replicate
  have hnonzero : ∀ b ∈ text, b ≠ 0 := by
    intro b hb
    rw [List.mem_append, List.mem_cons] at hb
    obtain hb | rfl | hb := hb
    · revert b
      decide
    · decide
    · rw [hletter b hb]
      decide
  have hline : mem.HasString 0 text := Memory.hasString_getD hnonzero
  have hjoin : joinedArgs 1 text = List.replicate 1023 (ch 'a') ++ [ch ' '] := by
    refine joinedArgs_single (by decide) (List.cons_ne_nil _ _) fun b hb => ?_
    obtain hb | hb := List.mem_append.mp hb
    · have hcommand : ∀ b ∈ "jarvis".toList.map ch, isspace b = false ∧ b ≠ quote := by decide
      exact hcommand b hb
    · rw [hletter b hb]
      decide
  obtain ⟨out, args, hrun, hstrings, hjoined⟩ := parsed_args hline
  refine ⟨?_, hline, out, args, hrun, hstrings, ?_⟩
  · rw [List.length_append, List.length_cons, List.length_replicate]
    decide
  · apply concatCommand_outside rfl (Nat.le_refl 1024)
    rw [hjoined 1, hjoin, List.length_append, List.length_replicate, List.length_singleton]

end JarJar.Shell
