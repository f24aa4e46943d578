import JarJar.ShellSession
import JarJar.StdioPrefix

/- Every command of the table. `Serves` says of a handler that it comes to its end with calls
   that can be made; it holds of all of the table (`commands_serve`), and of the question that
   an unknown word becomes (`unknown_answered`), so that any words can be executed
   (`execute_answered`). The formats are looked at by evaluation, once for each call. -/
namespace JarJar.ShellCommands
open Libc Vga Shell

/-- A command came to its end. -/
def Answered (P : U8 → Prop) (place : Layout) (wipes : Prop) (r : Except Fault Reply) : Prop :=
  ∃ reply, r = .ok reply ∧ Ready P place reply.env ∧ Tidy P reply.calls ∧
    ((∃ call ∈ reply.calls, call.wipes = true) → wipes)

/-- The words of a line, with room in the arrays for those behind the first. -/
structure Words (P : U8 → Prop) (argv : List CStr) : Prop where
  bytes : ∀ arg ∈ argv, ∀ b ∈ arg.bytes, P b
  room : (concatenated (argv.drop 1)).length < 1024

def Serves (P : U8 → Prop) (place : Layout) (wipes : Prop) (handler : Handler) : Prop :=
  ∀ argv env, Words P argv → Ready P place env → Answered P place wipes (handler argv env)

section
variable {P : U8 → Prop} {place : Layout} {wipes : Prop} {env : Env} {calls rest : List Call}
  {result : JarResult} {argv : List CStr} {handler : Handler} {out : Outside}

theorem Serves.mono (h : Serves P place False handler) : Serves P place wipes handler := by
  intro argv env hwords hready
  obtain ⟨reply, hrun, henv, htidy, hwipes⟩ := h argv env hwords hready
  exact ⟨reply, hrun, henv, htidy, fun h => absurd (hwipes h) not_false⟩

/-! ## Calls that are there to be seen -/

theorem answered_fixed (h : fixed calls = true) (hready : Ready P place env) :
    Answered P place False (.ok ⟨result, calls, env⟩) := by
  obtain ⟨htidy, hwipes⟩ := tidy_fixed (P := P) h
  refine ⟨_, rfl, hready, htidy, ?_⟩
  rintro ⟨call, hcall, hwipe⟩
  rw [hwipes call hcall] at hwipe
  cases hwipe

theorem serves_fixed (h : fixed calls = true) : Serves P place False (prints calls) :=
  fun _ _ _ hready => answered_fixed h hready

theorem answered_printf {format : String} {args : List Arg} (kinds : List Kind)
    (hkinds : args.map Arg.kind = kinds) (hfits : fits (format, kinds) = true)
    (hstrings : ∀ s, .str s ∈ args → ∀ b ∈ s.bytes, P b) (hrest : fixed rest = true)
    (hready : Ready P place env) :
    Answered P place False (.ok ⟨result, .printf format args :: rest, env⟩) := by
  obtain ⟨htidy, hwipes⟩ := tidy_fixed (P := P) hrest
  refine ⟨_, rfl, hready, (tidy_printf kinds hkinds hfits hstrings).append htidy, ?_⟩
  rintro ⟨call, hcall, hwipe⟩
  cases List.mem_cons.mp hcall with
  | inl hfirst =>
    rw [hfirst] at hwipe
    cases hwipe
  | inr hlater =>
    rw [hwipes call hlater] at hwipe
    cases hwipe

theorem answered_shapes (shapes : List (String × List Kind)) (args : List Arg)
    (hshapes : calls.map Call.shape = shapes) (hargs : calls.flatMap Call.args = args)
    (hfits : shapes.all fits = true) (hstrings : ∀ s, .str s ∈ args → ∀ b ∈ s.bytes, P b)
    (hresets : calls.foldl pen grey = grey) (hwipes : calls.any Call.wipes = false)
    (hready : Ready P place env) : Answered P place False (.ok ⟨result, calls, env⟩) := by
  refine ⟨_, rfl, hready, ⟨fun call hcall => ?_, fun call hcall s hs => hstrings s ?_, hresets⟩, ?_⟩
  · exact List.all_eq_true.mp hfits _ (hshapes ▸ List.mem_map_of_mem hcall)
  · rw [← hargs]
    exact List.mem_flatMap.mpr ⟨call, hcall, hs⟩
  · rintro ⟨call, hcall, hwipe⟩
    rw [List.any_eq_false] at hwipes
    exact hwipes call hcall hwipe

theorem serves_needs {least : Nat} {usage : String} (husage : fixed [say usage] = true)
    (hbody : ∀ argv env, least ≤ argv.length → Words P argv → Ready P place env →
      Answered P place False (handler argv env)) :
    Serves P place False (needs least usage handler) := by
  intro argv env hwords hready
  rw [needs]
  split
  · exact answered_fixed husage hready
  · next hargc => exact hbody argv env (Nat.le_of_not_lt hargc) hwords hready

theorem nth_bytes (hwords : Words P argv) (is : List Nat) {s : CStr}
    (hs : .str s ∈ is.map (nth argv)) : ∀ b ∈ s.bytes, P b := by
  obtain ⟨i, -, hi⟩ := List.mem_map.mp hs
  obtain rfl := Arg.str.inj hi
  by_cases hlt : i < argv.length
  · rw [List.getD_eq_getElem _ _ hlt]
    exact hwords.bytes _ (List.getElem_mem hlt)
  · rw [List.getD_eq_default _ _ (Nat.le_of_not_lt hlt)]
    exact fun b hb => absurd hb List.not_mem_nil

/-! ## The commands -/

theorem serves_clear : Serves P place True cmdClear := fun _ _ _ hready =>
  ⟨_, rfl, hready, ⟨List.forall_mem_singleton.mpr rfl, by simp [Call.args], rfl⟩, fun _ => trivial⟩

theorem tidy_echo {args : List CStr} (hargs : ∀ arg ∈ args, ∀ b ∈ arg.bytes, P b) :
    Tidy P (args.map fun arg => .printf "%s " [.str arg]) := by
  induction args with
  | nil => exact Tidy.nil
  | cons arg args ih =>
    obtain ⟨harg, hargs⟩ := List.forall_mem_cons.mp hargs
    have hfirst : Tidy P [.printf "%s " [.str arg]] :=
      tidy_printf [.str] rfl rfl fun s hs => by
        obtain rfl := Arg.str.inj (List.mem_singleton.mp hs)
        exact harg
    exact hfirst.append (ih hargs)

theorem serves_echo : Serves P place False cmdEcho := by
  intro argv env hwords hready
  have hend : fixed [say "\n"] = true := rfl
  obtain ⟨htidy, -⟩ := tidy_fixed (P := P) hend
  refine ⟨_, rfl, hready, (tidy_echo fun arg harg =>
    hwords.bytes arg (List.mem_of_mem_drop harg)).append htidy, ?_⟩
  rintro ⟨call, hcall, hwipe⟩
  obtain hecho | hend := List.mem_append.mp hcall
  · obtain ⟨arg, -, rfl⟩ := List.mem_map.mp hecho
    cases hwipe
  · rw [List.mem_singleton.mp hend] at hwipe
    cases hwipe

theorem serves_cd : Serves P place False cmdCd := by
  intro argv env hwords hready
  rw [cmdCd]
  split
  · exact answered_fixed rfl { hready with directory := rfl }
  · exact answered_printf [.str] rfl rfl (fun s hs => nth_bytes hwords [1] hs)
      rfl hready

theorem root_bytes (hP : ∀ b, Plain b → P b) {s : CStr} (hs : .str s ∈ [Arg.str rootDirectory]) :
    ∀ b ∈ s.bytes, P b := by
  obtain rfl := Arg.str.inj (List.mem_singleton.mp hs)
  exact List.forall_mem_singleton.mpr (hP _ (by decide))

theorem serves_ls (hP : ∀ b, Plain b → P b) : Serves P place False cmdLs := by
  intro argv env _ hready
  rw [cmdLs, hready.directory]
  exact answered_printf [.str] rfl rfl (fun s hs => root_bytes hP hs)
    rfl hready

theorem serves_pwd (hP : ∀ b, Plain b → P b) : Serves P place False cmdPwd := by
  intro argv env _ hready
  rw [cmdPwd, hready.directory]
  exact answered_printf [.str] rfl rfl (fun s hs => root_bytes hP hs) rfl hready

theorem serves_shows {least : Nat} {usage format : String} (is : List Nat) (rest : List Call)
    (husage : fixed [say usage] = true) (hfits : fits (format, is.map fun _ => .str) = true)
    (hrest : fixed rest = true) :
    Serves P place False
      (needs least usage fun argv => prints (.printf format (is.map (nth argv)) :: rest) argv) := by
  apply serves_needs husage
  intro argv env _ hwords hready
  refine answered_printf _ ?_ hfits (fun s hs => nth_bytes hwords _ hs) hrest hready
  rw [List.map_map]
  rfl

theorem serves_cat : Serves P place False cmdCat :=
  serves_shows [1] _ rfl rfl rfl

theorem serves_mkdir : Serves P place False cmdMkdir :=
  serves_shows [1] [] rfl rfl rfl

theorem serves_rm : Serves P place False cmdRm :=
  serves_shows [1] [] rfl rfl rfl

theorem serves_cp : Serves P place False cmdCp :=
  serves_shows [1, 2] [] rfl rfl rfl

theorem serves_mv : Serves P place False cmdMv :=
  serves_shows [1, 2] [] rfl rfl rfl

theorem serves_kill : Serves P place False cmdKill :=
  serves_shows [1] [] rfl rfl rfl

theorem serves_edit : Serves P place False cmdEdit :=
  serves_shows [1] _ rfl rfl rfl

theorem serves_compile : Serves P place False cmdCompile :=
  serves_shows [1] _ rfl rfl rfl

theorem serves_ping : Serves P place False cmdPing := by
  apply serves_needs rfl
  intro argv env _ hwords hready
  exact answered_printf [.str] rfl rfl (fun s hs => nth_bytes hwords [1] hs)
    rfl hready

/-! ## The rest of the system -/

theorem no_strings {args : List Arg} (h : ∀ s, .str s ∉ args) (s : CStr) (hs : .str s ∈ args) :
    ∀ b ∈ s.bytes, P b := absurd hs (h s)

theorem serves_meminfo (hout : out.Keeps P place) : Serves P place False (cmdMeminfo out) := by
  intro argv env _ hready
  rw [cmdMeminfo, if_neg hout.total]
  exact answered_shapes
    [("Memory Information:\n", []), ("===================\n", []),
     ("Total:      %8lu MB\n", [.long]), ("Used:       %8lu MB\n", [.long]),
     ("Free:       %8lu MB\n", [.long]), ("Cached:     %8lu MB\n", [.long]),
     ("Buffers:    %8lu MB\n", [.long]), ("AI Reserved:%8lu MB\n", [.long]), ("\n", []),
     ("Usage: %lu%%\n", [.long])] _ rfl rfl rfl
    (no_strings fun s => by simp [Call.args, say]) rfl rfl hready

theorem serves_status (hout : out.Keeps P place) : Serves P place False (cmdStatus out) := by
  intro argv env _ hready
  rw [cmdStatus, if_neg hout.total]
  -- the numbers and the string are of no concern to the formats around them
  exact answered_shapes
    [("\n", []), ("", []),
     ("╔══════════════════════════════════════════════════════════════╗\n", []),
     ("║                    JARJARVIS SYSTEM STATUS                   ║\n", []),
     ("╚══════════════════════════════════════════════════════════════╝\n", []), ("", []), ("\n", []),
     ("Version:     JARJARVIS 1.0.0 (Build 2024)\n", []), ("Kernel:      JARVIS-Core x86_64\n", []),
     ("Uptime:      0 days, 0:15:32\n", []), ("\n", []), ("CPU:         4 cores @ 3.5 GHz\n", []),
     ("CPU Usage:   12%%\n", []), ("\n", []),
     ("Memory:      %lu MB / %lu MB (%lu%%)\n", [.long, .long, .long]), ("\n", []),
     ("%s\n", [.str]), ("\n", []), ("", []), ("All systems operational.\n", []), ("", [])]
    _ rfl rfl (by decide +kernel)
    (fun s hs => by
      simp only [Call.args, say, List.flatMap_cons, List.flatMap_nil, List.nil_append,
        List.cons_append, List.mem_cons, reduceCtorEq, false_or, List.not_mem_nil, or_false,
        Arg.str.injEq] at hs
      subst hs
      exact hout.stats) rfl rfl hready

theorem answered_aloud {format : String} {s : CStr} (hfits : fits (format, [.str]) = true)
    (hs : ∀ b ∈ s.bytes, P b) (hready : Ready P place env) :
    Answered P place False (.ok ⟨result, [.aiOutput, .printf format [.str s], .resetColor], env⟩) := by
  have hend : fits ("", []) = true := rfl
  refine answered_shapes [("", []), (format, [.str]), ("", [])] [.str s] rfl rfl ?_ ?_ rfl rfl hready
  · rw [List.all_cons, List.all_cons, List.all_cons, hend, hfits]
    rfl
  · intro t ht
    obtain rfl := Arg.str.inj (List.mem_singleton.mp ht)
    exact hs

theorem serves_jarvis (hP : ∀ b, Plain b → P b) : Serves P place False (cmdJarvis place) := by
  intro argv env hwords hready
  rw [cmdJarvis]
  split
  · exact answered_fixed rfl hready
  · next hargc =>
    obtain ⟨query, env₁, hgather, -, hsame₁⟩ := gather_eq place 2 1 env
      (Nat.le_of_not_lt hargc) hwords.room
    replace hgather : gather place Shell.cmdJarvis argv env = .ok (query, env₁) := hgather
    obtain ⟨entries, hknows⟩ := (hready.same hsame₁).knows
    obtain ⟨env₂, hask, hsame₂, hbytes⟩ := ask_eq hknows hP query 2048 (by decide)
      (by decide)
    simp only [hgather, hask, ok_bind]
    exact answered_aloud rfl hbytes ((hready.same hsame₁).same hsame₂)

theorem concatenated_drop_le (args : List CStr) (k : Nat) :
    (concatenated (args.drop k)).length ≤ (concatenated args).length := by
  induction k generalizing args with
  | zero => exact Nat.le_refl _
  | succ k ih =>
    cases args with
    | nil => exact Nat.le_refl _
    | cons arg args =>
      have hlength := concatenated_cons_length arg args
      exact Nat.le_trans (ih args) (by omega)

theorem serves_learn (hout : out.Keeps P place) : Serves P place False (cmdLearn out place) := by
  apply serves_needs rfl
  intro argv env hargc hwords hready
  have hroom := concatenated_drop_le (argv.drop 1) 1
  rw [List.drop_drop] at hroom
  obtain ⟨content, env₁, hgather, -, hsame⟩ := gather_eq place 3 2 env hargc
    (Nat.lt_of_le_of_lt hroom hwords.room)
  replace hgather : gather place Shell.cmdLearn argv env = .ok (content, env₁) := hgather
  have hready₁ := hready.same hsame
  rw [hgather]
  have hready₂ : Ready P place { env₁ with
      jarvis := (out.jarvisLearn (argv.getD 1 CStr.empty) content env₁.jarvis).2 } :=
    ⟨hout.learn _ _ _ hready₁.knows, hready₁.directory⟩
  show Answered P place False (.ok ⟨_, if _ = JarResult.ok then _ else [], _⟩)
  split
  · exact answered_aloud rfl (nth_bytes hwords [1] (List.mem_singleton.mpr rfl))
      hready₂
  · exact answered_fixed rfl hready₂

theorem serves_evolve (hout : out.Keeps P place) : Serves P place False (cmdEvolve out) := by
  intro argv env _ hready
  exact answered_fixed rfl ⟨hout.evolve _ hready.knows, hready.directory⟩

theorem concatenated_bytes {args : List CStr} (hP : ∀ b, Plain b → P b)
    (hargs : ∀ arg ∈ args, ∀ b ∈ arg.bytes, P b) : ∀ b ∈ concatenated args, P b := by
  intro b hb
  obtain ⟨arg, harg, hb⟩ := List.mem_flatMap.mp hb
  obtain hb | hb := List.mem_append.mp hb
  · exact hargs arg harg b hb
  · obtain rfl := List.mem_singleton.mp hb
    exact hP _ (by decide)

theorem serves_search (hP : ∀ b, Plain b → P b) : Serves P place False (cmdSearch place) := by
  apply serves_needs rfl
  intro argv env hargc hwords hready
  obtain ⟨query, env₁, hgather, hquery, hsame⟩ := gather_eq place 2 1 env hargc hwords.room
  replace hgather : gather place Shell.cmdSearch argv env = .ok (query, env₁) := hgather
  have hbytes : ∀ b ∈ query.bytes, P b := by
    rw [hquery]
    exact concatenated_bytes hP fun arg harg => hwords.bytes arg (List.mem_of_mem_drop harg)
  rw [hgather]
  refine answered_shapes [("", []), ("[JARVIS] Searching for: %s\n", [.str]),
    ("[JARVIS] This feature requires network connectivity.\n", []), ("", [])] [.str query] rfl rfl
    rfl (fun s hs => ?_) rfl rfl (hready.same hsame)
  obtain rfl := Arg.str.inj (List.mem_singleton.mp hs)
  exact hbytes

/-! ## The table -/

/-- Every command of the table comes to its end. Two of them clear the screen. -/
theorem commands_serve (hP : ∀ b, Plain b → P b) (hout : out.Keeps P place) :
    ∀ c ∈ commands out place, Serves P place (c.name = "clear" ∨ c.name = "cls") c.handler := by
  have hhelp : Serves P place False cmdHelp := serves_fixed rfl
  have hps : Serves P place False cmdPs := serves_fixed rfl
  have hcpu : Serves P place False cmdCpuinfo := serves_fixed rfl
  have hdisk : Serves P place False cmdDiskinfo := serves_fixed rfl
  have hnet : Serves P place False cmdNetinfo := serves_fixed rfl
  have hdate : Serves P place False cmdDate := serves_fixed rfl
  have huptime : Serves P place False cmdUptime := serves_fixed rfl
  have hreboot : Serves P place False cmdReboot := serves_fixed rfl
  have hshutdown : Serves P place False cmdShutdown := serves_fixed rfl
  have hthink : Serves P place False cmdThink := serves_fixed rfl
  have hversion : Serves P place False cmdVersion := serves_fixed rfl
  have hdebug : Serves P place False cmdDebug := serves_fixed rfl
  have hls : Serves P place False cmdLs := serves_ls hP
  have hjarvis : Serves P place False (cmdJarvis place) := serves_jarvis hP
  have hmeminfo := serves_meminfo hout
  have hclear (wipes : Prop) (h : wipes) : Serves P place wipes cmdClear := fun argv env hw hr => by
    obtain ⟨reply, hrun, henv, htidy, -⟩ := serves_clear argv env hw hr
    exact ⟨reply, hrun, henv, htidy, fun _ => h⟩
  simp only [commands, List.forall_mem_cons]
  exact ⟨hhelp.mono, hhelp.mono, hclear _ (Or.inl trivial), hclear _ (Or.inr trivial), serves_echo.mono,
    hls.mono, hls.mono, serves_cd.mono, (serves_pwd hP).mono, serves_cat.mono, serves_cat.mono,
    serves_mkdir.mono, serves_mkdir.mono, serves_rm.mono, serves_rm.mono, serves_cp.mono,
    serves_cp.mono, serves_mv.mono, serves_mv.mono, hps.mono, serves_kill.mono, hmeminfo.mono,
    hmeminfo.mono, hcpu.mono, hdisk.mono, hdisk.mono, hnet.mono, hnet.mono, hnet.mono,
    serves_ping.mono, hdate.mono, hdate.mono, huptime.mono, hreboot.mono, hreboot.mono,
    hshutdown.mono, hshutdown.mono, hjarvis.mono, hjarvis.mono, (serves_learn hout).mono,
    hthink.mono, (serves_evolve hout).mono, (serves_search hP).mono, (serves_status hout).mono,
    hversion.mono, hversion.mono, serves_edit.mono, serves_compile.mono, hdebug.mono,
    fun _ h => absurd h List.not_mem_nil⟩

/-! ## A word that is no command -/

theorem storeAt_stores (p n : Nat) (text : List U8) (m : Memory) :
    storeAt p (stores n text) m = m.storeAll (p + n) text := by
  induction text generalizing n m with
  | nil => rfl
  | cons b text ih =>
    rw [stores, storeAt, List.foldr_append]
    exact ih (n + 1) (m.store (p + n) b)

def questionStart : CStr := ⟨"What is the command: ".toList.map ch, by decide⟩

theorem question_nonzero (cmd : CStr) :
    ∀ b ∈ (questionStart.append cmd).bytes.take 511, b ≠ 0 := fun b hb =>
  (questionStart.append cmd).nonzero b (List.mem_of_mem_take hb)

/-- What JARVIS is asked about a word, cut to the array. -/
def question (cmd : CStr) : CStr := ⟨_, question_nonzero cmd⟩

theorem knownFormat_append {text rest : List U8} (htext : ch '%' ∉ text) (h : KnownFormat rest) :
    KnownFormat (text ++ rest) := by
  induction text with
  | nil => exact h
  | cons c text ih =>
    rw [List.mem_cons, not_or] at htext
    have hrest := ih htext.2
    rw [List.cons_append]
    cases hbehind : text ++ rest with
    | nil => trivial
    | cons d behind =>
      rw [KnownFormat, if_neg (Ne.symm htext.1), ← hbehind]
      exact hrest

theorem textOf_expand_append {args : Args} {text rest : List U8} (arg : Nat) (htext : ch '%' ∉ text) :
    textOf (expand args (text ++ rest) arg) = text ++ textOf (expand args rest arg) := by
  induction text with
  | nil => rfl
  | cons c text ih =>
    rw [List.mem_cons, not_or] at htext
    have hrest := ih htext.2
    rw [List.cons_append]
    cases hbehind : text ++ rest with
    | nil =>
      obtain ⟨rfl, rfl⟩ := List.append_eq_nil_iff.mp hbehind
      rfl
    | cons d behind =>
      rw [expand, if_neg (Ne.symm htext.1), ← hbehind, textOf, List.flatMap_cons]
      exact congrArg (c :: ·) hrest

theorem question_text (cmd : CStr) : textOf (expand (varargs [.str cmd]) questionFormat.bytes 0) =
    (questionStart.append cmd).bytes := by
  have hformat : questionFormat.bytes = questionStart.bytes ++ [ch '%', ch 's'] := by decide
  have hword : textOf (expand (varargs [.str cmd]) [ch '%', ch 's'] 0) = cmd.bytes ++ [] := rfl
  rw [hformat, textOf_expand_append 0 (by decide), hword, List.append_nil]
  rfl

theorem question_known : KnownFormat questionFormat.bytes := by
  have hformat : questionFormat.bytes = questionStart.bytes ++ [ch '%', ch 's'] := by decide
  have hend : KnownFormat [ch '%', ch 's'] := by simp [KnownFormat, KnownDirective]
  rw [hformat]
  exact knownFormat_append (by decide) hend

theorem question_stored (cmd : CStr) (p : Nat) (m : Memory) :
    storeAt p (snprintf 512 questionFormat (varargs [.str cmd])).2 m =
      m.storeAll p ((question cmd).bytes ++ [0]) := by
  have hnone := noneAcross_of_known (expand_known (varargs [.str cmd]) question_known 0)
  have hrun := vsnprintf_eq_take 512 questionFormat (varargs [.str cmd]) (by decide)
    (question_text cmd) (hnone _ 0) (Nat.lt_of_le_of_lt (Nat.min_le_left _ _) (by decide))
  have hlength : (question cmd).bytes.length = min 511 (questionStart.append cmd).bytes.length :=
    List.length_take
  have hsize : (512 : U64).toNat - 1 = 511 := rfl
  have htake : (questionStart.append cmd).bytes.take 511 = (question cmd).bytes := by rw [question]
  have hstep (w : Nat × U8) (ws : List (Nat × U8)) :
      storeAt p (w :: ws) m = (storeAt p ws m).store (p + w.1) w.2 := rfl
  rw [hsize, htake, ← hlength] at hrun
  rw [snprintf, hrun, hstep, storeAt_stores, Memory.storeAll_append, Nat.add_zero, Memory.storeAll,
    Memory.storeAll]

theorem unknown_answered (hP : ∀ b, Plain b → P b) {cmd : CStr} (hcmd : ∀ b ∈ cmd.bytes, P b)
    (hready : Ready P place env) : Answered P place False (unknownCommand place cmd env) := by
  have hlength : (question cmd).bytes.length < 512 := by
    rw [question, List.length_take]
    omega
  have htouch := Memory.storeAll_touches env.mem place.query ((question cmd).bytes ++ [0])
  have hread := stringAt_eq (s := question cmd)
    (Memory.storeAll_hasString (t := []) env.mem place.query (question cmd).nonzero) hlength
  rw [List.length_append, List.length_singleton] at htouch
  have hsame₁ : env.Same place
      (env.setMem (env.mem.storeAll place.query ((question cmd).bytes ++ [0]))) :=
    ⟨rfl, rfl, fun x hx => by
      rw [Layout.Covers] at hx
      exact htouch.outside x (by omega)⟩
  obtain ⟨entries, hknows⟩ := (hready.same hsame₁).knows
  obtain ⟨env₂, hask, hsame₂, hbytes⟩ := ask_eq hknows hP (question cmd) 1024 (by decide)
    (by decide)
  rw [unknownCommand, question_stored]
  simp only [hread, hask, ok_bind]
  refine answered_shapes [("", []), ("[JARVIS] Command not found: %s\n", [.str]),
    ("[JARVIS] Let me analyze this...\n", []), ("", []), ("", []), ("[JARVIS] %s\n", [.str]),
    ("", [])] _ rfl rfl rfl (fun s hs => ?_) rfl rfl ((hready.same hsame₁).same hsame₂)
  obtain hs | hs := List.mem_cons.mp hs
  · obtain rfl := Arg.str.inj hs
    exact hcmd
  · obtain rfl := Arg.str.inj (List.mem_singleton.mp hs)
    exact hbytes

/-- The first word is one of the two that clear the screen. -/
def Wipes (argv : List CStr) : Prop :=
  ∃ cmd rest, argv = cmd :: rest ∧ (cmd.bytes = literal "clear" ∨ cmd.bytes = literal "cls")

theorem execute_answered (hP : ∀ b, Plain b → P b) (hout : out.Keeps P place)
    (hwords : Words P argv) (hready : Ready P place env) :
    Answered P place (Wipes argv) (shellExecute out place argv env) := by
  cases argv with
  | nil => exact ⟨_, rfl, hready, Tidy.nil, fun ⟨call, hcall, _⟩ => absurd hcall List.not_mem_nil⟩
  | cons cmd rest =>
    rw [shellExecute]
    split
    · next c hfind =>
      have hname : cmd.bytes = literal c.name := by simpa using List.find?_some hfind
      obtain ⟨reply, hrun, henv, htidy, hwipes⟩ :=
        commands_serve hP hout c (List.mem_of_find?_eq_some hfind) (cmd :: rest) env hwords hready
      refine ⟨reply, hrun, henv, htidy, fun h => ⟨cmd, rest, rfl, ?_⟩⟩
      rw [hname]
      exact (hwipes h).imp (congrArg literal) (congrArg literal)
    · obtain ⟨reply, hrun, henv, htidy, hwipes⟩ :=
        unknown_answered hP (hwords.bytes cmd List.mem_cons_self) hready
      exact ⟨reply, hrun, henv, htidy, fun h => absurd (hwipes h) not_false⟩

end

end JarJar.ShellCommands
