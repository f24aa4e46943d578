import JarJar.ShellLines

/- What the shell answers. A question to JARVIS is put together from the words behind the
   command with a blank behind each of them, the last one too, and it is looked up as it is:
   it meets a concept only if that ends in a blank (`jarvis_answers`). The result of a line
   depends on its words alone: which command they name and how many they are
   (`session_results`). -/
namespace JarJar.ShellCommands
open Libc Vga Shell Jarvis

section
variable {out : Outside} {place : Layout} {env : Env} {line : CStr}

/-! ## The table -/

theorem find_jarvis : (commands out place).find? (fun c => literal "jarvis" = literal c.name) =
    some ⟨"jarvis", cmdJarvis place⟩ := rfl

theorem find_ai : (commands out place).find? (fun c => literal "ai" = literal c.name) =
    some ⟨"ai", cmdJarvis place⟩ := rfl

theorem execute_jarvis {cmd : CStr} {rest : List CStr}
    (hcmd : cmd.bytes = literal "jarvis" ∨ cmd.bytes = literal "ai") :
    shellExecute out place (cmd :: rest) env = cmdJarvis place (cmd :: rest) env := by
  obtain hcmd | hcmd := hcmd
  · rw [shellExecute, hcmd, find_jarvis]
  · rw [shellExecute, hcmd, find_ai]

/-! ## Questions -/

theorem eq_blank_of_asciiLower {b : U8} (h : asciiLower b = ch ' ') : b = ch ' ' := by
  rw [asciiLower] at h
  split at h
  · next hletter =>
    -- the small letters are not blanks
    have hA : 'A'.toNat = 65 := rfl
    have hZ : 'Z'.toNat = 90 := rfl
    have hsum := congrArg BitVec.toNat h
    have hblank : (ch ' ').toNat = 32 := rfl
    rw [BitVec.toNat_add, hblank, Nat.mod_eq_of_lt (by show b.toNat + 32 < 256; omega)] at hsum
    have hstep : (32 : U8).toNat = 32 := rfl
    omega
  · exact h

theorem getLast?_of_eqUpToCase {s t : List U8} (h : EqUpToCase s (t ++ [ch ' '])) :
    s.getLast? = some (ch ' ') := by
  have hlast := congrArg List.getLast? h
  rw [List.map_append, List.getLast?_map, List.getLast?_append] at hlast
  cases hs : s.getLast? with
  | none =>
    rw [hs] at hlast
    cases hlast
  | some b =>
    rw [hs] at hlast
    have hb : asciiLower b = ch ' ' := Option.some.inj hlast
    rw [eq_blank_of_asciiLower hb]

theorem flatMap_blank_ne_nil {args : List (List U8)} (hargs : args ≠ []) :
    ∃ t, (args.flatMap fun arg => arg ++ [ch ' ']) = t ++ [ch ' '] := by
  obtain ⟨before, last, rfl⟩ := List.eq_nil_or_concat args |>.resolve_left hargs
  refine ⟨(before.flatMap fun arg => arg ++ [ch ' ']) ++ last, ?_⟩
  rw [List.concat_eq_append, List.flatMap_append, List.flatMap_singleton, List.append_assoc]

end

/-- **Why JARVIS knows nothing.** A question typed behind `jarvis` or `ai` is answered with the
definition of the first concept that is equal to its words with a blank behind each, up to case,
and otherwise with the fallback. As long as no concept ends in a blank it is the fallback. -/
theorem jarvis_answers (out : Outside) (place : Layout) (env : Env) (entries : List Entry)
    (line : CStr) (cmd : List U8) (args : List (List U8))
    (hknows : Knows (fun _ => True) place entries env.jarvis) (hline : Typed (fun _ => True) line)
    (hwords : wordsOf line.bytes = cmd :: args)
    (hcmd : cmd = literal "jarvis" ∨ cmd = literal "ai") (hargs : args ≠ []) :
    ∃ query env', query.bytes = (args.flatMap fun arg => arg ++ [ch ' ']) ∧
      shellLine out place line env = .ok ⟨.ok,
        [.aiOutput, .printf "[JARVIS] %s\n" [.str (answerTo entries query)], .resetColor], env'⟩ ∧
      Knows (fun _ => True) place entries env'.jarvis ∧
      ((∀ entry ∈ entries, entry.concept.bytes.getLast? ≠ some (ch ' ')) →
        answerTo entries query = fallback) := by
  obtain ⟨argv, env₁, hrun, hargv, -, hsame₁⟩ :=
    shellLine_eq place env out hline.length
  rw [hwords] at hargv
  cases argv with
  | nil => cases hargv
  | cons word rest =>
    rw [List.map_cons, List.cons.injEq] at hargv
    obtain ⟨hword, hrest⟩ := hargv
    have hjoined : concatenated rest = args.flatMap fun arg => arg ++ [ch ' '] := by
      rw [← hrest, List.flatMap_map]
      rfl
    have hbytes : (word :: rest).map CStr.bytes = wordsOf line.bytes := by
      rw [hwords, List.map_cons, hword, hrest]
    have hroom : (concatenated ((word :: rest).drop 1)).length < 1024 := by
      rw [concatenated_words hbytes]
      exact hline.room
    have hargc : 2 ≤ (word :: rest).length := by
      have hpos := List.length_pos_of_ne_nil hargs
      rw [← hrest, List.length_map] at hpos
      exact Nat.succ_le_succ hpos
    obtain ⟨query, env₂, hgather, hquery, hsame₂⟩ := gather_eq place 2 1 env₁ hargc hroom
    replace hgather : gather place Shell.cmdJarvis (word :: rest) env₁ = .ok (query, env₂) := hgather
    have hknows₂ := hknows.within (hsame₁.trans hsame₂).awake (hsame₁.trans hsame₂).mem
    obtain ⟨env₃, hask, hsame₃, -⟩ := ask_eq hknows₂ (fun _ _ => trivial) query 2048
      (by decide) (by decide)
    replace hquery : query.bytes = args.flatMap fun arg => arg ++ [ch ' '] := hquery.trans hjoined
    refine ⟨query, env₃, hquery, ?_, hknows₂.within hsame₃.awake hsame₃.mem, fun hblank => ?_⟩
    · rw [hrun, execute_jarvis (hword ▸ hcmd), cmdJarvis, if_neg (by omega)]
      simp only [hgather, hask, ok_bind]
      rfl
    · obtain ⟨t, ht⟩ := flatMap_blank_ne_nil hargs
      have hnone : entries.find? (fun entry => entry.Answers query) = none := by
        rw [List.find?_eq_none]
        intro entry hentry hanswers
        refine hblank entry hentry (getLast?_of_eqUpToCase (t := t) ?_)
        rw [← ht, ← hquery]
        exact of_decide_eq_true hanswers
      rw [answerTo, hnone]

theorem jarvis_answers_hi :
    ∃ env', shellLine idleOutside lowLayout ⟨"jarvis hi".toList.map ch, by decide⟩ idleEnv =
      .ok ⟨.ok, [.aiOutput, .printf "[JARVIS] %s\n" [.str fallback], .resetColor], env'⟩ := by
  obtain ⟨query, env', -, hrun, -, hfallback⟩ := jarvis_answers idleOutside lowLayout idleEnv []
    ⟨"jarvis hi".toList.map ch, by decide⟩ ("jarvis".toList.map ch) ["hi".toList.map ch]
    (idleEnv_knows _) ⟨fun _ _ => trivial, by decide, by decide⟩ (by decide) (Or.inl (by decide))
    (by decide)
  rw [hfallback fun _ h => absurd h List.not_mem_nil] at hrun
  exact ⟨env', hrun⟩

/-! ## Results -/

/-- How many words a command asks for, its own name included. -/
def leastWords (cmd : List U8) : Nat :=
  if cmd ∈ ["cat", "type", "mkdir", "md", "rm", "del", "kill", "ping", "search", "edit",
    "compile"].map literal then 2
  else if cmd ∈ ["cp", "copy", "mv", "rename", "learn"].map literal then 3
  else 0

/-- What the words of a line come to, if JARVIS is not asked to learn. -/
def verdict (out : Outside) (place : Layout) : List (List U8) → JarResult
  | [] => .ok
  | cmd :: args =>
    if cmd ∉ (commands out place).map (fun c => literal c.name) then .notfound
    else if args.length + 1 < leastWords cmd then .inval
    else .ok

/-- The handler is content with `least` words. -/
def Grades (least : Nat) (handler : Handler) : Prop :=
  ∀ argv env reply, handler argv env = .ok reply →
    reply.result = if argv.length < least then .inval else .ok

section
variable {out : Outside} {place : Layout} {handler : Handler}

theorem grades_ok (h : ∀ argv env reply, handler argv env = .ok reply → reply.result = .ok) :
    Grades 0 handler := fun argv env reply hrun => by
  rw [h argv env reply hrun, if_neg (Nat.not_lt_zero _)]

theorem grades_prints (calls : List Call) : Grades 0 (prints calls) :=
  grades_ok fun argv env reply h => by cases h; rfl

theorem grades_needs {least : Nat} {usage : String}
    (h : ∀ argv env reply, handler argv env = .ok reply → reply.result = .ok) :
    Grades least (needs least usage handler) := by
  intro argv env reply hrun
  rw [needs] at hrun
  split at hrun
  · next hargc =>
    cases hrun
    rw [if_pos hargc]
  · next hargc =>
    rw [if_neg hargc]
    exact h argv env reply hrun

theorem grades_jarvis : Grades 0 (cmdJarvis place) := by
  apply grades_ok
  intro argv env reply hrun
  rw [cmdJarvis] at hrun
  split at hrun
  · cases hrun
    rfl
  · obtain ⟨⟨query, env₁⟩, -, hrun⟩ := bind_ok hrun
    obtain ⟨⟨response, env₂⟩, -, hrun⟩ := bind_ok hrun
    cases hrun
    rfl

theorem grades_search : Grades 2 (cmdSearch place) := by
  apply grades_needs
  intro argv env reply hrun
  obtain ⟨⟨query, env₁⟩, -, hrun⟩ := bind_ok hrun
  cases hrun
  rfl

theorem grades_prints_needs {least : Nat} {usage : String} (calls : List CStr → List Call) :
    Grades least (needs least usage fun argv => prints (calls argv) argv) :=
  grades_needs fun argv env reply h => by cases h; rfl

theorem grades_cd : Grades 0 cmdCd := grades_ok fun argv env reply h => by
  rw [cmdCd] at h
  split at h <;> cases h <;> rfl

theorem grades_meminfo : Grades 0 (cmdMeminfo out) := grades_ok fun argv env reply h => by
  rw [cmdMeminfo] at h
  split at h <;> cases h
  rfl

theorem grades_status : Grades 0 (cmdStatus out) := grades_ok fun argv env reply h => by
  rw [cmdStatus] at h
  split at h <;> cases h
  rfl

/-- Every command of the table but two is content with as many words as it asks for. -/
theorem commands_grade : ∀ c ∈ commands out place, c.name ≠ "learn" → c.name ≠ "evolve" →
    Grades (leastWords (literal c.name)) c.handler := by
  have hfixed (calls : List Call) : Grades 0 (prints calls) := grades_prints calls
  have hshows {usage : String} (calls : List CStr → List Call) :
      Grades 2 (needs 2 usage fun argv => prints (calls argv) argv) := grades_prints_needs calls
  have hmoves {usage : String} (calls : List CStr → List Call) :
      Grades 3 (needs 3 usage fun argv => prints (calls argv) argv) := grades_prints_needs calls
  have hecho : Grades 0 cmdEcho := grades_ok fun argv env reply h => by cases h; rfl
  have hls : Grades 0 cmdLs := grades_ok fun argv env reply h => by cases h; rfl
  have hpwd : Grades 0 cmdPwd := grades_ok fun argv env reply h => by cases h; rfl
  simp only [commands, List.forall_mem_cons]
  exact ⟨fun _ _ => hfixed _, fun _ _ => hfixed _, fun _ _ => hfixed _, fun _ _ => hfixed _,
    fun _ _ => hecho, fun _ _ => hls, fun _ _ => hls, fun _ _ => grades_cd, fun _ _ => hpwd,
    fun _ _ => hshows _, fun _ _ => hshows _, fun _ _ => hshows _, fun _ _ => hshows _,
    fun _ _ => hshows _, fun _ _ => hshows _, fun _ _ => hmoves _, fun _ _ => hmoves _,
    fun _ _ => hmoves _, fun _ _ => hmoves _, fun _ _ => hfixed _, fun _ _ => hshows _,
    fun _ _ => grades_meminfo, fun _ _ => grades_meminfo, fun _ _ => hfixed _,
    fun _ _ => hfixed _, fun _ _ => hfixed _, fun _ _ => hfixed _, fun _ _ => hfixed _,
    fun _ _ => hfixed _, fun _ _ => hshows _, fun _ _ => hfixed _, fun _ _ => hfixed _,
    fun _ _ => hfixed _, fun _ _ => hfixed _, fun _ _ => hfixed _, fun _ _ => hfixed _,
    fun _ _ => hfixed _, fun _ _ => grades_jarvis, fun _ _ => grades_jarvis,
    fun h _ => absurd rfl h, fun _ _ => hfixed _, fun _ h => absurd rfl h,
    fun _ _ => grades_search, fun _ _ => grades_status, fun _ _ => hfixed _, fun _ _ => hfixed _,
    fun _ _ => hshows _, fun _ _ => hshows _, fun _ _ => hfixed _,
    fun _ h => absurd h List.not_mem_nil⟩

theorem line_result {env : Env} {line : CStr} {reply : Reply}
    (hlength : line.bytes.length < shellBufferSize)
    (hlearn : (wordsOf line.bytes).head? ≠ some (literal "learn"))
    (hevolve : (wordsOf line.bytes).head? ≠ some (literal "evolve"))
    (hrun : shellLine out place line env = .ok reply) :
    reply.result = verdict out place (wordsOf line.bytes) := by
  obtain ⟨argv, env₁, hline, hargv, -, -⟩ :=
    shellLine_eq place env out hlength
  rw [hline] at hrun
  rw [← hargv] at hlearn hevolve ⊢
  cases argv with
  | nil =>
    cases hrun
    rfl
  | cons cmd rest =>
    rw [shellExecute] at hrun
    rw [List.map_cons, verdict, List.length_map]
    rw [List.map_cons, List.head?_cons, ne_eq, Option.some.injEq] at hlearn hevolve
    split at hrun
    · next c hfind =>
      have hname : cmd.bytes = literal c.name := by simpa using List.find?_some hfind
      have hmem := List.mem_of_find?_eq_some hfind
      have hknown : cmd.bytes ∈ (commands out place).map fun c => literal c.name :=
        hname ▸ List.mem_map_of_mem hmem
      have hgrade := commands_grade c hmem (fun h => hlearn (h ▸ hname)) (fun h => hevolve (h ▸ hname))
        (cmd :: rest) env₁ reply hrun
      rw [if_neg (not_not.mpr hknown), hgrade, hname, List.length_cons]
    · next hnone =>
      have hunknown : cmd.bytes ∉ (commands out place).map fun c => literal c.name := by
        intro hknown
        obtain ⟨c, hc, heq⟩ := List.mem_map.mp hknown
        exact List.find?_eq_none.mp hnone c hc (decide_eq_true heq.symm)
      rw [if_pos hunknown]
      obtain ⟨query, -, hrun⟩ := bind_ok hrun
      obtain ⟨⟨response, env₂⟩, -, hrun⟩ := bind_ok hrun
      cases hrun
      rfl

end

/-- **The results of a session.** Every line that neither learns nor evolves has the result that
its words call for: not found for a word that is no command, invalid for too few words, and
otherwise fine, whatever came before it. -/
theorem session_results (out : Outside) (place : Layout) (env env' : Env) (lines : List CStr)
    (results : List JarResult) (ops : List Vga.Op)
    (hrun : shellTurns out place lines env = .ok (results, ops, env'))
    (hlines : ∀ line ∈ lines, line.bytes.length < shellBufferSize ∧
      (wordsOf line.bytes).head? ≠ some (literal "learn") ∧
      (wordsOf line.bytes).head? ≠ some (literal "evolve")) :
    results = lines.map fun line => verdict out place (wordsOf line.bytes) := by
  induction lines generalizing env results ops with
  | nil =>
    cases hrun
    rfl
  | cons line lines ih =>
    obtain ⟨⟨hlength, hlearn, hevolve⟩, hlines⟩ := List.forall_mem_cons.mp hlines
    obtain ⟨turn, hturn, hrun⟩ := bind_ok hrun
    obtain ⟨⟨rest, ops', env₂⟩, hrest, hrun⟩ := bind_ok hrun
    cases hrun
    obtain ⟨reply, hreply, hturn⟩ := bind_ok hturn
    obtain ⟨ops₁, -, hturn⟩ := bind_ok hturn
    cases hturn
    rw [List.map_cons, ← ih _ _ _ hrest hlines, line_result hlength hlearn hevolve hreply]

theorem session_results_unheard :
    ∃ results ops env', shellTurns idleOutside lowLayout [unheard, unheard] idleEnv =
      .ok (results, ops, env') ∧ results = [.notfound, .notfound] := by
  have htyped : Typed (fun _ => True) unheard := unheard_typed fun _ _ => trivial
  have hplain : unheard.bytes.length < shellBufferSize ∧
      (wordsOf unheard.bytes).head? ≠ some (literal "learn") ∧
      (wordsOf unheard.bytes).head? ≠ some (literal "evolve") := by
    rw [unheard_words]
    exact ⟨htyped.length, by decide, by decide⟩
  obtain ⟨results, ops, env', hrun, -⟩ := turns_ok (fun _ _ => trivial)
    (idleOutside_keeps (fun _ => True) lowLayout) (idleEnv_ready _)
    (List.forall_mem_cons.mpr ⟨htyped, List.forall_mem_singleton.mpr htyped⟩)
  have hresults := session_results idleOutside lowLayout idleEnv env' [unheard, unheard] results
    ops hrun (List.forall_mem_cons.mpr ⟨hplain, List.forall_mem_singleton.mpr hplain⟩)
  exact ⟨results, ops, env', hrun, hresults⟩

end JarJar.ShellCommands
