import JarJar.ShellTable

/- Lines typed at the shell, and sessions of them.

   What is proved, for lines that fit into the buffer of the shell and whose words fit into
   the arrays of the commands: `shell_run` with any of them goes through, and leaves the pen
   grey, the current directory at the root and the knowledge of JARVIS readable
   (`session_runs`). After the screen was cleared it shows the end of all that was printed
   (`session_on_screen`). -/
namespace JarJar.ShellCommands
open Libc Vga Shell

/-- An argument as it is read: up to its first quote. -/
def front (arg : List U8) : List U8 := arg.takeWhile fun b => b ≠ quote

/-- The words the shell makes of a line. -/
def wordsOf (text : List U8) : List (List U8) := ((arguments text).take shellMaxArgs).map front

/-- A line that fits into the buffer, with words that fit into the arrays. -/
structure Typed (P : U8 → Prop) (line : CStr) : Prop where
  bytes : ∀ b ∈ line.bytes, P b
  length : line.bytes.length < shellBufferSize
  room : (joinedArgs 1 line.bytes).length < 1024

/-! ## One line -/

theorem mapM_ok {α β ε : Type} {f : α → Except ε β} {as : List α} {bs : List β}
    (h : List.Forall₂ (fun a b => f a = .ok b) as bs) : as.mapM f = .ok bs := by
  induction h with
  | nil => rfl
  | cons hfirst _ ih =>
    rw [List.mapM_cons, hfirst]
    show (do let rest ← List.mapM f _; return _ :: rest) = _
    rw [ih]
    rfl

section
variable {P : U8 → Prop} {place : Layout} {env : Env} {out : Outside} {line : CStr}

theorem recorded_mem {mem after : Memory} {start ptr : Nat} {text arg : List U8}
    (h : Recorded mem after start (start + text.length) ptr arg) (hline : mem.HasString start text) :
    ∀ b ∈ arg, b ∈ text := by
  intro b hb
  obtain ⟨j, hj, rfl⟩ := List.getElem_of_mem hb
  have hstart := h.start_le
  have hstop := h.le_stop
  obtain ⟨i, rfl⟩ := Nat.exists_eq_add_of_le hstart
  have hi : i + j < text.length := by omega
  have hbyte : text.getD (i + j) 0 = arg.getD j 0 := by
    rw [← hline.getD (Nat.le_of_lt hi), ← h.spells j hj, Nat.add_assoc]
  rw [List.getD_eq_getElem _ _ hi, List.getD_eq_getElem _ _ hj] at hbyte
  exact hbyte ▸ List.getElem_mem hi

theorem parsed_words (size : Nat) {mem : Memory} {start : Nat} {text : List U8}
    (hline : mem.HasString start text) (hsize : text.length < size) :
    ∃ s argv, shellParseLine (text.length + 2) mem start = some s ∧
      s.argv.mapM (stringAt s.mem size) = .ok argv ∧ argv.map CStr.bytes = wordsOf text ∧
      (∀ arg ∈ argv, ∀ b ∈ arg.bytes, b ∈ text) ∧ Touches start (text.length + 1) mem s.mem := by
  obtain ⟨s, text', hrun, hadv, hrecorded⟩ := shellParseLine_spec hline
  suffices h : ∃ argv : List CStr,
      List.Forall₂ (fun ptr arg => stringAt s.mem size ptr = .ok arg) s.argv argv ∧
      argv.map CStr.bytes = wordsOf text ∧ ∀ arg ∈ argv, ∀ b ∈ arg.bytes, b ∈ text by
    obtain ⟨argv, hread, hbytes, hmem⟩ := h
    exact ⟨s, argv, hrun, mapM_ok hread, hbytes, hmem, hadv.touches⟩
  rw [wordsOf]
  generalize s.argv = ptrs, (arguments text).take shellMaxArgs = args at hrecorded
  induction hrecorded with
  | nil => exact ⟨[], .nil, rfl, fun _ h => absurd h List.not_mem_nil⟩
  | @cons ptr arg ptrs args harg _ ih =>
    obtain ⟨argv, hread, hbytes, hmem⟩ := ih
    have hlength : (arg.takeWhile fun b => b ≠ quote).length ≤ arg.length :=
      (List.takeWhile_sublist _).length_le
    have hstop := harg.le_stop
    have hstart := harg.start_le
    refine ⟨⟨_, harg.string.nonzero⟩ :: argv, .cons ?_ hread, congrArg (List.cons _) hbytes,
      List.forall_mem_cons.mpr ⟨fun b hb => ?_, hmem⟩⟩
    · exact stringAt_eq (s := ⟨_, harg.string.nonzero⟩) harg.string (by dsimp only; omega)
    · exact recorded_mem harg hline b ((List.takeWhile_sublist _).mem hb)

theorem concatenated_words {argv : List CStr} {text : List U8}
    (h : argv.map CStr.bytes = wordsOf text) (first : Nat) :
    concatenated (argv.drop first) = joinedArgs first text := by
  calc concatenated (argv.drop first)
      = ((argv.map CStr.bytes).drop first).flatMap (fun bytes => bytes ++ [ch ' ']) := by
        rw [← List.map_drop, List.flatMap_map]
        rfl
    _ = joinedArgs first text := by
        rw [h, wordsOf, ← List.map_drop, List.flatMap_map]
        rfl

variable (out place env) in
theorem shellLine_eq (hlength : line.bytes.length < shellBufferSize) :
    ∃ argv env', shellLine out place line env = shellExecute out place argv env' ∧
      argv.map CStr.bytes = wordsOf line.bytes ∧
      (∀ arg ∈ argv, ∀ b ∈ arg.bytes, b ∈ line.bytes) ∧ env.Same place env' := by
  have hzeroed := Memory.storeAll_touches env.mem place.shellBuffer
    (List.replicate shellBufferSize 0)
  have hstored := Memory.storeAll_touches
    (env.mem.storeAll place.shellBuffer (List.replicate shellBufferSize 0)) place.shellBuffer
    (line.bytes ++ [0])
  rw [List.length_replicate] at hzeroed
  rw [List.length_append, List.length_singleton] at hstored
  obtain ⟨s, argv, hrun, hread, hwords, hmem, htouch⟩ := parsed_words shellBufferSize
    (Memory.storeAll_hasString (t := [])
      (env.mem.storeAll place.shellBuffer (List.replicate shellBufferSize 0)) place.shellBuffer
      line.nonzero) hlength
  refine ⟨argv, env.setMem s.mem, ?_, hwords, hmem, rfl, rfl, fun x hx => ?_⟩
  · rw [shellLine, hrun]
    dsimp only
    rw [hread]
    rfl
  · have hall := (hzeroed.trans (hstored.widen (Nat.le_refl _) (by omega))).trans
      (htouch.widen (Nat.le_refl _) (by omega))
    rw [Layout.Covers] at hx
    exact hall.outside x (by omega)

theorem line_answered (hP : ∀ b, Plain b → P b) (hout : out.Keeps P place)
    (hline : Typed P line) (hready : Ready P place env) :
    Answered P place (∃ rest, wordsOf line.bytes = literal "clear" :: rest ∨
      wordsOf line.bytes = literal "cls" :: rest) (shellLine out place line env) := by
  obtain ⟨argv, env', hrun, hwords, hmem, hsame⟩ :=
    shellLine_eq place env out hline.length
  have hroom : (concatenated (argv.drop 1)).length < 1024 := by
    rw [concatenated_words hwords]
    exact hline.room
  obtain ⟨reply, hreply, henv, htidy, hwipes⟩ := execute_answered hP hout
    ⟨fun arg harg b hb => hline.bytes b (hmem arg harg b hb), hroom⟩ (hready.same hsame)
  refine ⟨reply, hrun.trans hreply, henv, htidy, fun h => ?_⟩
  obtain ⟨cmd, rest, rfl, hcmd⟩ := hwipes h
  rw [List.map_cons] at hwords
  refine ⟨rest.map CStr.bytes, ?_⟩
  rw [← hwords]
  exact hcmd.imp (fun h => by rw [h]) fun h => by rw [h]

theorem tidy_prompt (hP : ∀ b, Plain b → P b) : Tidy P prompt ∧ ∀ call ∈ prompt, call.wipes = false := by
  refine ⟨⟨?_, ?_, rfl⟩, ?_⟩
  · have hend : fits ("", []) = true := rfl
    exact List.forall_mem_cons.mpr ⟨hend, List.forall_mem_cons.mpr
      ⟨(rfl : fits ("%s", [.str]) = true), List.forall_mem_singleton.mpr hend⟩⟩
  · intro call hcall s hs
    have hprompt : .str s ∈ prompt.flatMap Call.args := List.mem_flatMap.mpr ⟨call, hcall, hs⟩
    obtain rfl := Arg.str.inj (List.mem_singleton.mp hprompt)
    intro b hb
    apply hP
    revert b
    decide
  · simp [prompt, Call.wipes]

/-- What a turn of the loop comes to. -/
theorem turn_ok (hP : ∀ b, Plain b → P b) (hout : out.Keeps P place)
    (hline : Typed P line) (hready : Ready P place env) :
    ∃ turn, shellTurn out place line env = .ok turn ∧ Ready P place turn.env ∧
      (∀ c : Console, c.color = grey → (Runs.run Console.step c turn.ops).color = grey) ∧
      ((∀ rest, wordsOf line.bytes ≠ literal "clear" :: rest ∧
        wordsOf line.bytes ≠ literal "cls" :: rest) → ∀ op ∈ turn.ops, Spells P op) := by
  obtain ⟨reply, hrun, henv, htidy, hwipes⟩ := line_answered hP hout hline hready
  obtain ⟨hprompt, hstays⟩ := tidy_prompt hP
  obtain ⟨ops, hops, hgrey, hspells⟩ := (hprompt.append htidy).run hP
  refine ⟨⟨reply.result, ops, reply.env⟩, ?_, henv, hgrey, fun hkeep => hspells ?_⟩
  · rw [shellTurn, hrun]
    show (do let ops ← allOps (prompt ++ reply.calls); return Turn.mk reply.result ops reply.env) = _
    rw [hops]
    rfl
  · intro call hcall
    obtain hcall | hcall := List.mem_append.mp hcall
    · exact hstays call hcall
    · by_contra hwipe
      obtain ⟨rest, hrest⟩ := hwipes ⟨call, hcall, by simpa using hwipe⟩
      exact hrest.elim (hkeep rest).1 (hkeep rest).2

theorem turns_ok (hP : ∀ b, Plain b → P b) (hout : out.Keeps P place) (hready : Ready P place env)
    {lines : List CStr} (hlines : ∀ line ∈ lines, Typed P line) :
    ∃ results ops env', shellTurns out place lines env = .ok (results, ops, env') ∧
      results.length = lines.length ∧ Ready P place env' ∧
      (∀ c : Console, c.color = grey → (Runs.run Console.step c ops).color = grey) ∧
      ((∀ line ∈ lines, ∀ rest, wordsOf line.bytes ≠ literal "clear" :: rest ∧
        wordsOf line.bytes ≠ literal "cls" :: rest) → ∀ op ∈ ops, Spells P op) := by
  induction lines generalizing env with
  | nil =>
    exact ⟨[], [], env, rfl, rfl, hready, fun _ h => h, fun _ _ h => absurd h List.not_mem_nil⟩
  | cons line lines ih =>
    obtain ⟨hline, hlines⟩ := List.forall_mem_cons.mp hlines
    obtain ⟨turn, hturn, henv, hgrey, hspells⟩ := turn_ok hP hout hline hready
    obtain ⟨results, ops, env', hrun, hlength, henv', hgrey', hspells'⟩ := ih henv hlines
    refine ⟨turn.result :: results, turn.ops ++ ops, env', ?_, congrArg (· + 1) hlength, henv',
      fun c hc => ?_, fun hkeep => ?_⟩
    · simp only [shellTurns, hturn, hrun, ok_bind]
      rfl
    · rw [Runs.run, List.foldl_append]
      exact hgrey' _ (hgrey c hc)
    · obtain ⟨hfirst, hrest⟩ := List.forall_mem_cons.mp hkeep
      exact List.forall_mem_append.mpr ⟨hspells hfirst, hspells' hrest⟩

theorem shellInit_ok (hP : ∀ b, Plain b → P b) :
    ∃ ops, allOps shellInit = .ok ops ∧
      (∀ c : Console, (Runs.run Console.step c ops).color = grey) ∧ ∀ op ∈ ops, Spells P op := by
  have hfixed : fixed shellInit = true := by decide +kernel
  obtain ⟨htidy, hwipes⟩ := tidy_fixed (P := P) hfixed
  obtain ⟨ops, hrun, hcolor, hspells⟩ := allOps_run hP htidy.formats htidy.strings
  refine ⟨ops, hrun, fun c => ?_, hspells hwipes⟩
  rw [hcolor, shellInit]
  simp only [List.foldl_cons, List.foldl_nil, say, pen]

theorem run_ok (hP : ∀ b, Plain b → P b) (hout : out.Keeps P place) (hready : Ready P place env)
    {lines : List CStr} (hlines : ∀ line ∈ lines, Typed P line) :
    ∃ results ops env', shellRun out place lines env = .ok (results, ops, env') ∧
      results.length = lines.length ∧ Ready P place env' ∧
      (∀ c : Console, (Runs.run Console.step c ops).color = grey) ∧
      ((∀ line ∈ lines, ∀ rest, wordsOf line.bytes ≠ literal "clear" :: rest ∧
        wordsOf line.bytes ≠ literal "cls" :: rest) → ∀ op ∈ ops, Spells P op) := by
  obtain ⟨banner, hbanner, hreset, hspelled⟩ := shellInit_ok hP
  obtain ⟨results, ops, env', hrun, hlength, henv, hgrey, hspells⟩ := turns_ok hP hout hready hlines
  refine ⟨results, banner ++ ops, env', ?_, hlength, henv, fun c => ?_, fun hkeep => ?_⟩
  · simp only [shellRun, hbanner, hrun, ok_bind]
    rfl
  · rw [Runs.run, List.foldl_append]
    exact hgrey _ (hreset c)
  · exact List.forall_mem_append.mpr ⟨hspelled, hspells hkeep⟩

end

/-! ## Sessions -/

/-- A shell that was just started, with no knowledge yet. -/
def idleEnv : Env := ⟨⟨⟨fun _ => 0, []⟩, 0, 0, some ⟨.init, none, none⟩⟩, rootDirectory⟩

def lowLayout : Layout := ⟨0, 4096, 8192, by decide, by decide, by decide⟩

/-- A mebibyte of memory, and functions that do nothing. -/
def idleOutside : Outside :=
  ⟨⟨1048576, 0, 1048576, 0, 0, 0⟩, CStr.empty, fun _ _ s => (.ok, s), fun s => (.ok, s)⟩

theorem idleEnv_knows (P : U8 → Prop) : Knows P lowLayout [] idleEnv.jarvis :=
  ⟨Option.some_ne_none _, Or.inl ⟨rfl, rfl⟩⟩

theorem idleEnv_ready (P : U8 → Prop) : Ready P lowLayout idleEnv :=
  ⟨⟨[], idleEnv_knows P⟩, rfl⟩

theorem idleOutside_keeps (P : U8 → Prop) (place : Layout) : idleOutside.Keeps P place where
  total := by decide
  stats := fun _ h => absurd h List.not_mem_nil
  learn := fun _ _ _ h => h
  evolve := fun _ h => h

/-- Two words, of which the first is no command. -/
def unheard : CStr := ⟨"what now".toList.map ch, by decide⟩

theorem unheard_typed {P : U8 → Prop} (hP : ∀ b, Plain b → P b) : Typed P unheard where
  bytes := fun b hb => hP b (by revert b; decide)
  length := by decide
  room := by decide

theorem unheard_words : wordsOf unheard.bytes = [literal "what", literal "now"] := rfl

/-- **What a session leaves on the screen.** On a console that was cleared, `shell_run` with
lines of characters that can be seen, none of them a call to clear the screen, ends with the
last rows of all that was printed from the banner on, in whatever colours. -/
theorem session_on_screen (out : Outside) (place : Layout) (env : Env) (lines : List CStr)
    (c : Console) (hout : out.Keeps Plain place) (hready : Ready Plain place env)
    (hlines : ∀ line ∈ lines, Typed Plain line)
    (hkeep : ∀ line ∈ lines, ∀ rest, wordsOf line.bytes ≠ literal "clear" :: rest ∧
      wordsOf line.bytes ≠ literal "cls" :: rest)
    (hwidth : 1 ≤ c.width.toNat) (hheight : 1 ≤ c.height.toNat)
    (hcells : c.width.toNat * c.height.toNat < 2^32) (hscroll : c.scrollEnabled = true) :
    ∃ results ops env', shellRun out place lines env = .ok (results, ops, env') ∧
      let r := layOut c.width.toNat (transcript ops)
      let d := Runs.run Console.step c.clear ops
      (∀ y x, y < c.height.toNat → x < c.width.toNat →
        glyph (d.buffer (y * c.width.toNat + x)) =
          (lineOf c.height.toNat r.all y).getD x (ch ' ')) ∧
      d.cursorX.toNat = r.current.length ∧
      d.cursorY.toNat + 1 = min c.height.toNat r.all.length := by
  obtain ⟨results, ops, env', hrun, -, -, -, hspells⟩ := run_ok (fun _ h => h) hout hready hlines
  exact ⟨results, ops, env', hrun, cleared_shows_transcript c ops hwidth hheight hcells hscroll
    fun op hop => hspells hkeep op hop⟩

theorem session_on_screen_unheard :
    ∃ results ops env', shellRun idleOutside lowLayout [unheard] idleEnv =
      .ok (results, ops, env') ∧
      (Runs.run Console.step (newConsole 80 25).clear ops).cursorY.toNat + 1 =
        min 25 (layOut 80 (transcript ops)).all.length := by
  have hkeep : ∀ rest, wordsOf unheard.bytes ≠ literal "clear" :: rest ∧
      wordsOf unheard.bytes ≠ literal "cls" :: rest := by
    intro rest
    rw [unheard_words]
    constructor <;> exact fun h => absurd (List.cons.inj h).1 (by decide)
  obtain ⟨results, ops, env', hrun, -, -, hrow⟩ :=
    session_on_screen idleOutside lowLayout idleEnv [unheard] (newConsole 80 25)
      (idleOutside_keeps _ _) (idleEnv_ready _)
      (List.forall_mem_singleton.mpr (unheard_typed fun _ h => h))
      (List.forall_mem_singleton.mpr hkeep) (by decide) (by decide) (by decide) rfl
  exact ⟨results, ops, env', hrun, hrow⟩

end JarJar.ShellCommands
