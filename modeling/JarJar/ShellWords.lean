import JarJar.Shell

/- Lines without quotes. Where no quote stands in it, a line comes apart into its words,
   the stretches without whitespace, and each of them is read back as a C string.

   Correspondence (C ↔ Lean):
     `shell_argc`                             ↔ `out.argv.length`
     `shell_argv[i]`, read as a C string      ↔ `out.mem.HasString`
   What is proved is `parse_line_words`. -/
namespace JarJar.Shell
open Libc Words

theorem marks_unquoted {text : List U8} (hquote : quote ∉ text) :
    marks false text = text.map fun b => (b, false) := by
  induction text with
  | nil => rfl
  | cons b text ih =>
    rw [List.mem_cons, not_or] at hquote
    rw [marks, if_neg (Ne.symm hquote.1), ih hquote.2, List.map_cons]

theorem arguments_unquoted {text : List U8} (hquote : quote ∉ text) :
    arguments text = words isspace text := by
  have hsep : (fun b : U8 => separates (b, false)) = isspace := by
    funext b
    simp [separates]
  have hbytes : (List.map Prod.fst ∘ List.map fun b : U8 => (b, false)) = id := by
    funext word
    simp [Function.comp_def]
  rw [arguments, marks_unquoted hquote, words_map, hsep, List.map_map, hbytes, List.map_id]

theorem Recorded.string_unquoted {mem after : Memory} {line ptr : Nat} {text arg : List U8}
    (h : Recorded mem after line (line + text.length) ptr arg) (hline : mem.HasString line text)
    (hquote : quote ∉ text) : after.HasString ptr arg := by
  have hall : ∀ b ∈ arg, b ≠ quote := by
    intro b hb heq
    obtain ⟨j, hj, rfl⟩ := List.getElem_of_mem hb
    have hstart := h.start_le
    have hstop := h.le_stop
    obtain ⟨i, rfl⟩ := Nat.exists_eq_add_of_le hstart
    have hi : i + j < text.length := by omega
    have hbyte : text.getD (i + j) 0 = arg.getD j 0 := by
      rw [← hline.getD (Nat.le_of_lt hi), ← h.spells j hj, Nat.add_assoc]
    rw [List.getD_eq_getElem _ _ hi, List.getD_eq_getElem _ _ hj, heq] at hbyte
    exact hquote (hbyte ▸ List.getElem_mem hi)
  have hstring := h.string
  rwa [List.takeWhile_eq_self_iff.mpr fun b hb => by simpa using hall b hb] at hstring

/-- **What the shell makes of a line without quotes.** For every memory with such a line in
it: the parser comes to an end with the first words of the line, up to 64 of them, as its
arguments, in order, each read as a C string from inside the line; it changed only
whitespace of the line, and touched nothing outside of the line and its NUL. -/
theorem parse_line_words (mem : Memory) (line : Nat) (text : List U8)
    (hline : mem.HasString line text) (hquote : quote ∉ text) :
    ∃ out, shellParseLine (text.length + 2) mem line = some out ∧
      out.argv.length = min shellMaxArgs (words isspace text).length ∧
      List.Forall₂ (fun ptr word => line ≤ ptr ∧ ptr + word.length ≤ line + text.length ∧
        out.mem.HasString ptr word) out.argv ((words isspace text).take shellMaxArgs) ∧
      (∀ x, out.mem.bytes x ≠ mem.bytes x →
        line ≤ x ∧ x < line + text.length ∧ isspace (mem.bytes x) = true) ∧
      ∀ x ∈ out.mem.touched, x ∈ mem.touched ∨ line ≤ x ∧ x ≤ line + text.length := by
  obtain ⟨out, text', hrun, hadv, hrecorded⟩ := shellParseLine_spec hline
  rw [arguments_unquoted hquote] at hrecorded
  refine ⟨out, hrun, ?_, ?_, ?_, ?_⟩
  · rw [hrecorded.length_eq, List.length_take]
  · apply hrecorded.imp
    intro ptr word hword
    exact ⟨hword.start_le, hword.le_stop, hword.string_unquoted hline hquote⟩
  · intro x hx
    have hinside : line ≤ x ∧ x < line + (text.length + 1) := by
      by_contra hout
      exact hx (hadv.touches.outside x (by dsimp only; omega))
    obtain ⟨j, rfl⟩ := Nat.exists_eq_add_of_le hinside.1
    have hbyte := hline.getD (show j ≤ text.length by omega)
    -- what is neither whitespace nor a quote is kept, and there is no quote
    have hspace : isspace (mem.bytes (line + j)) = true := by
      by_contra hno
      refine hx (hadv.kept _ (Bool.eq_false_iff.mpr hno) fun hq => ?_)
      dsimp only at hq
      rw [hbyte] at hq
      by_cases hj : j < text.length
      · rw [List.getD_eq_getElem _ _ hj] at hq
        exact hquote (hq ▸ List.getElem_mem hj)
      · rw [List.getD_eq_default _ _ (Nat.le_of_not_lt hj)] at hq
        exact quote_ne_nul hq.symm
    refine ⟨hinside.1, ?_, hspace⟩
    by_contra hend
    obtain rfl : j = text.length := by omega
    rw [hbyte, List.getD_eq_default _ _ (Nat.le_refl _), isspace_nul] at hspace
    contradiction
  · intro x hx
    refine (hadv.touches.touched x hx).imp_right fun h => ?_
    dsimp only at h
    omega

/-- Blanks on both sides of two words: `  ls  a `. -/
theorem parse_line_words_ls :
    let text := "  ls  a ".toList.map ch
    let mem : Memory := ⟨fun x => text.getD x 0, []⟩
    ∃ out, shellParseLine (text.length + 2) mem 0 = some out ∧ out.argv.length = 2 := by
  intro text mem
  obtain ⟨out, hrun, hargc, -⟩ := parse_line_words mem 0 text (by decide) (by decide)
  exact ⟨out, hrun, hargc.trans (by decide)⟩

end JarJar.Shell
