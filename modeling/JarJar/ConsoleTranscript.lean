import JarJar.ConsoleText

/- What a reader of the screen sees, whatever the colours. The colour of the pen and of the
   cells never decides which character goes where: a console and the same console in one
   colour (`inked`) go through the same calls side by side. With that the screen shows the
   end of everything that was printed since it was cleared, in however many calls and
   colours (`run_shows_transcript`).

   Correspondence (C ↔ Lean):
     the character of a cell, `(uint8_t)entry`      ↔ `glyph`
     a byte below `' '` that is no control          ↔ `Silent`
     what a call prints                             ↔ `Op.text`
   A `char` is signed, so the bytes of an accented letter or of a frame are below `' '` and
   leave no trace on the screen. -/
namespace JarJar.Vga
open CountedLoop Libc

def glyph (entry : U16) : U8 := entry.setWidth 8

/-- A byte that `console_putchar` passes over. -/
def Silent (b : U8) : Prop :=
  0x80 ≤ b.toNat ∨ b.toNat < 0x20 ∧ b ≠ ch '\n' ∧ b ≠ ch '\r' ∧ b ≠ ch '\t' ∧ b ≠ 8

instance : DecidablePred Silent := fun b =>
  inferInstanceAs (Decidable (0x80 ≤ b.toNat ∨
    b.toNat < 0x20 ∧ b ≠ ch '\n' ∧ b ≠ ch '\r' ∧ b ≠ ch '\t' ∧ b ≠ 8))

/-- The bytes a call prints. A call that scrolls, clears or is about the cursor has none. -/
def Op.text : Op → Option (List U8)
  | .putchar b => some [b]
  | .puts str => some (str.takeWhile fun b => b ≠ 0)
  | .clear | .setCursorPos _ _ | .scrollUp | .scrollDown | .enableCursor | .disableCursor => none
  | _ => some []

/-- The call prints characters of a text and silent bytes, or sets a colour. -/
def Op.Prints (op : Op) : Prop := ∃ text, op.text = some text ∧ ∀ b ∈ text, IsText b ∨ Silent b

/-- All that a run prints and that leaves a trace. -/
def transcript (ops : List Op) : List U8 :=
  (ops.flatMap fun op => op.text.getD []).filter fun b => ¬ Silent b

theorem glyph_vgaEntry (b color : U8) : glyph (vgaEntry b color) = b := by
  apply BitVec.eq_of_getLsbD_eq
  intro i hi
  simp [glyph, vgaEntry, hi]

namespace Console

/-- The console with the pen and every cell in the colour `k`. -/
def inked (k : U8) (c : Console) : Console :=
  { c with buffer := fun i => vgaEntry (glyph (c.buffer i)) k, color := k }

section
variable {k : U8} {c : Console}

/-! ## One colour, step by step -/

theorem inked_store (i : Nat) (b : U8) :
    (c.store i (vgaEntry b c.color)).inked k =
      (c.inked k).store i (vgaEntry b (c.inked k).color) := by
  have hbuffer : (fun j => vgaEntry (glyph (Function.update c.buffer i (vgaEntry b c.color) j)) k) =
      Function.update (fun j => vgaEntry (glyph (c.buffer j)) k) i (vgaEntry b k) := by
    funext j
    by_cases hj : j = i
    · rw [hj, Function.update_self, Function.update_self, glyph_vgaEntry]
    · rw [Function.update_of_ne hj, Function.update_of_ne hj]
  rw [store, inked, hbuffer]
  rfl

theorem inked_copy (dst src : Nat) : (c.copy dst src).inked k = (c.inked k).copy dst src := by
  have hbuffer : (fun j => vgaEntry (glyph (Function.update c.buffer dst (c.buffer src) j)) k) =
      Function.update (fun j => vgaEntry (glyph (c.buffer j)) k) dst
        (vgaEntry (glyph (c.buffer src)) k) := by
    funext j
    by_cases hj : j = dst
    · rw [hj, Function.update_self, Function.update_self]
    · rw [Function.update_of_ne hj, Function.update_of_ne hj]
  rw [copy, inked, hbuffer]
  rfl

theorem inked_loop {n : Nat} {body : Nat → Console → Console}
    (hbody : ∀ i (d : Console), (body i d).inked k = body i (d.inked k)) :
    (loop n body c).inked k = loop n body (c.inked k) :=
  loop_simulates (R := fun _ (d e : Console) => d.inked k = e) rfl
    fun i _ d e h => by rw [hbody, h]

theorem inked_blankRow (y : U32) : (c.blankRow y).inked k = (c.inked k).blankRow y :=
  inked_loop fun _ _ => inked_store _ _

theorem inked_copyRow (dst src : U32) :
    (c.copyRow dst src).inked k = (c.inked k).copyRow dst src :=
  inked_loop fun _ _ => inked_copy _ _

theorem inked_scrollUp : c.scrollUp.inked k = (c.inked k).scrollUp := by
  have hrows : (loop (c.height - 1).toNat (fun y =>
      copyRow (BitVec.ofNat 32 y) (BitVec.ofNat 32 y + 1)) c).inked k =
      loop (c.height - 1).toNat (fun y => copyRow (BitVec.ofNat 32 y) (BitVec.ofNat 32 y + 1))
        (c.inked k) := inked_loop fun _ _ => inked_copyRow _ _
  have hblank := inked_blankRow (k := k) (c := loop (c.height - 1).toNat (fun y =>
    copyRow (BitVec.ofNat 32 y) (BitVec.ofNat 32 y + 1)) c)
    ((loop (c.height - 1).toNat (fun y =>
      copyRow (BitVec.ofNat 32 y) (BitVec.ofNat 32 y + 1)) c).height - 1)
  rw [hrows] at hblank
  rw [scrollUp]
  refine hblank.trans ?_
  have hheight := congrArg Console.height hrows
  rw [scrollUp]
  exact congrArg (fun n => blankRow (n - 1) _) hheight

theorem inked_place (b : U8) : (c.place b).inked k = (c.inked k).place b := by
  rw [place, place]
  split
  · rfl
  split
  · rfl
  split
  · rfl
  split
  · show Console.inked k (if 0 < c.cursorX then _ else _) = if 0 < c.cursorX then _ else _
    split
    · exact inked_store (c := { c with cursorX := c.cursorX - 1 }) _ _
    · rfl
  split
  · exact congrArg (fun d : Console => { d with cursorX := c.cursorX + 1 }) (inked_store _ b)
  · rfl

theorem inked_wrap : c.wrap.inked k = (c.inked k).wrap := by
  show Console.inked k (if c.width ≤ c.cursorX then _ else _) = if c.width ≤ c.cursorX then _ else _
  split <;> rfl

theorem inked_scrollBelow : c.scrollBelow.inked k = (c.inked k).scrollBelow := by
  show Console.inked k (if c.height ≤ c.cursorY then if c.scrollEnabled then _ else _ else _) =
    if c.height ≤ c.cursorY then if c.scrollEnabled then _ else _ else _
  split
  · split
    · rw [← inked_scrollUp]
      rfl
    · rfl
  · rfl

theorem inked_showCursor : c.showCursor.inked k = (c.inked k).showCursor := by
  show Console.inked k (if c.cursorEnabled then _ else _) = if c.cursorEnabled then _ else _
  split <;> rfl

theorem inked_putchar (b : U8) : (c.putchar b).inked k = (c.inked k).putchar b := by
  rw [putchar, inked_showCursor, inked_scrollBelow, inked_wrap, inked_place, putchar]

/-- `console_putchar` for one byte after the other. -/
def putchars (text : List U8) (c : Console) : Console := text.foldl (fun c b => c.putchar b) c

theorem puts_eq (str : List U8) : puts str c = putchars (str.takeWhile fun b => b ≠ 0) c := by
  induction str generalizing c with
  | nil => rfl
  | cons b str ih =>
    rw [puts]
    by_cases hb : b = 0
    · rw [if_pos hb, List.takeWhile_cons_of_neg (by simpa using hb)]
      rfl
    · rw [if_neg hb, List.takeWhile_cons_of_pos (by simpa using hb), ih]
      rfl

theorem inked_putchars (text : List U8) :
    (c.putchars text).inked k = (c.inked k).putchars text := by
  induction text generalizing c with
  | nil => rfl
  | cons b text ih =>
    show ((c.putchar b).putchars text).inked k = ((c.inked k).putchar b).putchars text
    rw [ih, inked_putchar]

theorem inked_step {op : Op} {text : List U8} (htext : op.text = some text) :
    (c.step op).inked k = (c.inked k).putchars text := by
  cases op with
  | putchar b =>
    obtain rfl := Option.some.inj htext
    exact inked_putchar b
  | puts str =>
    obtain rfl := Option.some.inj htext
    rw [step, puts_eq, inked_putchars]
  | clear | setCursorPos | scrollUp | scrollDown | enableCursor | disableCursor => cases htext
  | _ =>
    obtain rfl := Option.some.inj htext
    rfl

end

/-! ## Silent bytes -/

theorem place_silent {b : U8} (hb : Silent b) (c : Console) : c.place b = c := by
  have hlow : ¬ (ch ' ').toInt ≤ b.toInt := by
    have hlt := b.isLt
    have hcond := BitVec.toInt_eq_toNat_cond b
    have hblank : (ch ' ').toInt = 32 := by decide
    rw [hblank, hcond]
    rcases hb with hb | hb <;> split <;> omega
  have hne (m : U8) (hm : m.toNat < 0x80) (hctl : b.toNat < 0x20 → b ≠ m) : b ≠ m := by
    rcases hb with hb | hb
    · rintro rfl
      omega
    · exact hctl hb.1
  have hctl : b.toNat < 0x20 → b ≠ ch '\n' ∧ b ≠ ch '\r' ∧ b ≠ ch '\t' ∧ b ≠ 8 := fun hlt =>
    (hb.resolve_left (by omega)).2
  rw [place, if_neg (hne _ (by decide) fun h => (hctl h).1),
    if_neg (hne _ (by decide) fun h => (hctl h).2.1),
    if_neg (hne _ (by decide) fun h => (hctl h).2.2.1),
    if_neg (hne _ (by decide) fun h => (hctl h).2.2.2), if_neg hlow]

variable {w h : Nat} {T : List Nat} {c : Console}

theorem Ok.putchar_silent (hc : c.Ok w h T) {b : U8} (hb : Silent b) : c.putchar b = c := by
  have hwrap : c.wrap = c := if_neg (by
    rw [BitVec.le_def, hc.width_eq]
    exact Nat.not_le.mpr hc.cursorX_lt)
  have hbelow : c.scrollBelow = c := if_neg (by
    rw [BitVec.le_def, hc.height_eq]
    exact Nat.not_le.mpr hc.cursorY_lt)
  rw [Console.putchar, place_silent hb, hwrap, hbelow, hc.showCursor_eq]

end Console

/-! ## Runs -/

section
variable {w h : Nat} {T : List Nat} {k : U8} {r : Rows} {c : Console}

/-- A character of the text is added to the rows, a silent byte is not. -/
theorem ShowsText.putchars {text : List U8} (hc : ShowsText w h T k r c)
    (htext : ∀ b ∈ text, IsText b ∨ Silent b) :
    ShowsText w h T k ((text.filter fun b => ¬ Silent b).foldl (Rows.add w) r)
      (c.putchars text) := by
  induction text generalizing r c with
  | nil => exact hc
  | cons b text ih =>
    obtain ⟨hb, hrest⟩ := List.forall_mem_cons.mp htext
    by_cases hsilent : Silent b
    · have hsame : c.putchars (b :: text) = c.putchars text :=
        congrArg (fun d => Console.putchars text d) (hc.toOk.putchar_silent hsilent)
      rw [hsame, List.filter_cons_of_neg (by simpa using hsilent)]
      exact ih hc hrest
    · rw [List.filter_cons_of_pos (by simpa using hsilent), List.foldl_cons]
      exact ih (hc.putchar (hb.resolve_right hsilent)) hrest

theorem ShowsText.run {ops : List Op} (hc : ShowsText w h T k r (c.inked k))
    (hops : ∀ op ∈ ops, op.Prints) :
    ShowsText w h T k ((transcript ops).foldl (Rows.add w) r)
      ((Runs.run Console.step c ops).inked k) := by
  induction ops generalizing r c with
  | nil => exact hc
  | cons op ops ih =>
    obtain ⟨⟨text, htext, hbytes⟩, hrest⟩ := List.forall_mem_cons.mp hops
    have hstep := hc.putchars hbytes
    rw [← Console.inked_step htext] at hstep
    have hsplit : transcript (op :: ops) = (text.filter fun b => ¬ Silent b) ++ transcript ops := by
      rw [transcript, List.flatMap_cons, htext, Option.getD_some, List.filter_append]
      rfl
    rw [hsplit, List.foldl_append]
    exact ih hstep hrest

/-- A screen in one colour looks as it does. -/
theorem ShowsText.inked (hc : ShowsText w h T k r c) : ShowsText w h T k r (c.inked k) :=
  { hc with
    color_eq := rfl
    shows := fun y x hy hx => by
      show vgaEntry (glyph (c.buffer (y * w + x))) k = _
      rw [hc.shows y x hy hx, glyph_vgaEntry] }

end

/-- The screen shows the end of what was printed since it was cleared. -/
theorem cleared_shows_transcript (c : Console) (ops : List Op) (hwidth : 1 ≤ c.width.toNat)
    (hheight : 1 ≤ c.height.toNat) (hcells : c.width.toNat * c.height.toNat < 2^32)
    (hscroll : c.scrollEnabled = true) (hops : ∀ op ∈ ops, op.Prints) :
    let r := layOut c.width.toNat (transcript ops)
    let d := Runs.run Console.step c.clear ops
    (∀ y x, y < c.height.toNat → x < c.width.toNat →
      glyph (d.buffer (y * c.width.toNat + x)) =
        (lineOf c.height.toNat r.all y).getD x (ch ' ')) ∧
    d.cursorX.toNat = r.current.length ∧ d.cursorY.toNat + 1 = min c.height.toNat r.all.length := by
  intro r d
  have hfits := Console.fits_self hwidth hheight hcells
  have hd := (hfits.showsText_clear hscroll).inked.run hops
  refine ⟨fun y x hy hx => ?_, hd.column, hd.line⟩
  calc glyph (d.buffer (y * c.width.toNat + x))
      = glyph ((d.inked c.color).buffer (y * c.width.toNat + x)) := (glyph_vgaEntry _ _).symm
    _ = glyph (vgaEntry ((lineOf c.height.toNat r.all y).getD x (ch ' ')) c.color) := by
      rw [hd.shows y x hy hx]
      rfl
    _ = (lineOf c.height.toNat r.all y).getD x (ch ' ') := glyph_vgaEntry _ _

/-! ## What a call leaves as it is -/

namespace Console
variable {c : Console}

/-- The pen and the flag that nothing but its own call changes. -/
structure SameLook (c d : Console) : Prop where
  color : d.color = c.color
  scrollEnabled : d.scrollEnabled = c.scrollEnabled

theorem SameLook.of_frame {d : Console} (h : d.frame = c.frame) : SameLook c d := by
  have hflag : d.frame.scrollEnabled = c.frame.scrollEnabled := by rw [h]
  exact ⟨color_of_frame h, hflag⟩

theorem SameLook.trans {d e : Console} (h₁ : SameLook c d) (h₂ : SameLook d e) : SameLook c e :=
  ⟨h₂.color.trans h₁.color, h₂.scrollEnabled.trans h₁.scrollEnabled⟩

theorem sameLook_putchar (b : U8) (c : Console) : SameLook c (c.putchar b) := by
  have hplace : SameLook c (c.place b) := by
    rw [place]
    split_ifs <;> exact ⟨rfl, rfl⟩
  have hwrap (d : Console) : SameLook d d.wrap := by
    rw [wrap]
    split_ifs <;> exact ⟨rfl, rfl⟩
  have hbelow (d : Console) : SameLook d d.scrollBelow := by
    have hup := SameLook.of_frame (frame_scrollUp d)
    rw [scrollBelow]
    split_ifs
    · exact ⟨hup.color, hup.scrollEnabled⟩
    · exact ⟨rfl, rfl⟩
    · exact ⟨rfl, rfl⟩
  have hcursor (d : Console) : SameLook d d.showCursor := by
    rw [showCursor]
    split_ifs <;> exact ⟨rfl, rfl⟩
  exact ((hplace.trans (hwrap _)).trans (hbelow _)).trans (hcursor _)

theorem sameLook_putchars (text : List U8) (c : Console) : SameLook c (c.putchars text) := by
  induction text generalizing c with
  | nil => exact ⟨rfl, rfl⟩
  | cons b text ih => exact (sameLook_putchar b c).trans (ih _)

theorem sameLook_clear (c : Console) : SameLook c c.clear := by
  have hrows : (loop c.height.toNat (fun y => blankRow (BitVec.ofNat 32 y)) c).frame = c.frame :=
    loop_keeps (P := fun d : Console => d.frame = c.frame) rfl
      fun _ _ d hd => (frame_blankRow _ d).trans hd
  have hlook := SameLook.of_frame hrows
  exact ⟨hlook.color, hlook.scrollEnabled⟩

theorem scrollEnabled_step (c : Console) (op : Op) : (c.step op).scrollEnabled = c.scrollEnabled := by
  cases op with
  | putchar b => exact (sameLook_putchar b c).scrollEnabled
  | puts str =>
    rw [step, puts_eq]
    exact (sameLook_putchars _ c).scrollEnabled
  | clear => exact (sameLook_clear c).scrollEnabled
  | scrollUp => exact (SameLook.of_frame (frame_scrollUp c)).scrollEnabled
  | scrollDown => exact (SameLook.of_frame (frame_scrollDown c)).scrollEnabled
  | _ => rfl

theorem scrollEnabled_run (ops : List Op) (c : Console) :
    (Runs.run step c ops).scrollEnabled = c.scrollEnabled := by
  induction ops generalizing c with
  | nil => rfl
  | cons op ops ih => exact (ih (c.step op)).trans (scrollEnabled_step c op)

end Console

/-- **The screen is a window on the transcript.** Whatever was called before the screen was
cleared last, and in whatever colours it was printed since: line `y` shows the row of that place
among the last rows of all that was printed since, and the cursor stands behind the last
character. -/
theorem run_shows_transcript (c : Console) (before after : List Op) (hwidth : 1 ≤ c.width.toNat)
    (hheight : 1 ≤ c.height.toNat) (hcells : c.width.toNat * c.height.toNat < 2^32)
    (hx : c.cursorX.toNat < c.width.toNat) (hy : c.cursorY.toNat < c.height.toNat)
    (hscroll : c.scrollEnabled = true) (hafter : ∀ op ∈ after, op.Prints) :
    let r := layOut c.width.toNat (transcript after)
    let d := Runs.run Console.step c (before ++ .clear :: after)
    (∀ y x, y < c.height.toNat → x < c.width.toNat →
      glyph (d.buffer (y * c.width.toNat + x)) =
        (lineOf c.height.toNat r.all y).getD x (ch ' ')) ∧
    d.cursorX.toNat = r.current.length ∧ d.cursorY.toNat + 1 = min c.height.toNat r.all.length := by
  have hok : c.Ok c.width.toNat c.height.toNat c.touched :=
    { Console.fits_self hwidth hheight hcells with cursorX_lt := hx, cursorY_lt := hy }
  have hbefore := Runs.throughout_iff.mp (hok.throughout before) before [] (List.append_nil _).symm
  have hscrolls := (Console.scrollEnabled_run before c).trans hscroll
  intro r d
  have hsplit : d = Runs.run Console.step (Runs.run Console.step c before).clear after :=
    List.foldl_append
  have hshown := cleared_shows_transcript (Runs.run Console.step c before) after
    (by rw [hbefore.width_eq]; exact hwidth) (by rw [hbefore.height_eq]; exact hheight)
    (by rw [hbefore.width_eq, hbefore.height_eq]; exact hcells) hscrolls hafter
  rw [hbefore.width_eq, hbefore.height_eq] at hshown
  rw [hsplit]
  exact hshown

/-- A word in two colours and a byte of a frame, on a console of three columns that was used. -/
theorem run_shows_transcript_colors :
    let d := Runs.run Console.step (newConsole 3 2)
      [.puts [0x63, 0x63, 0x63, 0x63], .clear, .puts [0x61, 0xE2], .aiOutput, .putchar 0x62]
    glyph (d.buffer 1) = 0x62 ∧ d.cursorX.toNat = 2 ∧ d.cursorY.toNat + 1 = 1 := by
  have hafter : ∀ op ∈ ([.puts [0x61, 0xE2], .aiOutput, .putchar 0x62] : List Op), op.Prints := by
    refine List.forall_mem_cons.mpr ⟨⟨[0x61, 0xE2], rfl, ?_⟩, List.forall_mem_cons.mpr
      ⟨⟨[], rfl, ?_⟩, List.forall_mem_singleton.mpr ⟨[0x62], rfl, ?_⟩⟩⟩
    all_goals simp [IsText, Silent]
  obtain ⟨hcells, hx, hy⟩ := run_shows_transcript (newConsole 3 2) [.puts [0x63, 0x63, 0x63, 0x63]]
    [.puts [0x61, 0xE2], .aiOutput, .putchar 0x62] (by decide) (by decide) (by decide) (by decide)
    (by decide) rfl hafter
  exact ⟨hcells 0 1 (by decide) (by decide), hx, hy⟩

end JarJar.Vga
