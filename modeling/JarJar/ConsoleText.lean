import JarJar.Types
import JarJar.ConsoleBounds
import Mathlib.Data.List.GetD

/- What a text looks like on the console. The text is a list of rows with no end to
   their number; the screen shows the last of them. The rows grow with the text, one
   character at a time, and the cells follow: a scroll, which copies the rows of the
   screen in place, is the same as looking at the rows from one further down.

   Correspondence (C ↔ Lean):
     the text laid out into rows   ↔ `Rows`, `layOut` (of the console's width)
     what is on the screen         ↔ `Shows` -/
namespace JarJar.Vga
open CountedLoop Libc

namespace Console
variable {w h : Nat} {T : List Nat} {c : Console}

/-! ## The cells after scrolling -/

theorem cell_inj {y y' x x' : Nat} (hx : x < w) (hx' : x' < w) (heq : y * w + x = y' * w + x') :
    y = y' ∧ x = x' := by
  have hpos : 0 < w := by omega
  have hy : (y * w + x) / w = y := by
    rw [Nat.mul_comm, Nat.mul_add_div hpos, Nat.div_eq_of_lt hx, Nat.add_zero]
  have hy' : (y' * w + x') / w = y' := by
    rw [Nat.mul_comm, Nat.mul_add_div hpos, Nat.div_eq_of_lt hx', Nat.add_zero]
  have hrow : y = y' := by rw [← hy, heq, hy']
  subst hrow
  exact ⟨rfl, by omega⟩

theorem store_cell {y x y' x' : Nat} {v : U16} (hx : x < w) (hx' : x' < w) :
    (c.store (y * w + x) v).buffer (y' * w + x') =
      if y' = y ∧ x' = x then v else c.buffer (y' * w + x') := by
  show Function.update c.buffer (y * w + x) v (y' * w + x') = _
  by_cases hsame : y' = y ∧ x' = x
  · obtain ⟨rfl, rfl⟩ := hsame
    rw [if_pos ⟨rfl, rfl⟩, Function.update_self]
  · rw [if_neg hsame, Function.update_of_ne]
    exact fun heq => hsame (cell_inj hx' hx heq)

theorem color_of_frame {d : Console} (hd : d.frame = c.frame) : d.color = c.color := by
  have hcolor : d.frame.color = c.frame.color := by rw [hd]
  exact hcolor

/-- A console on the way through a loop over cells: the screen is the same, and `view`
says what the cells are. -/
structure Midway (w h : Nat) (T : List Nat) (c : Console) (view : Nat → Nat → U16) (d : Console) : Prop
    extends d.Fits w h T where
  frame_eq : d.frame = c.frame
  cell_eq : ∀ y x, x < w → d.buffer (y * w + x) = view y x

theorem Fits.midway (hc : c.Fits w h T) : Midway w h T c (fun y x => c.buffer (y * w + x)) c :=
  { hc with frame_eq := rfl, cell_eq := fun _ _ _ => rfl }

theorem Midway.congr {view view' : Nat → Nat → U16} {d : Console} (hd : Midway w h T c view d)
    (hsame : ∀ y x, x < w → view y x = view' y x) : Midway w h T c view' d :=
  { hd with cell_eq := fun y x hx => (hd.cell_eq y x hx).trans (hsame y x hx) }

theorem Midway.blankRow {view : Nat → Nat → U16} {d : Console} (hd : Midway w h T c view d) {y : U32}
    (hy : y.toNat < h) :
    Midway w h T c (fun y' x => if y' = y.toNat then c.blank else view y' x) (d.blankRow y) := by
  have hloop : Midway w h T c (fun y' x => if y' = y.toNat ∧ x < w then c.blank else view y' x)
      (d.blankRow y) := by
    rw [Console.blankRow, hd.width_eq]
    refine loop_invariant
      (P := fun n => Midway w h T c fun y' x => if y' = y.toNat ∧ x < n then c.blank else view y' x)
      (hd.congr fun y' x _ => ?_) fun n hn e he => ?_
    · rw [if_neg fun hlt => absurd hlt.2 (Nat.not_lt_zero x)]
    · have hcolumn := he.toNat_ofNat_column hn
      have hindex : e.index y (BitVec.ofNat 32 n) = y.toNat * w + n := by
        rw [he.index_eq hy (by rw [hcolumn]; exact hn), hcolumn]
      have hblank : e.blank = c.blank := congrArg (vgaEntry (ch ' ')) (color_of_frame he.frame_eq)
      rw [hindex, hblank]
      refine { he.toFits.store (cell_lt hy hn) c.blank with
        frame_eq := he.frame_eq, cell_eq := fun y' x hx => ?_ }
      rw [store_cell hn hx, he.cell_eq y' x hx]
      grind
  exact hloop.congr fun y' x hx => by simp only [hx, and_true]

theorem Midway.copyRow {view : Nat → Nat → U16} {d : Console} (hd : Midway w h T c view d)
    {dst src : U32} (hdst : dst.toNat < h) (hsrc : src.toNat < h) (hne : src.toNat ≠ dst.toNat) :
    Midway w h T c (fun y' x => if y' = dst.toNat then view src.toNat x else view y' x)
      (d.copyRow dst src) := by
  have hloop : Midway w h T c
      (fun y' x => if y' = dst.toNat ∧ x < w then view src.toNat x else view y' x)
      (d.copyRow dst src) := by
    rw [Console.copyRow, hd.width_eq]
    refine loop_invariant
      (P := fun n => Midway w h T c fun y' x =>
        if y' = dst.toNat ∧ x < n then view src.toNat x else view y' x)
      (hd.congr fun y' x _ => ?_) fun n hn e he => ?_
    · rw [if_neg fun hlt => absurd hlt.2 (Nat.not_lt_zero x)]
    · have hcolumn := he.toNat_ofNat_column hn
      have hindex (y : U32) (hy : y.toNat < h) : e.index y (BitVec.ofNat 32 n) = y.toNat * w + n := by
        rw [he.index_eq hy (by rw [hcolumn]; exact hn), hcolumn]
      rw [hindex dst hdst, hindex src hsrc]
      -- the row that is read has not been written
      have hread : e.buffer (src.toNat * w + n) = view src.toNat n := by
        rw [he.cell_eq _ _ hn, if_neg fun heq => hne heq.1]
      refine { he.toFits.copy (cell_lt hdst hn) (cell_lt hsrc hn) with
        frame_eq := he.frame_eq, cell_eq := fun y' x hx => ?_ }
      have hstore : (e.store (dst.toNat * w + n) (view src.toNat n)).buffer (y' * w + x) =
          if y' = dst.toNat ∧ x = n then view src.toNat n else e.buffer (y' * w + x) :=
        store_cell hn hx
      show Function.update e.buffer (dst.toNat * w + n) (e.buffer (src.toNat * w + n)) (y' * w + x) = _
      rw [hread]
      refine hstore.trans ?_
      rw [he.cell_eq y' x hx]
      grind
  exact hloop.congr fun y' x hx => by simp only [hx, and_true]

theorem Midway.rowsUp {view : Nat → Nat → U16} {d : Console} (hd : Midway w h T c view d) {n : Nat}
    (hn : n ≤ h - 1) :
    Midway w h T c (fun y x => if y < n then view (y + 1) x else view y x)
      (loop n (fun y => Console.copyRow (BitVec.ofNat 32 y) (BitVec.ofNat 32 y + 1)) d) := by
  refine loop_invariant
    (P := fun k => Midway w h T c fun y x => if y < k then view (y + 1) x else view y x)
    (hd.congr fun y x _ => ?_) fun k hk e he => ?_
  · rw [if_neg (Nat.not_lt_zero y)]
  · have hrow := he.toNat_ofNat_row (y := k) (by omega)
    have hnext := he.toNat_nextRow (y := k) (by omega)
    refine (he.copyRow (by omega) (by omega) (by omega)).congr fun y x _ => ?_
    rw [hrow, hnext]
    grind

theorem Fits.scrollUp_cell (hc : c.Fits w h T) {y x : Nat} (hy : y < h) (hx : x < w) :
    c.scrollUp.buffer (y * w + x) =
      if y + 1 = h then c.blank else c.buffer ((y + 1) * w + x) := by
  have hrows := hc.midway.rowsUp (Nat.le_refl (h - 1))
  have hpos := hc.height_pos
  have hup := hrows.blankRow (y := (loop (h - 1) (fun y => Console.copyRow (BitVec.ofNat 32 y)
    (BitVec.ofNat 32 y + 1)) c).height - 1) (by rw [hrows.lastRow_eq]; omega)
  rw [hrows.lastRow_eq] at hup
  rw [Console.scrollUp, hc.lastRow_eq]
  refine (hup.cell_eq y x hx).trans ?_
  grind

theorem Fits.clear_cell (hc : c.Fits w h T) {y x : Nat} (hy : y < h) (hx : x < w) :
    c.clear.buffer (y * w + x) = c.blank := by
  have hrows : Midway w h T c (fun y x => if y < h then c.blank else c.buffer (y * w + x))
      (loop h (fun y => Console.blankRow (BitVec.ofNat 32 y)) c) := by
    refine loop_invariant
      (P := fun k => Midway w h T c fun y x => if y < k then c.blank else c.buffer (y * w + x))
      (hc.midway.congr fun y x _ => ?_) fun k hk e he => ?_
    · rw [if_neg (Nat.not_lt_zero y)]
    · have hrow := he.toNat_ofNat_row hk
      refine (he.blankRow (by omega)).congr fun y x _ => ?_
      rw [hrow]
      grind
  have hcell := hrows.cell_eq y x hx
  rw [if_pos hy] at hcell
  rw [Console.clear, hc.height_eq]
  exact hcell

theorem Fits.clear_frame (hc : c.Fits w h T) :
    c.clear.color = c.color ∧ c.clear.scrollEnabled = c.scrollEnabled ∧
      c.clear.cursorX = 0 ∧ c.clear.cursorY = 0 := by
  have hrows : (loop c.height.toNat (fun y => Console.blankRow (BitVec.ofNat 32 y)) c).frame = c.frame :=
    loop_keeps (P := fun d : Console => d.frame = c.frame) rfl
      fun _ _ d hd => (frame_blankRow _ d).trans hd
  rw [Console.clear]
  generalize loop c.height.toNat (fun y => Console.blankRow (BitVec.ofNat 32 y)) c = d at hrows
  have hscroll : d.frame.scrollEnabled = c.frame.scrollEnabled := by rw [hrows]
  have hwidth : d.frame.width = c.frame.width := by rw [hrows]
  have hheight : d.frame.height = c.frame.height := by rw [hrows]
  have hwidth' : ¬ d.width ≤ 0 := by
    rw [show d.width = c.width from hwidth, BitVec.le_def, hc.width_eq]
    exact Nat.not_le.mpr hc.width_pos
  have hheight' : ¬ d.height ≤ 0 := by
    rw [show d.height = c.height from hheight, BitVec.le_def, hc.height_eq]
    exact Nat.not_le.mpr hc.height_pos
  have hcolor := color_of_frame hrows
  exact ⟨hcolor, hscroll, if_neg hwidth', if_neg hheight'⟩

end Console

/-! ## Text -/

/-- A text laid out into rows: the rows that are complete, and the one being written. -/
structure Rows where
  done : List (List U8)
  current : List U8

namespace Rows

def all (r : Rows) : List (List U8) := r.done ++ [r.current]

/-- One more character. A new row starts after a newline, and after the `w`-th character
of a row. -/
def add (w : Nat) (r : Rows) (b : U8) : Rows :=
  if b = ch '\n' then ⟨r.done ++ [r.current], []⟩
  else if r.current.length + 1 = w then ⟨r.done ++ [r.current ++ [b]], []⟩
  else ⟨r.done, r.current ++ [b]⟩

end Rows

def layOut (w : Nat) (text : List U8) : Rows := text.foldl (Rows.add w) ⟨[], []⟩

/-- The row in line `y` of a screen of `h` lines that shows the last of the rows. -/
def lineOf (h : Nat) (rows : List (List U8)) (y : Nat) : List U8 :=
  (rows.drop (rows.length - h)).getD y []

/-- A character a text is made of: a newline, or printable. -/
def IsText (b : U8) : Prop := b = ch '\n' ∨ 0x20 ≤ b.toNat ∧ b.toNat ≤ 0x7E

/-- The screen shows the last of the rows in the colour `color`, blanks elsewhere. -/
def ShowsRows (w h : Nat) (color : U8) (rows : List (List U8)) (c : Console) : Prop :=
  ∀ y x, y < h → x < w →
    c.buffer (y * w + x) = vgaEntry ((lineOf h rows y).getD x (ch ' ')) color

section
variable {w h : Nat} {T : List Nat} {rows : List (List U8)} {row row' : List U8} {c : Console} {color : U8}

theorem lineOf_eq (h : Nat) (rows : List (List U8)) (y : Nat) :
    lineOf h rows y = rows.getD (rows.length - h + y) [] := by
  rw [lineOf, List.getD_eq_getElem?_getD, List.getD_eq_getElem?_getD, List.getElem?_drop]

theorem lineOf_snoc {y : Nat} (hy : y < h) : lineOf h (rows ++ [row]) y =
    if y + 1 = min h (rows.length + 1) then row else rows.getD (rows.length + 1 - h + y) [] := by
  rw [lineOf_eq, List.length_append, List.length_singleton]
  by_cases hlast : y + 1 = min h (rows.length + 1)
  · have hindex : rows.length + 1 - h + y = rows.length := by omega
    rw [if_pos hlast, hindex, List.getD_append_right _ _ _ _ (Nat.le_refl _), Nat.sub_self]
    rfl
  · rw [if_neg hlast]
    by_cases hin : rows.length + 1 - h + y < rows.length
    · exact List.getD_append _ _ _ _ hin
    · rw [List.getD_eq_default _ _ (by rw [List.length_append, List.length_singleton]; omega),
        List.getD_eq_default _ _ (by omega)]

theorem lineOf_snoc_nil_of_lt {y : Nat} (hy : y < h) (hlt : rows.length < h) :
    lineOf h (rows ++ [[]]) y = lineOf h rows y := by
  rw [lineOf_snoc hy, lineOf_eq]
  split
  · rw [List.getD_eq_default _ _ (by omega)]
  · congr 1
    omega

theorem lineOf_snoc_nil_of_le {y : Nat} (hy : y < h) (hle : h ≤ rows.length) :
    lineOf h (rows ++ [[]]) y = if y + 1 = h then [] else lineOf h rows (y + 1) := by
  rw [lineOf_snoc hy, lineOf_eq]
  by_cases hlast : y + 1 = h
  · rw [if_pos (by omega), if_pos hlast]
  · rw [if_neg (by omega), if_neg hlast]
    congr 1
    omega

/-! ## One character -/

/-- The console after a text that was laid out into the rows `r`. -/
structure ShowsText (w h : Nat) (T : List Nat) (color : U8) (r : Rows) (c : Console) : Prop extends c.Ok w h T where
  color_eq : c.color = color
  scrolls : c.scrollEnabled = true
  shows : ShowsRows w h color r.all c
  room : r.current.length < w
  column : c.cursorX.toNat = r.current.length
  line : c.cursorY.toNat + 1 = min h r.all.length

theorem Console.Ok.showCursor_eq (hc : c.Ok w h T) : c.showCursor = c := by
  have hx : ¬ c.width ≤ c.cursorX := by
    rw [BitVec.le_def, hc.width_eq]
    exact Nat.not_le.mpr hc.cursorX_lt
  have hy : ¬ c.height ≤ c.cursorY := by
    rw [BitVec.le_def, hc.height_eq]
    exact Nat.not_le.mpr hc.cursorY_lt
  rw [Console.showCursor, Console.setCursorPos, if_neg hx, if_neg hy, ite_self]

theorem ShowsRows.newRow_below (hshows : ShowsRows w h color rows c) (hc : c.Fits w h T)
    (hcolor : c.color = color) (hscroll : c.scrollEnabled = true) (hx : c.cursorX = 0)
    (hy : c.cursorY.toNat = rows.length) (hroom : rows.length < h) :
    ShowsText w h T color ⟨rows, []⟩ c := by
  have hx' : c.cursorX.toNat = 0 := by rw [hx]; rfl
  refine { hc with
    cursorX_lt := by rw [hx']; exact hc.width_pos
    cursorY_lt := by rw [hy]; exact hroom
    color_eq := hcolor
    scrolls := hscroll
    shows := fun y x hy hx => ?_
    room := hc.width_pos
    column := hx'
    line := ?_ }
  · show c.buffer (y * w + x) = vgaEntry ((lineOf h (rows ++ [[]]) y).getD x (ch ' ')) color
    rw [lineOf_snoc_nil_of_lt hy hroom]
    exact hshows y x hy hx
  · show c.cursorY.toNat + 1 = min h (rows ++ [[]]).length
    rw [hy, List.length_append, List.length_singleton]
    omega

/-- On a full screen everything moves up for the new row. -/
theorem ShowsRows.newRow_full (hshows : ShowsRows w h color rows c) (hc : c.Fits w h T)
    (hcolor : c.color = color) (hscroll : c.scrollEnabled = true) (hx : c.cursorX = 0)
    (hfull : h ≤ rows.length) :
    ShowsText w h T color ⟨rows, []⟩ { c.scrollUp with cursorY := c.scrollUp.height - 1 } := by
  have hframe := Console.frame_scrollUp c
  have hflag : c.scrollUp.frame.scrollEnabled = c.frame.scrollEnabled := by rw [hframe]
  have hlastRow := hc.scrollUp.lastRow_eq
  have hpos := hc.height_pos
  have hx' : c.scrollUp.cursorX.toNat = 0 := by
    rw [(Console.cursor_of_frame hframe).1, hx]
    rfl
  refine { hc.scrollUp.cursor _ _ with
    cursorX_lt := by rw [hx']; exact hc.width_pos
    cursorY_lt := by rw [hlastRow]; omega
    color_eq := (Console.color_of_frame hframe).trans hcolor
    scrolls := Eq.trans hflag hscroll
    shows := fun y x hy hx => ?_
    room := hc.width_pos
    column := hx'
    line := ?_ }
  · have hcell := hc.scrollUp_cell hy hx
    show c.scrollUp.buffer (y * w + x) = vgaEntry ((lineOf h (rows ++ [[]]) y).getD x (ch ' ')) color
    rw [hcell, lineOf_snoc_nil_of_le hy hfull]
    by_cases hlast : y + 1 = h
    · rw [if_pos hlast, if_pos hlast, Console.blank, hcolor]
      rfl
    · rw [if_neg hlast, if_neg hlast]
      exact hshows (y + 1) x (by omega) hx
  · show (c.scrollUp.height - 1).toNat + 1 = min h (rows ++ [[]]).length
    rw [hlastRow, List.length_append, List.length_singleton]
    omega

/-- The cursor below the rows on the screen: a new row starts, for which the screen
scrolls when it is full. -/
theorem ShowsRows.newRow (hshows : ShowsRows w h color rows c) (hc : c.Fits w h T)
    (hcolor : c.color = color) (hscroll : c.scrollEnabled = true) (hx : c.cursorX = 0)
    (hy : c.cursorY.toNat = min h rows.length) :
    ShowsText w h T color ⟨rows, []⟩ c.scrollBelow := by
  have hbelow : c.height ≤ c.cursorY ↔ h ≤ rows.length := by
    rw [BitVec.le_def, hc.height_eq, hy]
    omega
  by_cases hfull : h ≤ rows.length
  · rw [Console.scrollBelow, if_pos (hbelow.mpr hfull), if_pos hscroll]
    exact hshows.newRow_full hc hcolor hscroll hx hfull
  · rw [Console.scrollBelow, if_neg fun hle => hfull (hbelow.mp hle)]
    exact hshows.newRow_below hc hcolor hscroll hx (by omega) (by omega)

theorem ShowsText.store {r : Rows} (hc : ShowsText w h T color r c) (b : U8) :
    ShowsRows w h color (r.done ++ [r.current ++ [b]])
      (c.store (c.index c.cursorY c.cursorX) (vgaEntry b c.color)) := by
  intro y x hy hx
  have hline := hc.line
  rw [Rows.all, List.length_append, List.length_singleton] at hline
  have hold := hc.shows y x hy hx
  rw [Rows.all, lineOf_snoc hy] at hold
  rw [hc.index_eq hc.cursorY_lt hc.cursorX_lt, hc.column, hc.color_eq,
    Console.store_cell hc.room hx, lineOf_snoc hy]
  by_cases hlast : y + 1 = min h (r.done.length + 1)
  · rw [if_pos hlast] at hold ⊢
    have hrow : y = c.cursorY.toNat := by omega
    obtain hleft | rfl | hright := Nat.lt_trichotomy x r.current.length
    · rw [if_neg (by omega), hold, List.getD_append _ _ _ _ hleft]
    · rw [if_pos ⟨hrow, rfl⟩, List.getD_append_right _ _ _ _ (Nat.le_refl _), Nat.sub_self]
      rfl
    · rw [if_neg (by omega), hold, List.getD_eq_default _ _ (by omega),
        List.getD_eq_default _ _ (by rw [List.length_append, List.length_singleton]; omega)]
  · rw [if_neg hlast] at hold ⊢
    rw [if_neg (by omega), hold]

theorem ShowsText.newline {r : Rows} (hc : ShowsText w h T color r c) :
    ShowsText w h T color ⟨r.all, []⟩ (c.putchar (ch '\n')) := by
  have hplace : c.place (ch '\n') = { c with cursorX := 0, cursorY := c.cursorY + 1 } := by
    rw [Console.place, if_pos rfl]
  have hwrap : ({ c with cursorX := 0, cursorY := c.cursorY + 1 } : Console).wrap =
      { c with cursorX := 0, cursorY := c.cursorY + 1 } := by
    apply if_neg
    rw [BitVec.le_def, hc.width_eq]
    exact Nat.not_le.mpr hc.width_pos
  have hnext : (c.cursorY + 1).toNat = min h r.all.length := by
    have hy := hc.cursorY_lt
    have hlt := c.height.isLt
    rw [hc.height_eq] at hlt
    rw [← hc.line, BitVec.toNat_add]
    exact Nat.mod_eq_of_lt (by show c.cursorY.toNat + 1 < 2^32; omega)
  have hrow := ShowsRows.newRow (c := { c with cursorX := 0, cursorY := c.cursorY + 1 }) hc.shows
    (hc.toFits.cursor _ _) hc.color_eq hc.scrolls rfl hnext
  rw [Console.putchar, hplace, hwrap, hrow.toOk.showCursor_eq]
  exact hrow

/-- The console after `place` has written the character `b`. -/
def Console.placed (c : Console) (b : U8) : Console :=
  { c.store (c.index c.cursorY c.cursorX) (vgaEntry b c.color) with cursorX := c.cursorX + 1 }

theorem place_printable {b : U8} (hb : 0x20 ≤ b.toNat ∧ b.toNat ≤ 0x7E) :
    c.place b = c.placed b := by
  have hne (k : U8) (hk : k.toNat < 0x20) : b ≠ k := by
    intro heq
    rw [heq] at hb
    omega
  have hsigned : (ch ' ').toInt ≤ b.toInt := by
    rw [BitVec.toInt_eq_toNat_of_lt (x := b) (by omega)]
    show (32 : Int) ≤ _
    omega
  rw [Console.place, if_neg (hne (ch '\n') (by decide)), if_neg (hne (ch '\r') (by decide)),
    if_neg (hne (ch '\t') (by decide)), if_neg (hne 8 (by decide)), if_pos hsigned]
  rfl

theorem ShowsText.next_toNat {r : Rows} (hc : ShowsText w h T color r c) :
    (c.cursorX + 1).toNat = r.current.length + 1 := by
  have hlt := c.width.isLt
  have hroom := hc.room
  rw [hc.width_eq] at hlt
  rw [BitVec.toNat_add, hc.column]
  exact Nat.mod_eq_of_lt (by show r.current.length + 1 < 2^32; omega)

theorem ShowsText.fits_placed {r : Rows} (hc : ShowsText w h T color r c) (b : U8) :
    (c.placed b).Fits w h T :=
  (hc.toFits.store (hc.index_lt hc.cursorY_lt hc.cursorX_lt) (vgaEntry b c.color)).cursor
    (c.cursorX + 1) c.cursorY

theorem ShowsText.grows {r : Rows} (hc : ShowsText w h T color r c) (b : U8)
    (hroom : r.current.length + 1 < w) :
    ShowsText w h T color ⟨r.done, r.current ++ [b]⟩ (c.placed b).wrap.scrollBelow := by
  have hnext := hc.next_toNat
  have hright : ¬ c.width ≤ c.cursorX + 1 := by
    rw [BitVec.le_def, hc.width_eq, hnext]
    omega
  have hbelow : ¬ c.height ≤ c.cursorY := by
    rw [BitVec.le_def, hc.height_eq]
    exact Nat.not_le.mpr hc.cursorY_lt
  have hwrap : (c.placed b).wrap = c.placed b := if_neg hright
  have hstays : (c.placed b).scrollBelow = c.placed b := if_neg hbelow
  have hline := hc.line
  rw [Rows.all, List.length_append, List.length_singleton] at hline
  rw [hwrap, hstays]
  exact { hc.fits_placed b with
    cursorX_lt := by show (c.cursorX + 1).toNat < w; omega
    cursorY_lt := hc.cursorY_lt
    color_eq := hc.color_eq
    scrolls := hc.scrolls
    shows := hc.store b
    room := by rw [List.length_append, List.length_singleton]; omega
    column := by rw [List.length_append, List.length_singleton]; exact hnext
    line := by
      rw [Rows.all, List.length_append, List.length_singleton]
      exact hline }

theorem ShowsText.fills {r : Rows} (hc : ShowsText w h T color r c) (b : U8)
    (hfull : r.current.length + 1 = w) :
    ShowsText w h T color ⟨r.done ++ [r.current ++ [b]], []⟩ (c.placed b).wrap.scrollBelow := by
  have hright : c.width ≤ c.cursorX + 1 := by
    rw [BitVec.le_def, hc.width_eq, hc.next_toNat]
    omega
  have hwrap : (c.placed b).wrap = { c.placed b with cursorX := 0, cursorY := c.cursorY + 1 } :=
    if_pos hright
  have hline := hc.line
  have hy : (c.cursorY + 1).toNat = min h (r.done ++ [r.current ++ [b]]).length := by
    have hylt := hc.cursorY_lt
    have hhlt := c.height.isLt
    rw [hc.height_eq] at hhlt
    rw [Rows.all, List.length_append, List.length_singleton] at hline
    rw [List.length_append, List.length_singleton, ← hline, BitVec.toNat_add]
    exact Nat.mod_eq_of_lt (by show c.cursorY.toNat + 1 < 2^32; omega)
  have hrows : ShowsRows w h color (r.done ++ [r.current ++ [b]])
      { c.placed b with cursorX := 0, cursorY := c.cursorY + 1 } := hc.store b
  rw [hwrap]
  exact hrows.newRow ((hc.fits_placed b).cursor _ _) hc.color_eq hc.scrolls rfl hy

/-- A printable character: the row grows, and when it is full a new one starts. -/
theorem ShowsText.printable {r : Rows} {b : U8} (hc : ShowsText w h T color r c)
    (hb : 0x20 ≤ b.toNat ∧ b.toNat ≤ 0x7E) : ShowsText w h T color (r.add w b) (c.putchar b) := by
  have hnotnl : b ≠ ch '\n' := by
    intro heq
    rw [heq] at hb
    exact absurd hb.1 (by decide)
  have hroom := hc.room
  rw [Console.putchar, place_printable hb, Rows.add, if_neg hnotnl]
  by_cases hfull : r.current.length + 1 = w
  · have hnew := hc.fills b hfull
    rw [if_pos hfull, hnew.toOk.showCursor_eq]
    exact hnew
  · have hnew := hc.grows b (by omega)
    rw [if_neg hfull, hnew.toOk.showCursor_eq]
    exact hnew

theorem ShowsText.putchar {r : Rows} {b : U8} (hc : ShowsText w h T color r c) (hb : IsText b) :
    ShowsText w h T color (r.add w b) (c.putchar b) := by
  cases hb with
  | inl hnewline =>
    rw [hnewline, Rows.add, if_pos rfl]
    exact hc.newline
  | inr hprintable => exact hc.printable hprintable

theorem ShowsText.puts {r : Rows} {text : List U8} (hc : ShowsText w h T color r c)
    (htext : ∀ b ∈ text, IsText b) :
    ShowsText w h T color (text.foldl (Rows.add w) r) (Console.puts text c) := by
  induction text generalizing r c with
  | nil => exact hc
  | cons b text ih =>
    have hb := htext b List.mem_cons_self
    have hnul : b ≠ 0 := by
      intro heq
      rw [heq] at hb
      exact absurd hb (by rintro (hnl | hpr); exacts [absurd hnl (by decide), absurd hpr.1 (by decide)])
    rw [Console.puts, if_neg hnul, List.foldl_cons]
    exact ih (hc.putchar hb) fun b' hb' => htext b' (List.mem_cons_of_mem _ hb')

theorem Console.Fits.showsText_clear (hc : c.Fits w h T) (hscroll : c.scrollEnabled = true) :
    ShowsText w h T c.color ⟨[], []⟩ c.clear := by
  have hpos := hc.height_pos
  obtain ⟨hcolor, hflag, hx, hy⟩ := hc.clear_frame
  refine { hc.clear with
    color_eq := hcolor
    scrolls := hflag.trans hscroll
    shows := fun y x hyh hxw => ?_
    room := hc.width_pos
    column := by rw [hx]; rfl
    line := ?_ }
  · rw [hc.clear_cell hyh hxw, Console.blank, lineOf_eq]
    have hempty : ([[]] : List (List U8)).getD (1 - h + y) [] = [] := by
      cases 1 - h + y with
      | zero => rfl
      | succ n => rfl
    show _ = vgaEntry (List.getD (([[]] : List (List U8)).getD (1 - h + y) []) x (ch ' ')) c.color
    rw [hempty]
    rfl
  · rw [hy]
    show 0 + 1 = min h 1
    omega

end

/-- A text written on a cleared console: line `y` shows the row of that place among the
last rows of the text, blanks follow it, and the cursor stands behind the last
character of the last row. -/
theorem puts_shows_tail (c : Console) (text : List U8) (hwidth : 1 ≤ c.width.toNat)
    (hheight : 1 ≤ c.height.toNat) (hcells : c.width.toNat * c.height.toNat < 2^32)
    (hscroll : c.scrollEnabled = true) (htext : ∀ b ∈ text, IsText b) :
    let r := layOut c.width.toNat text
    let d := Console.puts text c.clear
    (∀ y x, y < c.height.toNat → x < c.width.toNat →
      d.buffer (y * c.width.toNat + x) =
        vgaEntry ((lineOf c.height.toNat r.all y).getD x (ch ' ')) c.color) ∧
    d.cursorX.toNat = r.current.length ∧ d.cursorY.toNat + 1 = min c.height.toNat r.all.length := by
  have hfits := Console.fits_self hwidth hheight hcells
  have hd := (hfits.showsText_clear hscroll).puts htext
  exact ⟨hd.shows, hd.column, hd.line⟩

/-- Four characters on a console of two columns and two rows. -/
theorem puts_shows_tail_small :
    let r := layOut 2 [0x61, 0x62, 0x63, 0x64]
    let d := Console.puts [0x61, 0x62, 0x63, 0x64] (newConsole 2 2).clear
    (∀ y x, y < 2 → x < 2 →
      d.buffer (y * 2 + x) =
        vgaEntry ((lineOf 2 r.all y).getD x (ch ' ')) (newConsole 2 2).color) ∧
    d.cursorX.toNat = r.current.length ∧ d.cursorY.toNat + 1 = min 2 r.all.length := by
  have htext : ∀ b ∈ ([0x61, 0x62, 0x63, 0x64] : List U8), IsText b := by
    intro b hb
    right
    revert b
    decide
  exact puts_shows_tail (newConsole 2 2) [0x61, 0x62, 0x63, 0x64] (by decide) (by decide) (by decide)
    rfl htext

end JarJar.Vga
