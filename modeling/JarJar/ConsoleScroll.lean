import JarJar.ConsoleText
import Mathlib.Logic.Function.Iterate

/- Scrolling down and up again. Both scrolls copy rows inside of one buffer, each in the
   order in which no row is written before it has been read, so that either is a shift by
   one row: what is scrolled out at the bottom is lost, and the rest comes back. -/
namespace JarJar.Vga
open CountedLoop Libc

namespace Console
variable {w h : Nat} {T : List Nat} {c : Console}

/-! ## Scrolling down -/

theorem Midway.rowsDown {view : Nat → Nat → U16} {d : Console} (hd : Midway w h T c view d) {n : Nat}
    (hn : n ≤ h - 1) :
    Midway w h T c (fun y x => if h ≤ y + n ∧ y < h then view (y - 1) x else view y x)
      (loop n (fun i (d : Console) =>
        d.copyRow (d.height - 1 - BitVec.ofNat 32 i) (d.height - 1 - BitVec.ofNat 32 i - 1)) d) := by
  refine loop_invariant
    (P := fun k => Midway w h T c fun y x => if h ≤ y + k ∧ y < h then view (y - 1) x else view y x)
    (hd.congr fun y x _ => ?_) fun k hk e he => ?_
  · rw [if_neg (by omega)]
  · obtain ⟨hdst, hsrc⟩ := he.toNat_rowFromBelow (i := k) (by omega)
    refine (he.copyRow (by omega) (by omega) (by omega)).congr fun y x _ => ?_
    rw [hdst, hsrc]
    -- the row that is read is above all that were written
    by_cases hrow : y = h - 1 - k
    · rw [if_pos hrow, if_neg (by omega), if_pos (by omega), hrow]
    · rw [if_neg hrow]
      by_cases hmoved : h ≤ y + k ∧ y < h
      · rw [if_pos hmoved, if_pos (by omega)]
      · rw [if_neg hmoved, if_neg (by omega)]

/-- The loop that blanks the first row computes no index. -/
theorem Fits.blankFirstRow_eq (hc : c.Fits w h T) :
    loop c.width.toNat (fun x (d : Console) => d.store x d.blank) c = c.blankRow 0 := by
  rw [Console.blankRow, hc.width_eq]
  have hpos := hc.height_pos
  refine (loop_simulates (R := fun _ d e => d = e ∧ e.Fits w h T) ⟨rfl, hc⟩ ?_).1
  rintro x hx d _ ⟨rfl, hd⟩
  have hcolumn := hd.toNat_ofNat_column hx
  have hindex : d.index 0 (BitVec.ofNat 32 x) = x := by
    rw [hd.index_eq (y := 0) hpos (by rw [hcolumn]; exact hx), hcolumn]
    show 0 * w + x = x
    rw [Nat.zero_mul, Nat.zero_add]
  have hcell := cell_lt hpos hx
  rw [Nat.zero_mul, Nat.zero_add] at hcell
  rw [hindex]
  exact ⟨rfl, hd.store hcell _⟩

/-- Scrolling down moves every row down by one. -/
theorem Fits.scrollDown_cell (hc : c.Fits w h T) {y x : Nat} (hy : y < h) (hx : x < w) :
    c.scrollDown.buffer (y * w + x) = if y = 0 then c.blank else c.buffer ((y - 1) * w + x) := by
  have hrows := hc.midway.rowsDown (Nat.le_refl (h - 1))
  have hpos := hc.height_pos
  have hdown := hrows.blankRow (y := 0) hpos
  rw [Console.scrollDown, hc.lastRow_eq]
  refine (congrArg (fun d : Console => d.buffer (y * w + x)) hrows.blankFirstRow_eq).trans ?_
  rw [hdown.cell_eq y x hx]
  show (if y = 0 then _ else if h ≤ y + (h - 1) ∧ y < h then _ else _) = _
  by_cases hfirst : y = 0
  · rw [if_pos hfirst, if_pos hfirst]
  · rw [if_neg hfirst, if_neg hfirst, if_pos (by omega)]

/-! ## Scrolling many times -/

/-- What was on `c` may have moved: `view` says what is on the screen now. -/
structure Screen (w h : Nat) (T : List Nat) (c : Console) (view : Nat → Nat → U16) (d : Console) : Prop
    extends d.Fits w h T where
  frame_eq : d.frame = c.frame
  cell_eq : ∀ y x, y < h → x < w → d.buffer (y * w + x) = view y x

section
variable {view view' : Nat → Nat → U16} {d : Console}

theorem Fits.screen (hc : c.Fits w h T) : Screen w h T c (fun y x => c.buffer (y * w + x)) c :=
  { hc with frame_eq := rfl, cell_eq := fun _ _ _ _ => rfl }

theorem Screen.congr (hd : Screen w h T c view d)
    (hsame : ∀ y x, y < h → x < w → view y x = view' y x) : Screen w h T c view' d :=
  { hd with cell_eq := fun y x hy hx => (hd.cell_eq y x hy hx).trans (hsame y x hy hx) }

theorem blank_of_frame (hd : d.frame = c.frame) : d.blank = c.blank :=
  congrArg (vgaEntry (ch ' ')) (color_of_frame hd)

theorem Screen.scrollDown (hd : Screen w h T c view d) :
    Screen w h T c (fun y x => if y = 0 then c.blank else view (y - 1) x) d.scrollDown := by
  refine { hd.toFits.scrollDown with
    frame_eq := (frame_scrollDown d).trans hd.frame_eq, cell_eq := fun y x hy hx => ?_ }
  rw [hd.toFits.scrollDown_cell hy hx, blank_of_frame hd.frame_eq, hd.cell_eq (y - 1) x (by omega) hx]

theorem Screen.scrollUp (hd : Screen w h T c view d) :
    Screen w h T c (fun y x => if y + 1 = h then c.blank else view (y + 1) x) d.scrollUp := by
  refine { hd.toFits.scrollUp with
    frame_eq := (frame_scrollUp d).trans hd.frame_eq, cell_eq := fun y x hy hx => ?_ }
  rw [hd.toFits.scrollUp_cell hy hx, blank_of_frame hd.frame_eq]
  by_cases hlast : y + 1 = h
  · rw [if_pos hlast, if_pos hlast]
  · rw [if_neg hlast, if_neg hlast, hd.cell_eq (y + 1) x (by omega) hx]

theorem Screen.scrollDown_iterate (hd : Screen w h T c view d) (k : Nat) :
    Screen w h T c (fun y x => if y < k then c.blank else view (y - k) x)
      (Console.scrollDown^[k] d) := by
  induction k with
  | zero => exact hd.congr fun y x _ _ => (if_neg (Nat.not_lt_zero y)).symm
  | succ k ih =>
    rw [Function.iterate_succ_apply']
    refine ih.scrollDown.congr fun y x hy hx => ?_
    by_cases hfirst : y = 0
    · rw [if_pos hfirst, if_pos (by omega)]
    · rw [if_neg hfirst]
      by_cases hblank : y - 1 < k
      · rw [if_pos hblank, if_pos (by omega)]
      · rw [if_neg hblank, if_neg (by omega), Nat.sub_sub, Nat.add_comm 1 k]

theorem Screen.scrollUp_iterate (hd : Screen w h T c view d) (k : Nat) :
    Screen w h T c (fun y x => if y + k < h then view (y + k) x else c.blank)
      (Console.scrollUp^[k] d) := by
  induction k with
  | zero => exact hd.congr fun y x hy _ => (if_pos hy).symm
  | succ k ih =>
    rw [Function.iterate_succ_apply']
    refine ih.scrollUp.congr fun y x hy hx => ?_
    by_cases hlast : y + 1 = h
    · rw [if_pos hlast, if_neg (by omega)]
    · rw [if_neg hlast]
      by_cases hview : y + 1 + k < h
      · rw [if_pos hview, if_pos (by omega), Nat.add_right_comm y 1 k]
        rfl
      · rw [if_neg hview, if_neg (by omega)]

end

end Console

open Console in
/-- On every console whose cells have indices: scrolling down is a shift by one row, and so is
scrolling up. After `k` times down and `k` times up the rows that stayed on the screen are
what they were, the last `k` rows are blank, and nothing but the cells has changed. -/
theorem scroll_down_up {c : Console} (hwidth : 1 ≤ c.width.toNat) (hheight : 1 ≤ c.height.toNat)
    (hcells : c.width.toNat * c.height.toNat < 2^32) {k : Nat} (hk : k ≤ c.height.toNat) :
    (∀ y x, y < c.height.toNat → x < c.width.toNat →
      (scrollDown^[k] c).buffer (y * c.width.toNat + x) =
        if y < k then c.blank else c.buffer ((y - k) * c.width.toNat + x)) ∧
    (∀ y x, y < c.height.toNat - k → x < c.width.toNat →
      (scrollUp^[k] (scrollDown^[k] c)).buffer (y * c.width.toNat + x) =
        c.buffer (y * c.width.toNat + x)) ∧
    (∀ y x, c.height.toNat - k ≤ y → y < c.height.toNat → x < c.width.toNat →
      (scrollUp^[k] (scrollDown^[k] c)).buffer (y * c.width.toNat + x) = c.blank) ∧
    (scrollUp^[k] (scrollDown^[k] c)).frame = c.frame ∧
    ∀ i ∈ (scrollUp^[k] (scrollDown^[k] c)).touched,
      i ∈ c.touched ∨ i < c.width.toNat * c.height.toNat := by
  have hc := fits_self hwidth hheight hcells
  have hdown := hc.screen.scrollDown_iterate k
  have hup := hdown.scrollUp_iterate k
  refine ⟨hdown.cell_eq, fun y x hy hx => ?_, fun y x hy hlt hx => ?_, hup.frame_eq, hup.inside⟩
  · rw [hup.cell_eq y x (by omega) hx, if_pos (by omega), if_neg (by omega), Nat.add_sub_cancel]
  · rw [hup.cell_eq y x hlt hx, if_neg (by omega)]

/-- A console of two columns and three rows, with another value in every cell. -/
def numberedConsole : Console := { newConsole 2 3 with buffer := BitVec.ofNat 16 }

open Console in
/-- Twice down and twice up: the first row stays, and a cell of the last one is blank. -/
theorem scroll_down_up_twice :
    (scrollUp^[2] (scrollDown^[2] numberedConsole)).buffer 1 = 1 ∧
      (scrollUp^[2] (scrollDown^[2] numberedConsole)).buffer 5 = numberedConsole.blank := by
  obtain ⟨-, hstays, hblank, -⟩ := scroll_down_up (c := numberedConsole) (k := 2) (by decide)
    (by decide) (by decide) (by decide)
  exact ⟨hstays 0 1 (by decide) (by decide), hblank 2 1 (by decide) (by decide) (by decide)⟩

end JarJar.Vga
