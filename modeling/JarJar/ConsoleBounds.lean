import JarJar.Types
import JarJar.Lib.Runs
import JarJar.Console

/- The console stays inside its cells. A cell in row `y` and column `x` of the screen
   has an index below `width * height`, and the stages of `console_putchar` bring the
   cursor back: what `place` does to it is unknown to `wrap`, which puts it left of
   the right edge, and `scrollBelow` puts it above the bottom. -/
namespace JarJar.Vga
open CountedLoop

namespace Console

/-- The console has `w` columns and `h` rows, the indices of its cells fit the type
they are computed in, and nothing else was touched since `T` was the record. -/
structure Fits (w h : Nat) (T : List Nat) (c : Console) : Prop where
  width_eq : c.width.toNat = w
  height_eq : c.height.toNat = h
  width_pos : 1 ≤ w
  height_pos : 1 ≤ h
  cells : w * h < 2^32
  inside : ∀ i ∈ c.touched, i ∈ T ∨ i < w * h

theorem fits_self {c : Console} (hwidth : 1 ≤ c.width.toNat) (hheight : 1 ≤ c.height.toNat)
    (hcells : c.width.toNat * c.height.toNat < 2^32) :
    c.Fits c.width.toNat c.height.toNat c.touched where
  width_eq := rfl
  height_eq := rfl
  width_pos := hwidth
  height_pos := hheight
  cells := hcells
  inside _ hi := Or.inl hi

/-- The cursor is on the screen, too. -/
structure Ok (w h : Nat) (T : List Nat) (c : Console) : Prop extends c.Fits w h T where
  cursorX_lt : c.cursorX.toNat < w
  cursorY_lt : c.cursorY.toNat < h

variable {w h : Nat} {T : List Nat} {c : Console}

/-! ## Cells -/

theorem cell_lt {y x : Nat} (hy : y < h) (hx : x < w) : y * w + x < w * h := by
  have hrows : (y + 1) * w ≤ h * w := Nat.mul_le_mul_right w hy
  rw [Nat.succ_mul, Nat.mul_comm h w] at hrows
  omega

theorem Fits.index_eq (hc : c.Fits w h T) {y x : U32} (hy : y.toNat < h) (hx : x.toNat < w) :
    c.index y x = y.toNat * w + x.toNat := by
  have hlt := cell_lt hy hx
  have hcells := hc.cells
  rw [index, BitVec.toNat_add, BitVec.toNat_mul, hc.width_eq, Nat.mod_eq_of_lt (a := _ * w) (by omega),
    Nat.mod_eq_of_lt (by omega)]

theorem Fits.index_lt (hc : c.Fits w h T) {y x : U32} (hy : y.toNat < h) (hx : x.toNat < w) :
    c.index y x < w * h := by
  rw [hc.index_eq hy hx]
  exact cell_lt hy hx

theorem Fits.toNat_ofNat_row (hc : c.Fits w h T) {y : Nat} (hy : y < h) :
    (BitVec.ofNat 32 y).toNat = y := by
  have hlt := c.height.isLt
  rw [hc.height_eq] at hlt
  rw [BitVec.toNat_ofNat, Nat.mod_eq_of_lt (by omega)]

theorem Fits.toNat_ofNat_column (hc : c.Fits w h T) {x : Nat} (hx : x < w) :
    (BitVec.ofNat 32 x).toNat = x := by
  have hlt := c.width.isLt
  rw [hc.width_eq] at hlt
  rw [BitVec.toNat_ofNat, Nat.mod_eq_of_lt (by omega)]

theorem Fits.lastRow_eq (hc : c.Fits w h T) : (c.height - 1).toNat = h - 1 := by
  have hpos := hc.height_pos
  rw [← hc.height_eq]
  apply BitVec.toNat_sub_of_le
  show 1 ≤ c.height.toNat
  rw [hc.height_eq]
  exact hpos

theorem Fits.lastColumn_eq (hc : c.Fits w h T) : (c.width - 1).toNat = w - 1 := by
  have hpos := hc.width_pos
  rw [← hc.width_eq]
  apply BitVec.toNat_sub_of_le
  show 1 ≤ c.width.toNat
  rw [hc.width_eq]
  exact hpos

/-! ## What keeps the screen -/

theorem Fits.store (hc : c.Fits w h T) {i : Nat} (hi : i < w * h) (v : U16) :
    (c.store i v).Fits w h T := by
  refine { hc with inside := fun j hj => ?_ }
  cases List.mem_cons.mp hj with
  | inl h => exact Or.inr (h ▸ hi)
  | inr h => exact hc.inside j h

theorem Fits.copy (hc : c.Fits w h T) {dst src : Nat} (hdst : dst < w * h) (hsrc : src < w * h) :
    (c.copy dst src).Fits w h T := by
  refine { hc with inside := fun j hj => ?_ }
  cases List.mem_cons.mp hj with
  | inl h => exact Or.inr (h ▸ hdst)
  | inr h =>
    cases List.mem_cons.mp h with
    | inl h => exact Or.inr (h ▸ hsrc)
    | inr h => exact hc.inside j h

theorem Fits.cursor (hc : c.Fits w h T) (x y : U32) :
    { c with cursorX := x, cursorY := y }.Fits w h T := { hc with }

theorem Fits.blankRow (hc : c.Fits w h T) {y : U32} (hy : y.toNat < h) : (c.blankRow y).Fits w h T := by
  rw [Console.blankRow, hc.width_eq]
  refine loop_keeps hc fun x hx d hd => ?_
  exact hd.store (hd.index_lt hy (by rw [hd.toNat_ofNat_column hx]; exact hx)) _

theorem Fits.copyRow (hc : c.Fits w h T) {dst src : U32} (hdst : dst.toNat < h) (hsrc : src.toNat < h) :
    (c.copyRow dst src).Fits w h T := by
  rw [Console.copyRow, hc.width_eq]
  refine loop_keeps hc fun x hx d hd => ?_
  have hx' : (BitVec.ofNat 32 x).toNat < w := by rw [hd.toNat_ofNat_column hx]; exact hx
  exact hd.copy (hd.index_lt hdst hx') (hd.index_lt hsrc hx')

theorem Fits.toNat_nextRow (hc : c.Fits w h T) {y : Nat} (hy : y < h - 1) :
    (BitVec.ofNat 32 y + 1).toNat = y + 1 := by
  have hlt := c.height.isLt
  rw [hc.height_eq] at hlt
  rw [BitVec.toNat_add, hc.toNat_ofNat_row (by omega)]
  exact Nat.mod_eq_of_lt (by show y + 1 < 2^32; omega)

theorem Fits.rowsUp (hc : c.Fits w h T) {n : Nat} (hn : n ≤ h - 1) :
    (loop n (fun y => Console.copyRow (BitVec.ofNat 32 y) (BitVec.ofNat 32 y + 1)) c).Fits w h T := by
  refine loop_keeps hc fun y hy d hd => hd.copyRow ?_ ?_
  · rw [hd.toNat_ofNat_row (by omega)]
    omega
  · rw [hd.toNat_nextRow (by omega)]
    omega

theorem Fits.scrollUp (hc : c.Fits w h T) : c.scrollUp.Fits w h T := by
  rw [Console.scrollUp, hc.lastRow_eq]
  have hrows := hc.rowsUp (Nat.le_refl (h - 1))
  have hpos := hc.height_pos
  exact hrows.blankRow (by rw [hrows.lastRow_eq]; omega)

theorem Fits.toNat_rowFromBelow (hc : c.Fits w h T) {i : Nat} (hi : i < h - 1) :
    (c.height - 1 - BitVec.ofNat 32 i).toNat = h - 1 - i ∧
      (c.height - 1 - BitVec.ofNat 32 i - 1).toNat = h - 1 - i - 1 := by
  have hlast := hc.lastRow_eq
  have hrow := hc.toNat_ofNat_row (y := i) (by omega)
  have hdst : (c.height - 1 - BitVec.ofNat 32 i).toNat = h - 1 - i := by
    rw [BitVec.toNat_sub_of_le (by rw [BitVec.le_def, hlast, hrow]; omega), hlast, hrow]
  refine ⟨hdst, ?_⟩
  rw [BitVec.toNat_sub_of_le (by rw [BitVec.le_def, hdst]; show 1 ≤ _; omega), hdst]
  rfl

theorem Fits.scrollDown (hc : c.Fits w h T) : c.scrollDown.Fits w h T := by
  rw [Console.scrollDown, hc.lastRow_eq]
  have hrows : (loop (h - 1) (fun i (d : Console) =>
      d.copyRow (d.height - 1 - BitVec.ofNat 32 i) (d.height - 1 - BitVec.ofNat 32 i - 1)) c).Fits
        w h T := by
    refine loop_keeps hc fun i hi d hd => ?_
    obtain ⟨hdst, hsrc⟩ := hd.toNat_rowFromBelow hi
    exact hd.copyRow (by rw [hdst]; omega) (by rw [hsrc]; omega)
  show Fits w h T (loop _ _ _)
  rw [hrows.width_eq]
  refine loop_keeps hrows fun x hx d hd => hd.store ?_ _
  have hcell := cell_lt hc.height_pos hx
  rw [Nat.zero_mul] at hcell
  omega

theorem Fits.setCursorPos (hc : c.Fits w h T) (x y : U32) : (c.setCursorPos x y).Ok w h T := by
  have hx : (if c.width ≤ x then c.width - 1 else x).toNat < w := by
    by_cases hlt : c.width ≤ x
    · have hpos := hc.width_pos
      rw [if_pos hlt, hc.lastColumn_eq]
      omega
    · rw [if_neg hlt, ← hc.width_eq]
      exact BitVec.not_le.mp hlt
  have hy : (if c.height ≤ y then c.height - 1 else y).toNat < h := by
    by_cases hlt : c.height ≤ y
    · have hpos := hc.height_pos
      rw [if_pos hlt, hc.lastRow_eq]
      omega
    · rw [if_neg hlt, ← hc.height_eq]
      exact BitVec.not_le.mp hlt
  exact { hc with cursorX_lt := hx, cursorY_lt := hy }

theorem Fits.clear (hc : c.Fits w h T) : c.clear.Ok w h T := by
  rw [Console.clear, hc.height_eq]
  have hrows : (loop h (fun y => Console.blankRow (BitVec.ofNat 32 y)) c).Fits w h T := by
    refine loop_keeps hc fun y hy d hd => hd.blankRow ?_
    rw [hd.toNat_ofNat_row hy]
    exact hy
  exact (hrows.cursor 0 0).setCursorPos 0 0

/-! ## A character -/

theorem Ok.place (hc : c.Ok w h T) (b : U8) : (c.place b).Fits w h T := by
  rw [Console.place]
  split
  · exact hc.toFits.cursor _ _
  split
  · exact hc.toFits.cursor _ _
  split
  · exact hc.toFits.cursor _ _
  split
  · split
    · next hpos =>
      have hback : (c.cursorX - 1).toNat < w := by
        have hx := hc.cursorX_lt
        have hpos' : 0 < c.cursorX.toNat := hpos
        rw [BitVec.toNat_sub_of_le (by exact hpos')]
        show c.cursorX.toNat - 1 < w
        omega
      exact (hc.toFits.cursor (c.cursorX - 1) c.cursorY).store
        ((hc.toFits.cursor _ _).index_lt hc.cursorY_lt hback) _
    · exact hc.toFits
  split
  · exact (hc.toFits.store (hc.toFits.index_lt hc.cursorY_lt hc.cursorX_lt) _).cursor _ _
  · exact hc.toFits

theorem Fits.wrap (hc : c.Fits w h T) : c.wrap.Fits w h T ∧ c.wrap.cursorX.toNat < w := by
  rw [Console.wrap]
  split
  · exact ⟨hc.cursor _ _, hc.width_pos⟩
  · next hlt =>
    refine ⟨hc, ?_⟩
    rw [← hc.width_eq]
    exact BitVec.not_le.mp hlt

/-- What is left of a console without its cells. -/
def frame (c : Console) : Console := { c with buffer := fun _ => 0, touched := [] }

theorem cursor_of_frame {d : Console} (hd : d.frame = c.frame) :
    d.cursorX = c.cursorX ∧ d.cursorY = c.cursorY := by
  have hx : d.frame.cursorX = c.frame.cursorX := by rw [hd]
  have hy : d.frame.cursorY = c.frame.cursorY := by rw [hd]
  exact ⟨hx, hy⟩

theorem frame_blankRow (y : U32) (c : Console) : (c.blankRow y).frame = c.frame :=
  loop_keeps (P := fun d : Console => d.frame = c.frame) rfl fun _ _ _ hd => hd

theorem frame_copyRow (dst src : U32) (c : Console) : (c.copyRow dst src).frame = c.frame :=
  loop_keeps (P := fun d : Console => d.frame = c.frame) rfl fun _ _ _ hd => hd

theorem frame_scrollUp (c : Console) : c.scrollUp.frame = c.frame := by
  have hrows : (loop (c.height - 1).toNat (fun y =>
      Console.copyRow (BitVec.ofNat 32 y) (BitVec.ofNat 32 y + 1)) c).frame = c.frame :=
    loop_keeps (P := fun d : Console => d.frame = c.frame) rfl
      fun _ _ d hd => (frame_copyRow _ _ d).trans hd
  exact (frame_blankRow _ _).trans hrows

theorem frame_scrollDown (c : Console) : c.scrollDown.frame = c.frame := by
  have hrows : (loop (c.height - 1).toNat (fun i (d : Console) =>
      d.copyRow (d.height - 1 - BitVec.ofNat 32 i) (d.height - 1 - BitVec.ofNat 32 i - 1)) c).frame =
        c.frame :=
    loop_keeps (P := fun d : Console => d.frame = c.frame) rfl
      fun _ _ d hd => (frame_copyRow _ _ d).trans hd
  exact loop_keeps (P := fun d : Console => d.frame = c.frame) hrows fun _ _ _ hd => hd

theorem Ok.of_frame {d : Console} (hc : c.Ok w h T) (hd : d.Fits w h T) (hframe : d.frame = c.frame) :
    d.Ok w h T := by
  obtain ⟨hx, hy⟩ := cursor_of_frame hframe
  refine { hd with cursorX_lt := ?_, cursorY_lt := ?_ }
  · rw [hx]
    exact hc.cursorX_lt
  · rw [hy]
    exact hc.cursorY_lt

theorem Fits.scrollBelow (hc : c.Fits w h T) (hx : c.cursorX.toNat < w) : c.scrollBelow.Ok w h T := by
  have hpos := hc.height_pos
  rw [Console.scrollBelow]
  split
  · split
    · have hup := hc.scrollUp
      have hcursor : c.scrollUp.cursorX = c.cursorX := (cursor_of_frame (frame_scrollUp c)).1
      refine { hup.cursor c.scrollUp.cursorX (c.scrollUp.height - 1) with
        cursorX_lt := ?_, cursorY_lt := ?_ }
      · show c.scrollUp.cursorX.toNat < w
        rw [hcursor]
        exact hx
      · show (c.scrollUp.height - 1).toNat < h
        rw [hup.lastRow_eq]
        omega
    · exact { hc.cursor c.cursorX 0 with cursorX_lt := hx, cursorY_lt := hpos }
  · next hlt =>
    refine { hc with cursorX_lt := hx, cursorY_lt := ?_ }
    rw [← hc.height_eq]
    exact BitVec.not_le.mp hlt

theorem Ok.showCursor (hc : c.Ok w h T) : c.showCursor.Ok w h T := by
  rw [Console.showCursor]
  split
  · exact hc.toFits.setCursorPos _ _
  · exact hc

theorem Ok.putchar (hc : c.Ok w h T) (b : U8) : (c.putchar b).Ok w h T := by
  obtain ⟨hfits, hx⟩ := (hc.place b).wrap
  exact (hfits.scrollBelow hx).showCursor

theorem Ok.puts (hc : c.Ok w h T) (str : List U8) : (Console.puts str c).Ok w h T := by
  induction str generalizing c with
  | nil => exact hc
  | cons b str ih =>
    rw [Console.puts]
    split
    · exact hc
    · exact ih (hc.putchar b)

/-! ## Every call -/

/-- Whatever is called, the cursor stays on the screen. -/
theorem Ok.step (hc : c.Ok w h T) (op : Op) : (c.step op).Ok w h T := by
  cases op with
  | putchar b => exact hc.putchar b
  | puts str => exact hc.puts str
  | clear => exact hc.toFits.clear
  | setCursorPos x y => exact hc.toFits.setCursorPos x y
  | scrollUp => exact hc.of_frame hc.toFits.scrollUp (frame_scrollUp c)
  | scrollDown => exact hc.of_frame hc.toFits.scrollDown (frame_scrollDown c)
  | _ => exact { hc with }

theorem Ok.throughout (hc : c.Ok w h T) (ops : List Op) :
    Runs.Throughout Console.step (Console.Ok w h T) c ops := by
  induction ops generalizing c with
  | nil => exact hc
  | cons op ops ih => exact ⟨hc, ih (hc.step op)⟩

end Console

/-- From any place of the cursor on the screen and through any calls: after each of
them the cursor is on the screen, and no index of a cell touched on the way is
beyond the last one. -/
theorem console_inside (c : Console) (ops : List Op) (hwidth : 1 ≤ c.width.toNat)
    (hheight : 1 ≤ c.height.toNat) (hcells : c.width.toNat * c.height.toNat < 2^32)
    (hx : c.cursorX.toNat < c.width.toNat) (hy : c.cursorY.toNat < c.height.toNat)
    (hstart : c.touched = []) :
    Runs.Throughout Console.step (fun d =>
      d.width = c.width ∧ d.height = c.height ∧
      d.cursorX.toNat < d.width.toNat ∧ d.cursorY.toNat < d.height.toNat ∧
      ∀ i ∈ d.touched, i < d.width.toNat * d.height.toNat) c ops := by
  have hok : c.Ok c.width.toNat c.height.toNat [] := {
    toFits := hstart ▸ Console.fits_self hwidth hheight hcells
    cursorX_lt := hx
    cursorY_lt := hy }
  rw [Runs.throughout_iff]
  intro before after hsplit
  have hd := Runs.throughout_iff.mp (hok.throughout ops) before after hsplit
  refine ⟨BitVec.eq_of_toNat_eq hd.width_eq, BitVec.eq_of_toNat_eq hd.height_eq, ?_, ?_, ?_⟩
  · rw [hd.width_eq]
    exact hd.cursorX_lt
  · rw [hd.height_eq]
    exact hd.cursorY_lt
  · rw [hd.width_eq, hd.height_eq]
    exact fun i hi => (hd.inside i hi).resolve_left List.not_mem_nil

/-- A console of `w` columns and `h` rows, with the cursor in the corner. -/
def newConsole (w h : U32) : Console where
  buffer := fun _ => 0
  width := w
  height := h
  cursorX := 0
  cursorY := 0
  color := vgaEntryColor .lightGrey .black
  cursorEnabled := true
  scrollEnabled := true
  touched := []

/-- A tab and a character on a console of three columns and one row. -/
theorem console_inside_small :
    Runs.Throughout Console.step (fun d =>
      d.width = (newConsole 3 1).width ∧ d.height = (newConsole 3 1).height ∧
      d.cursorX.toNat < d.width.toNat ∧ d.cursorY.toNat < d.height.toNat ∧
      ∀ i ∈ d.touched, i < d.width.toNat * d.height.toNat) (newConsole 3 1)
      [.putchar 9, .putchar 65, .setCursorPos 7 7, .scrollDown] :=
  console_inside (newConsole 3 1) [.putchar 9, .putchar 65, .setCursorPos 7 7, .scrollDown]
    (by decide) (by decide) (by decide) (by decide) (by decide) rfl

end JarJar.Vga
