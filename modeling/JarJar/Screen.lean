import JarJar.DrawLine
import JarJar.Lib.Runs

/- What is on the screen. The drawing functions store pixels in the back buffer when there
   is one, and `framebuffer_present` copies it to the front; with one buffer what is drawn
   is seen at once.

   Correspondence (C ↔ Lean):
     `framebuffer_t` with what its buffers hold   ↔ `Screen`
     a call of a drawing function                 ↔ `Draw`
     `framebuffer_present`                        ↔ `framebufferPresent`
     `memset` of a new buffer                     ↔ `Screen.created`
   Over it a `Picture` has a colour for every point of the plane, and drawing paints points.

   What is proved (`present_agrees`): after any drawing, the front buffer of a double-buffered
   framebuffer is what a single buffer would show if it had been drawn on up to the last
   `framebuffer_present` only. -/
namespace JarJar.Gui

/-- A framebuffer, and the pixels in `pixels` and `back_buffer`. -/
structure Screen where
  fb : Framebuffer
  front : Int → U32
  back : Int → U32

inductive Draw where
  | clear (color : Color)
  | pixel (x y : S32) (color : Color)
  | line (x1 y1 x2 y2 : S32) (color : Color)

/-- As many calls as the longer of the two distances asks for, and one more. -/
def lineTurns (x1 y1 x2 y2 : S32) : Nat :=
  max (x2.toInt - x1.toInt).natAbs (y2.toInt - y1.toInt).natAbs + 1

/-- What a call stores, `none` if the loop of a line overflows. -/
def Draw.writes (fb : Framebuffer) : Draw → Option (List (Int × U32))
  | .clear color => some (framebufferClear fb color)
  | .pixel x y color => some (framebufferDrawPixel fb x y color)
  | .line x1 y1 x2 y2 color =>
    (framebufferDrawLine (lineTurns x1 y1 x2 y2) x1 y1 x2 y2).map fun points =>
      points.flatMap fun p =>
        framebufferDrawPixel fb (BitVec.ofInt 32 p.1) (BitVec.ofInt 32 p.2) color

def storeAll (buffer : Int → U32) (ws : List (Int × U32)) : Int → U32 :=
  ws.foldl (fun buffer w => Function.update buffer w.1 w.2) buffer

namespace Screen

/-- The stores go into the selected buffer. -/
def plot (s : Screen) (ws : List (Int × U32)) : Screen :=
  if s.fb.doubleBuffered then { s with back := storeAll s.back ws }
  else { s with front := storeAll s.front ws }

def draw (s : Screen) (d : Draw) : Option Screen := (d.writes s.fb).map s.plot

/-- `memset` to zero in what was `stale`. -/
def created (fb : Framebuffer) (stale : Int → U32) : Screen :=
  let zeroed (i : Int) : U32 :=
    if 0 ≤ i ∧ 4 * i < (bufferSize fb.width fb.height).toNat then 0 else stale i
  ⟨fb, zeroed, zeroed⟩

end Screen

/-- The bytes that are copied are those of whole pixels. -/
def framebufferPresent (s : Screen) : Screen :=
  if s.fb.doubleBuffered = false ∨ s.fb.backBuffer = none then s
  else
    let size := (bufferSize s.fb.width s.fb.height).toNat
    { s with front := fun i => if 0 ≤ i ∧ 4 * i < size then s.back i else s.front i }

inductive ScreenOp where
  | draw (d : Draw)
  | present

def Screen.step (s : Screen) : ScreenOp → Option Screen
  | .draw d => s.draw d
  | .present => some (framebufferPresent s)

def Screen.run (s : Screen) (ops : List ScreenOp) : Option Screen := ops.foldlM Screen.step s

/-! ## Pictures -/

/-- A colour for every point. -/
abbrev Picture := Int → Int → U32

def Picture.dot (color : U32) (p : Picture) (q : Int × Int) : Picture :=
  fun x y => if (x, y) = q then color else p x y

def Draw.paint (p : Picture) : Draw → Picture
  | .clear color => fun _ _ => color.pixel
  | .pixel x y color => p.dot color.pixel (x.toInt, y.toInt)
  | .line x1 y1 x2 y2 color =>
    ((framebufferDrawLine (lineTurns x1 y1 x2 y2) x1 y1 x2 y2).getD []).foldl
      (Picture.dot color.pixel) p

/-- What is seen, and what is drawn on. -/
structure View where
  seen : Picture
  drawn : Picture

def View.step (double : Bool) (v : View) : ScreenOp → View
  | .draw d => ⟨if double then v.seen else d.paint v.drawn, d.paint v.drawn⟩
  | .present => ⟨v.drawn, v.drawn⟩

/-! ## The points of a line -/

theorem toInt_ofInt {v : Int} (h : Fits32 v) : (BitVec.ofInt 32 v).toInt = v := by
  obtain ⟨hlow, hhigh⟩ := h
  rw [BitVec.toInt_ofInt, Int.bmod_eq_of_le (by omega) (by omega)]

theorem s32_fits {v w : Int} (h : s32 v = some w) : Fits32 w := by
  rw [s32] at h
  split at h
  · next hfits =>
    obtain rfl := Option.some.inj h
    exact hfits
  · cases h

/-! ## Cells -/

/-- The dimensions are positive, and the bytes of all pixels are an `s32`. -/
structure Framebuffer.Sized (fb : Framebuffer) : Prop where
  width : 0 < fb.width.toInt
  height : 0 < fb.height.toInt
  bytes : 4 * (fb.width.toNat * fb.height.toNat) < 2^31
  back : fb.doubleBuffered = true → fb.backBuffer ≠ none

/-- The point is one of the framebuffer. -/
def Framebuffer.Has (fb : Framebuffer) (x y : Int) : Prop :=
  0 ≤ x ∧ x < fb.width.toInt ∧ 0 ≤ y ∧ y < fb.height.toInt

instance (fb : Framebuffer) (x y : Int) : Decidable (fb.Has x y) :=
  inferInstanceAs (Decidable (_ ∧ _))

/-- The index of a point. -/
def Framebuffer.cell (fb : Framebuffer) (x y : Int) : Int := y * fb.width.toInt + x

/-- The buffer shows the picture. -/
def Framebuffer.Shows (fb : Framebuffer) (buffer : Int → U32) (p : Picture) : Prop :=
  ∀ x y, fb.Has x y → buffer (fb.cell x y) = p x y

section
variable {fb : Framebuffer} {buffer : Int → U32} {p : Picture} {x y : Int}

theorem cell_inj {x' y' : Int} (h : fb.Has x y) (h' : fb.Has x' y')
    (heq : fb.cell x y = fb.cell x' y') : x = x' ∧ y = y' := by
  obtain ⟨hx, hxlt, -, -⟩ := h
  obtain ⟨hx', hxlt', -, -⟩ := h'
  have hrow (u v : Int) (hu : 0 ≤ u) (hult : u < fb.width.toInt) : fb.cell u v % fb.width.toInt = u := by
    rw [Framebuffer.cell, Int.add_comm, Int.add_mul_emod_self_right, Int.emod_eq_of_lt hu hult]
  have hsame : x = x' := by rw [← hrow x y hx hxlt, heq, hrow x' y' hx' hxlt']
  refine ⟨hsame, ?_⟩
  rw [Framebuffer.cell, Framebuffer.cell, hsame, Int.add_left_inj] at heq
  exact Int.eq_of_mul_eq_mul_right (by omega) heq

theorem cell_bounds (hs : fb.Sized) (h : fb.Has x y) :
    0 ≤ fb.cell x y ∧ fb.cell x y < (fb.width.toNat * fb.height.toNat : Nat) := by
  obtain ⟨hx, hxlt, hy, hylt⟩ := h
  have hwidth := (toNat_lt_of_pos hs.width).2
  have hheight := (toNat_lt_of_pos hs.height).2
  rw [hwidth] at hxlt
  rw [hheight] at hylt
  rw [Framebuffer.cell, hwidth]
  have hlow : 0 ≤ y * (fb.width.toNat : Int) := Int.mul_nonneg hy (Int.natCast_nonneg _)
  refine ⟨by omega, ?_⟩
  calc y * (fb.width.toNat : Int) + x < y * fb.width.toNat + fb.width.toNat := by omega
    _ = (y + 1) * fb.width.toNat := by rw [Int.add_mul, Int.one_mul]
    _ ≤ fb.height.toNat * fb.width.toNat := Int.mul_le_mul_of_nonneg_right (by omega) (by omega)
    _ = (fb.width.toNat * fb.height.toNat : Nat) := by rw [Int.mul_comm, Int.natCast_mul]

theorem toInt_eq_toNat {v : S32} (h : 0 ≤ v.toInt) : v.toInt = v.toNat := by
  have hlt := v.isLt
  rw [BitVec.toInt_eq_toNat_cond] at h ⊢
  split at h
  · next hsmall => rw [if_pos hsmall]
  · omega

theorem drawPixel_eq (hs : fb.Sized) (x y : S32) (color : Color) :
    framebufferDrawPixel fb x y color =
      if fb.Has x.toInt y.toInt then [(fb.cell x.toInt y.toInt, color.pixel)] else [] := by
  rw [framebufferDrawPixel]
  by_cases hhas : fb.Has x.toInt y.toInt
  · have hbound := cell_bounds hs hhas
    have hbytes := hs.bytes
    have hwidth := (toNat_lt_of_pos hs.width).2
    obtain ⟨hx, hxlt, hy, hylt⟩ := id hhas
    have hindex : y * fb.width + x = BitVec.ofNat 32 (y.toNat * fb.width.toNat + x.toNat) := by
      rw [BitVec.ofNat_add, BitVec.ofNat_mul, BitVec.ofNat_toNat, BitVec.ofNat_toNat,
        BitVec.ofNat_toNat, BitVec.setWidth_eq, BitVec.setWidth_eq, BitVec.setWidth_eq]
    have hcell : fb.cell x.toInt y.toInt = (y.toNat * fb.width.toNat + x.toNat : Nat) := by
      rw [Framebuffer.cell, hwidth, toInt_eq_toNat hx, toInt_eq_toNat hy]
      push_cast
      rfl
    rw [if_pos hhas, if_neg (by omega), hindex, hcell, BitVec.toInt_eq_toNat_cond, BitVec.toNat_ofNat]
    rw [hcell] at hbound
    generalize y.toNat * fb.width.toNat + x.toNat = n at hbound ⊢
    generalize fb.width.toNat * fb.height.toNat = cells at hbound hbytes
    rw [Nat.mod_eq_of_lt (by omega), if_pos (by omega)]
  · rw [if_neg hhas, if_pos]
    rw [Framebuffer.Has] at hhas
    omega

theorem shows_dot (h : fb.Shows buffer p) (hhas : fb.Has x y) (color : U32) :
    fb.Shows (Function.update buffer (fb.cell x y) color) (p.dot color (x, y)) := by
  intro u v huv
  rw [Picture.dot]
  by_cases hsame : (u, v) = (x, y)
  · obtain ⟨rfl, rfl⟩ := Prod.mk.inj hsame
    rw [if_pos rfl, Function.update_self]
  · rw [if_neg hsame, Function.update_of_ne, h u v huv]
    intro heq
    obtain ⟨rfl, rfl⟩ := cell_inj huv hhas heq
    exact hsame rfl

theorem shows_beside (h : fb.Shows buffer p) (hhas : ¬ fb.Has x y) (color : U32) :
    fb.Shows buffer (p.dot color (x, y)) := by
  intro u v huv
  rw [Picture.dot, if_neg, h u v huv]
  intro hsame
  obtain ⟨rfl, rfl⟩ := Prod.mk.inj hsame
  exact hhas huv

theorem shows_pixel (hs : fb.Sized) (h : fb.Shows buffer p) (x y : S32) (color : Color) :
    fb.Shows (storeAll buffer (framebufferDrawPixel fb x y color))
      (p.dot color.pixel (x.toInt, y.toInt)) := by
  rw [drawPixel_eq hs]
  split
  · next hhas => exact shows_dot h hhas color.pixel
  · next hhas => exact shows_beside h hhas color.pixel

/-! ## Drawing -/

theorem storeAll_append (buffer : Int → U32) (ws ws' : List (Int × U32)) :
    storeAll buffer (ws ++ ws') = storeAll (storeAll buffer ws) ws' := List.foldl_append

theorem shows_points (hs : fb.Sized) (h : fb.Shows buffer p) (color : Color)
    {points : List (Int × Int)} (hpoints : ∀ q ∈ points, Fits32 q.1 ∧ Fits32 q.2) :
    fb.Shows (storeAll buffer (points.flatMap fun q =>
        framebufferDrawPixel fb (BitVec.ofInt 32 q.1) (BitVec.ofInt 32 q.2) color))
      (points.foldl (Picture.dot color.pixel) p) := by
  induction points generalizing buffer p with
  | nil => exact h
  | cons q points ih =>
    obtain ⟨⟨hx, hy⟩, hrest⟩ := List.forall_mem_cons.mp hpoints
    have hq := shows_pixel hs h (BitVec.ofInt 32 q.1) (BitVec.ofInt 32 q.2) color
    rw [toInt_ofInt hx, toInt_ofInt hy] at hq
    rw [List.flatMap_cons, storeAll_append, List.foldl_cons]
    exact ih hq hrest

theorem storeAll_range (buffer : Int → U32) (color : U32) (n : Nat) (j : Int) :
    storeAll buffer ((List.range n).map fun i : Nat => ((i : Int), color)) j =
      if 0 ≤ j ∧ j < n then color else buffer j := by
  induction n with
  | zero => rw [if_neg (by omega)]; rfl
  | succ n ih =>
    rw [List.range_succ, List.map_append, storeAll_append]
    show Function.update (storeAll buffer _) (n : Int) color j = _
    rw [Function.update_apply, ih]
    split
    · next hj => rw [if_pos (by omega)]
    · next hj =>
      by_cases hlt : 0 ≤ j ∧ j < n
      · rw [if_pos hlt, if_pos (by omega)]
      · rw [if_neg hlt, if_neg (by omega)]

theorem shows_clear (hs : fb.Sized) (buffer : Int → U32) (color : Color) :
    fb.Shows (storeAll buffer (framebufferClear fb color)) fun _ _ => color.pixel := by
  intro x y hhas
  have hbound := cell_bounds hs hhas
  have hbytes := hs.bytes
  have hcount : (fb.width * fb.height).toNat = fb.width.toNat * fb.height.toNat := by
    rw [BitVec.toNat_mul, Nat.mod_eq_of_lt (by omega)]
  rw [framebufferClear]
  dsimp only
  rw [storeAll_range, hcount, if_pos hbound]

theorem lineStep_fits {line : Line} {t t' : Turn} (hx : Fits32 t.x1) (hy : Fits32 t.y1)
    (h : lineStep line t = some t') : Fits32 t'.x1 ∧ Fits32 t'.y1 := by
  -- the step up or down, after the one to the side
  have hdown (e2 : Int) (u : Turn) (hux : Fits32 u.x1) (huy : Fits32 u.y1)
      (hstep : (if e2 ≤ line.dx then (s32 (u.err + line.dx)).bind fun err =>
        (s32 (u.y1 + line.sy)).bind fun y1 => some ⟨u.x1, y1, err⟩ else some u) = some t') :
      Fits32 t'.x1 ∧ Fits32 t'.y1 := by
    split at hstep
    · obtain ⟨err, -, hstep⟩ := Option.bind_eq_some_iff.mp hstep
      obtain ⟨y1, hy1, hstep⟩ := Option.bind_eq_some_iff.mp hstep
      obtain rfl := Option.some.inj hstep
      exact ⟨hux, s32_fits hy1⟩
    · obtain rfl := Option.some.inj hstep
      exact ⟨hux, huy⟩
  rw [lineStep] at h
  obtain ⟨e2, -, h⟩ := Option.bind_eq_some_iff.mp h
  dsimp only at h
  split at h
  · obtain ⟨err, -, h⟩ := Option.bind_eq_some_iff.mp h
    obtain ⟨x1, hx1, h⟩ := Option.bind_eq_some_iff.mp h
    exact hdown e2 ⟨x1, t.y1, err⟩ (s32_fits hx1) hy h
  · exact hdown e2 t hx hy h

theorem drawLoop_fits {line : Line} {fuel : Nat} {t : Turn} {points : List (Int × Int)}
    (hx : Fits32 t.x1) (hy : Fits32 t.y1) (h : drawLoop line fuel t = some points) :
    ∀ q ∈ points, Fits32 q.1 ∧ Fits32 q.2 := by
  induction fuel generalizing t points with
  | zero => cases h
  | succ fuel ih =>
    rw [drawLoop] at h
    split at h
    · obtain rfl := Option.some.inj h
      exact List.forall_mem_singleton.mpr ⟨hx, hy⟩
    · obtain ⟨t', hstep, h⟩ := Option.bind_eq_some_iff.mp h
      obtain ⟨rest, hrest, h⟩ := Option.bind_eq_some_iff.mp h
      obtain rfl := Option.some.inj h
      obtain ⟨hx', hy'⟩ := lineStep_fits hx hy hstep
      exact List.forall_mem_cons.mpr ⟨⟨hx, hy⟩, ih hx' hy' hrest⟩

theorem drawLine_fits {fuel : Nat} {x1 y1 x2 y2 : S32} {points : List (Int × Int)}
    (h : framebufferDrawLine fuel x1 y1 x2 y2 = some points) :
    ∀ q ∈ points, Fits32 q.1 ∧ Fits32 q.2 := by
  rw [framebufferDrawLine] at h
  obtain ⟨width, -, h⟩ := Option.bind_eq_some_iff.mp h
  obtain ⟨dx, -, h⟩ := Option.bind_eq_some_iff.mp h
  obtain ⟨height, -, h⟩ := Option.bind_eq_some_iff.mp h
  obtain ⟨rise, -, h⟩ := Option.bind_eq_some_iff.mp h
  obtain ⟨dy, -, h⟩ := Option.bind_eq_some_iff.mp h
  obtain ⟨err, -, h⟩ := Option.bind_eq_some_iff.mp h
  exact drawLoop_fits (toInt_fits x1) (toInt_fits y1) h

theorem shows_writes (hs : fb.Sized) (h : fb.Shows buffer p) {d : Draw} {ws : List (Int × U32)}
    (hws : d.writes fb = some ws) : fb.Shows (storeAll buffer ws) (d.paint p) := by
  cases d with
  | clear color =>
    obtain rfl := Option.some.inj hws
    exact shows_clear hs buffer color
  | pixel x y color =>
    obtain rfl := Option.some.inj hws
    exact shows_pixel hs h x y color
  | line x1 y1 x2 y2 color =>
    obtain ⟨points, hpoints, rfl⟩ := Option.map_eq_some_iff.mp hws
    rw [Draw.paint, hpoints]
    exact shows_points hs h color (drawLine_fits hpoints)

theorem shows_copied (hs : fb.Sized) {back : Int → U32} (h : fb.Shows back p) :
    fb.Shows (fun i => if 0 ≤ i ∧ 4 * i < (bufferSize fb.width fb.height).toNat then back i
      else buffer i) p := by
  intro x y hhas
  have hbound := cell_bounds hs hhas
  have hbytes := hs.bytes
  have hsize : (bufferSize fb.width fb.height).toNat = 4 * (fb.width.toNat * fb.height.toNat) := by
    rw [bufferSize_toNat, Nat.mod_eq_of_lt (by omega), if_pos hbytes]
  dsimp only
  rw [hsize, if_pos (by omega)]
  exact h x y hhas

end

/-! ## Runs -/

/-- The buffers show the view. -/
structure Screen.Shows (s : Screen) (v : View) : Prop where
  front : s.fb.Shows s.front v.seen
  selected : s.fb.Shows (if s.fb.doubleBuffered then s.back else s.front) v.drawn

section
variable {s s' : Screen} {v : View}

theorem Screen.Shows.double (hdouble : s.fb.doubleBuffered = true)
    (hfront : s.fb.Shows s.front v.seen) (hback : s.fb.Shows s.back v.drawn) : s.Shows v :=
  ⟨hfront, by rw [if_pos hdouble]; exact hback⟩

theorem Screen.Shows.single (hsingle : ¬ s.fb.doubleBuffered = true)
    (hfront : s.fb.Shows s.front v.seen) (hfront' : s.fb.Shows s.front v.drawn) : s.Shows v :=
  ⟨hfront, by rw [if_neg hsingle]; exact hfront'⟩

theorem Screen.Shows.draw (h : s.Shows v) (hs : s.fb.Sized) {d : Draw} (hdraw : s.draw d = some s') :
    s'.fb = s.fb ∧ s'.Shows (v.step s.fb.doubleBuffered (.draw d)) := by
  obtain ⟨ws, hws, rfl⟩ := Option.map_eq_some_iff.mp hdraw
  have hpainted := shows_writes hs h.selected hws
  by_cases hdouble : s.fb.doubleBuffered = true
  · rw [if_pos hdouble] at hpainted
    rw [Screen.plot, if_pos hdouble, View.step, if_pos hdouble]
    exact ⟨rfl, Screen.Shows.double hdouble h.front hpainted⟩
  · rw [if_neg hdouble] at hpainted
    rw [Screen.plot, if_neg hdouble, View.step, if_neg hdouble]
    exact ⟨rfl, Screen.Shows.single hdouble hpainted hpainted⟩

theorem Screen.Shows.present (h : s.Shows v) (hs : s.fb.Sized) :
    (framebufferPresent s).fb = s.fb ∧
      (framebufferPresent s).Shows (v.step s.fb.doubleBuffered .present) := by
  have hselected := h.selected
  by_cases hdouble : s.fb.doubleBuffered = true
  · rw [if_pos hdouble] at hselected
    rw [framebufferPresent, if_neg (by simpa [hdouble] using hs.back hdouble)]
    exact ⟨rfl, Screen.Shows.double hdouble (shows_copied hs hselected) hselected⟩
  · rw [if_neg hdouble] at hselected
    rw [framebufferPresent, if_pos (Or.inl (Bool.not_eq_true _ ▸ hdouble))]
    exact ⟨rfl, Screen.Shows.single hdouble hselected hselected⟩

theorem Screen.Shows.run (h : s.Shows v) (hs : s.fb.Sized) {ops : List ScreenOp}
    (hrun : s.run ops = some s') :
    s'.fb = s.fb ∧ s'.Shows (Runs.run (View.step s.fb.doubleBuffered) v ops) := by
  induction ops generalizing s v with
  | nil =>
    obtain rfl := Option.some.inj hrun
    exact ⟨rfl, h⟩
  | cons op ops ih =>
    rw [Screen.run, List.foldlM_cons] at hrun
    obtain ⟨u, hu, hrun⟩ := Option.bind_eq_some_iff.mp hrun
    have hnext : u.fb = s.fb ∧ u.Shows (v.step s.fb.doubleBuffered op) := by
      cases op with
      | draw d => exact h.draw hs hu
      | present =>
        obtain rfl := Option.some.inj hu
        exact h.present hs
    obtain ⟨hfb, hshows⟩ := hnext
    obtain ⟨hfb', hshows'⟩ := ih hshows (hfb ▸ hs) hrun
    rw [hfb] at hfb' hshows'
    exact ⟨hfb', hshows'⟩

end

/-! ## The two ways of drawing -/

/-- No loop of the call overflows. -/
def ScreenOp.Ends : ScreenOp → Prop
  | .draw (.line x1 y1 x2 y2 _) => framebufferDrawLine (lineTurns x1 y1 x2 y2) x1 y1 x2 y2 ≠ none
  | _ => True

def ScreenOp.paint (p : Picture) : ScreenOp → Picture
  | .draw d => d.paint p
  | .present => p

/-- What some calls paint. -/
def paintAll (ops : List ScreenOp) (p : Picture) : Picture := ops.foldl ScreenOp.paint p

section
variable {s : Screen} {v : View} {ops : List ScreenOp}

theorem writes_isSome (fb : Framebuffer) {d : Draw} (h : (ScreenOp.draw d).Ends) :
    ∃ ws, d.writes fb = some ws := by
  cases d with
  | clear color => exact ⟨_, rfl⟩
  | pixel x y color => exact ⟨_, rfl⟩
  | line x1 y1 x2 y2 color =>
    obtain ⟨points, hpoints⟩ := Option.ne_none_iff_exists'.mp h
    exact ⟨_, by rw [Draw.writes, hpoints]; rfl⟩

theorem run_isSome (h : ∀ op ∈ ops, op.Ends) : ∃ s', s.run ops = some s' := by
  induction ops generalizing s with
  | nil => exact ⟨s, rfl⟩
  | cons op ops ih =>
    obtain ⟨hop, hops⟩ := List.forall_mem_cons.mp h
    have hstep : ∃ u, s.step op = some u := by
      cases op with
      | draw d =>
        obtain ⟨ws, hws⟩ := writes_isSome s.fb hop
        exact ⟨s.plot ws, by rw [Screen.step, Screen.draw, hws]; rfl⟩
      | present => exact ⟨_, rfl⟩
    obtain ⟨u, hu⟩ := hstep
    obtain ⟨s', hs'⟩ := ih (s := u) hops
    refine ⟨s', ?_⟩
    rw [Screen.run, List.foldlM_cons, hu]
    exact hs'

theorem drawn_run (double : Bool) (v : View) (ops : List ScreenOp) :
    (Runs.run (View.step double) v ops).drawn = paintAll ops v.drawn := by
  induction ops generalizing v with
  | nil => rfl
  | cons op ops ih =>
    have hstep : (v.step double op).drawn = op.paint v.drawn := by cases op <;> rfl
    calc (Runs.run (View.step double) v (op :: ops)).drawn
        = paintAll ops (v.step double op).drawn := ih _
      _ = paintAll (op :: ops) v.drawn := by rw [hstep]; rfl

/-- With one buffer what is drawn is seen. -/
theorem seen_run_single (h : v.seen = v.drawn) (ops : List ScreenOp) :
    (Runs.run (View.step false) v ops).seen = paintAll ops v.drawn := by
  induction ops generalizing v with
  | nil => exact h
  | cons op ops ih =>
    have hstep : (v.step false op).seen = (v.step false op).drawn := by cases op <;> rfl
    have hdrawn : (v.step false op).drawn = op.paint v.drawn := by cases op <;> rfl
    calc (Runs.run (View.step false) v (op :: ops)).seen
        = paintAll ops (v.step false op).drawn := ih hstep
      _ = paintAll (op :: ops) v.drawn := by rw [hdrawn]; rfl

/-- With two buffers what is seen stays until the next `framebuffer_present`. -/
theorem seen_run_double (v : View) (hops : ScreenOp.present ∉ ops) :
    (Runs.run (View.step true) v ops).seen = v.seen := by
  induction ops generalizing v with
  | nil => rfl
  | cons op ops ih =>
    rw [List.mem_cons, not_or] at hops
    cases op with
    | draw d => exact ih _ hops.2
    | present => exact absurd rfl hops.1

end

section
variable {H : Type} {m : Allocator H} {heap : H} {width height : S32} {double : Bool}
  {fb : Framebuffer}

theorem framebufferCreate_sized (hwidth : 0 < width.toInt) (hheight : 0 < height.toInt)
    (hbytes : 4 * (width.toNat * height.toNat) < 2^31)
    (hcreate : (framebufferCreate m width height double heap).1 = some fb) :
    fb.width = width ∧ fb.height = height ∧ fb.doubleBuffered = double ∧ fb.Sized := by
  obtain ⟨hw, hh, block, hblock, -⟩ := framebufferCreate_some hcreate
  have hdouble : fb.doubleBuffered = double := by
    unfold framebufferCreate at hcreate
    split at hcreate
    · cases hcreate
    · split at hcreate
      · cases hcreate
      · split at hcreate
        · next hd =>
          split at hcreate
          · cases hcreate
          · obtain rfl := Option.some.inj hcreate
            rfl
        · obtain rfl := Option.some.inj hcreate
          rfl
  refine ⟨hw, hh, hdouble, by rw [hw]; exact hwidth, by rw [hh]; exact hheight, by rw [hw, hh]; exact hbytes,
    fun hd hnone => ?_⟩
  rw [Framebuffer.buffer, if_pos hd, hnone] at hblock
  cases hblock

theorem shows_created (hs : fb.Sized) (stale : Int → U32) :
    (Screen.created fb stale).Shows ⟨fun _ _ => 0, fun _ _ => 0⟩ := by
  have hzero : fb.Shows (fun _ => 0) fun _ _ => 0 := fun _ _ _ => rfl
  have hblack : fb.Shows (Screen.created fb stale).front fun _ _ => 0 := shows_copied hs hzero
  refine ⟨hblack, ?_⟩
  split
  · exact hblack
  · exact hblack

end

/-- **A back buffer changes nothing but the time.** Two framebuffers of the same positive
dimensions, up to 2^31 bytes, one of them double-buffered, are created on any heap and drawn
on with calls that come to an end. Up to the last `framebuffer_present` the one with the back
buffer shows, point by point, what the other shows after the calls before it: the picture
they paint on black. -/
theorem present_agrees (H : Type) (m : Allocator H) (heap heap' : H) (width height : S32)
    (double single : Framebuffer) (stale stale' : Int → U32) (before after : List ScreenOp)
    (hdouble : (framebufferCreate m width height true heap).1 = some double)
    (hsingle : (framebufferCreate m width height false heap').1 = some single)
    (hwidth : 0 < width.toInt) (hheight : 0 < height.toInt)
    (hbytes : 4 * (width.toNat * height.toNat) < 2^31)
    (hbefore : ∀ op ∈ before, op.Ends) (hafter : ∀ op ∈ after, op.Ends)
    (hlast : ScreenOp.present ∉ after) :
    ∃ s s', (Screen.created double stale).run (before ++ .present :: after) = some s ∧
      (Screen.created single stale').run before = some s' ∧
      ∀ x y, 0 ≤ x → x < width.toInt → 0 ≤ y → y < height.toInt →
        s.front (y * width.toInt + x) = s'.front (y * width.toInt + x) ∧
        s.front (y * width.toInt + x) = paintAll before (fun _ _ => 0) x y := by
  obtain ⟨hw, hh, hd, hs⟩ := framebufferCreate_sized hwidth hheight hbytes hdouble
  obtain ⟨hw', hh', hd', hs'⟩ := framebufferCreate_sized hwidth hheight hbytes hsingle
  have hpresent : ScreenOp.present.Ends := trivial
  obtain ⟨s, hrun⟩ := run_isSome (s := Screen.created double stale)
    (List.forall_mem_append.mpr ⟨hbefore, List.forall_mem_cons.mpr ⟨hpresent, hafter⟩⟩)
  obtain ⟨s', hrun'⟩ := run_isSome (s := Screen.created single stale') hbefore
  obtain ⟨hfb, hshows⟩ := (shows_created hs stale).run hs hrun
  obtain ⟨hfb', hshows'⟩ := (shows_created hs' stale').run hs' hrun'
  refine ⟨s, s', hrun, hrun', fun x y hx hxlt hy hylt => ?_⟩
  have hseen : s.front (y * width.toInt + x) = paintAll before (fun _ _ => 0) x y := by
    have hfront := hshows.front x y (by rw [hfb]; exact ⟨hx, hw ▸ hxlt, hy, hh ▸ hylt⟩)
    have hdb : (Screen.created double stale).fb.doubleBuffered = true := hd
    rw [Framebuffer.cell, hfb, hdb, Runs.run, List.foldl_append, List.foldl_cons] at hfront
    rw [← hw]
    refine hfront.trans ?_
    show (Runs.run (View.step true) _ after).seen x y = _
    rw [seen_run_double _ hlast]
    exact congrFun (congrFun (drawn_run true _ before) x) y
  have hseen' : s'.front (y * width.toInt + x) = paintAll before (fun _ _ => 0) x y := by
    have hfront := hshows'.front x y (by rw [hfb']; exact ⟨hx, hw' ▸ hxlt, hy, hh' ▸ hylt⟩)
    have hdb : (Screen.created single stale').fb.doubleBuffered = false := hd'
    rw [Framebuffer.cell, hfb', hdb] at hfront
    rw [← hw']
    refine hfront.trans ?_
    exact congrFun (congrFun (seen_run_single rfl before) x) y
  exact ⟨hseen.trans hseen'.symm, hseen⟩

/-- A point is drawn and presented, and then everything is cleared. -/
theorem present_agrees_screen :
    ∃ double s, (framebufferCreate exactAllocator 1024 768 true ()).1 = some double ∧
      (Screen.created double fun _ => 7).run [.draw (.pixel 3 4 ⟨1, 2, 3, 255⟩), .present,
        .draw (.clear ⟨9, 9, 9, 255⟩)] = some s ∧ s.front (4 * 1024 + 3) = 0xFF010203 := by
  obtain ⟨double, hdouble, -⟩ := framebufferCreate_exact 1024 768 true
  obtain ⟨single, hsingle, -⟩ := framebufferCreate_exact 1024 768 false
  obtain ⟨s, s', hrun, -, hshows⟩ := present_agrees Unit exactAllocator () () 1024 768 double
    single (fun _ => 7) (fun _ => 7) [.draw (.pixel 3 4 ⟨1, 2, 3, 255⟩)]
    [.draw (.clear ⟨9, 9, 9, 255⟩)] hdouble hsingle (by decide) (by decide) (by decide)
    (List.forall_mem_singleton.mpr trivial) (List.forall_mem_singleton.mpr trivial) (by simp)
  obtain ⟨-, hpicture⟩ := hshows 3 4 (by decide) (by decide) (by decide) (by decide)
  exact ⟨double, s, hdouble, hrun, hpicture⟩

end JarJar.Gui
