import JarJar.Framebuffer
import JarJar.Lib.Raster
import Mathlib.Data.List.Chain

/- Drawing a line. `framebuffer_draw_line` walks from one end to the other with an error
   term, the two tests of a turn looking at the same doubled error. It stops at the other
   end only, so that it must not miss it.

   Correspondence (C ↔ Lean):
     an `s32` result                          ↔ `s32`, `none` when it overflows
     `abs`                                    ↔ `abs`
     `x2`, `y2`, `dx`, `sx`, `dy`, `sy`       ↔ `Line`
     `x1`, `y1`, `err`                        ↔ `Turn`
     the body of the loop behind the `break`  ↔ `lineStep`
     the loop, `framebuffer_draw_line`        ↔ `drawLoop`, `framebufferDrawLine`
   The result is the points `framebuffer_draw_pixel` is called with, in order; the loop
   takes a bound on its turns. -/
namespace JarJar.Gui
open Raster

/-- The number is one of an `s32`. -/
def Fits32 (v : Int) : Prop := -2^31 ≤ v ∧ v < 2^31

instance (v : Int) : Decidable (Fits32 v) := inferInstanceAs (Decidable (_ ∧ _))

/-- The result of an operation on `s32`, undefined when it overflows. -/
def s32 (v : Int) : Option Int := if Fits32 v then some v else none

def abs (x : Int) : Option Int := if x < 0 then s32 (-x) else some x

structure Line where
  x2 : Int
  y2 : Int
  dx : Int
  sx : Int
  dy : Int
  sy : Int

structure Turn where
  x1 : Int
  y1 : Int
  err : Int

def lineStep (line : Line) (t : Turn) : Option Turn := do
  let e2 ← s32 (2 * t.err)
  let t ←
    if e2 ≥ line.dy then do
      let err ← s32 (t.err + line.dy)
      let x1 ← s32 (t.x1 + line.sx)
      some { t with err, x1 }
    else some t
  if e2 ≤ line.dx then do
    let err ← s32 (t.err + line.dx)
    let y1 ← s32 (t.y1 + line.sy)
    some { t with err, y1 }
  else some t

def drawLoop (line : Line) : Nat → Turn → Option (List (Int × Int))
  | 0, _ => none
  | fuel + 1, t =>
    if t.x1 = line.x2 ∧ t.y1 = line.y2 then some [(t.x1, t.y1)]
    else do
      let next ← lineStep line t
      let rest ← drawLoop line fuel next
      some ((t.x1, t.y1) :: rest)

def framebufferDrawLine (fuel : Nat) (x1 y1 x2 y2 : S32) : Option (List (Int × Int)) := do
  let dx ← abs (← s32 (x2.toInt - x1.toInt))
  let sx := if x1.toInt < x2.toInt then 1 else -1
  let dy ← s32 (-(← abs (← s32 (y2.toInt - y1.toInt))))
  let sy := if y1.toInt < y2.toInt then 1 else -1
  let err ← s32 (dx + dy)
  drawLoop ⟨x2.toInt, y2.toInt, dx, sx, dy, sy⟩ fuel ⟨x1.toInt, y1.toInt, err⟩

/-! ## The loop -/

/-- One point follows the other in a line that goes `a` points to the side and `b` up or
down. -/
def Adjacent (a b : Int) (p q : Int × Int) : Prop :=
  |q.1 - p.1| ≤ 1 ∧ |q.2 - p.2| ≤ 1 ∧ (b ≤ a → |q.1 - p.1| = 1) ∧ (a ≤ b → |q.2 - p.2| = 1)

def Turn.point (t : Turn) : Int × Int := (t.x1, t.y1)

section
variable {line : Line} {t : Turn} {a b : Int}

/-- What a run draws when `n` more turns lead to the end and each keeps an invariant. -/
theorem drawLoop_spec {Inv : Nat → Turn → Prop}
    (hend : ∀ t, Inv 0 t → t.point = (line.x2, line.y2))
    (hstep : ∀ n t, Inv (n + 1) t → t.point ≠ (line.x2, line.y2) ∧
      ∃ t', lineStep line t = some t' ∧ Inv n t' ∧ Adjacent a b t.point t'.point)
    {n : Nat} (h : Inv n t) :
    ∃ points, drawLoop line (n + 1) t = some points ∧ points.length = n + 1 ∧
      points.head? = some t.point ∧ points.getLast? = some (line.x2, line.y2) ∧
      points.IsChain (Adjacent a b) ∧ ∀ p ∈ points, ∃ m u, Inv m u ∧ p = u.point := by
  induction n generalizing t with
  | zero =>
    have hpoint := hend t h
    rw [drawLoop, if_pos (Prod.mk.inj hpoint)]
    refine ⟨[t.point], rfl, rfl, rfl, by rw [hpoint]; rfl, List.isChain_singleton _, ?_⟩
    intro p hp
    exact ⟨0, t, h, List.mem_singleton.mp hp⟩
  | succ n ih =>
    obtain ⟨hpoint, t', hnext, hinv, hadjacent⟩ := hstep n t h
    obtain ⟨points, hrun, hlength, hhead, hlast, hchain, hpoints⟩ := ih hinv
    rw [drawLoop, if_neg fun heq => hpoint (Prod.ext heq.1 heq.2), hnext]
    refine ⟨t.point :: points, ?_, by rw [List.length_cons, hlength], rfl, ?_, ?_, ?_⟩
    · simp [hrun, Turn.point]
    · rw [List.getLast?_cons, hlast]
      rfl
    · apply List.isChain_cons.mpr
      refine ⟨?_, hchain⟩
      intro p hp
      rw [hhead] at hp
      obtain rfl := Option.some.inj hp
      exact hadjacent
    · intro p hp
      cases List.mem_cons.mp hp with
      | inl heq => exact ⟨n + 1, t, h, heq⟩
      | inr hp => exact hpoints p hp

theorem s32_eq {v : Int} (h : Fits32 v) : s32 v = some v := if_pos h

theorem lineStep_eq {x y err : Int} (hdouble : Fits32 (2 * err))
    (hx : line.dy ≤ 2 * err → Fits32 (err + line.dy) ∧ Fits32 (x + line.sx))
    (hy : 2 * err ≤ line.dx →
      Fits32 ((if line.dy ≤ 2 * err then err + line.dy else err) + line.dx) ∧ Fits32 (y + line.sy)) :
    lineStep line ⟨x, y, err⟩ = some
      ⟨if line.dy ≤ 2 * err then x + line.sx else x, if 2 * err ≤ line.dx then y + line.sy else y,
        (if line.dy ≤ 2 * err then err + line.dy else err) +
          if 2 * err ≤ line.dx then line.dx else 0⟩ := by
  rw [lineStep, s32_eq hdouble]
  by_cases hright : line.dy ≤ 2 * err
  · by_cases hup : 2 * err ≤ line.dx
    · simp only [if_pos hright] at hy
      simp [hright, hup, s32_eq (hx hright).1, s32_eq (hx hright).2, s32_eq (hy hup).1,
        s32_eq (hy hup).2]
    · simp [hright, hup, s32_eq (hx hright).1, s32_eq (hx hright).2]
  · by_cases hup : 2 * err ≤ line.dx
    · simp only [if_neg hright] at hy
      simp [hright, hup, s32_eq (hy hup).1, s32_eq (hy hup).2]
    · simp [hright, hup]

end

/-! ## From one end to the other -/

/-- A line from `(x1, y1)` that goes `a` points to the side and `b` up or down. -/
structure Spans (line : Line) (x1 y1 a b : Int) : Prop where
  right : Sign line.sx
  up : Sign line.sy
  dx : line.dx = a
  dy : line.dy = -b
  x2 : line.x2 = x1 + line.sx * a
  y2 : line.y2 = y1 + line.sy * b
  width : 0 ≤ a ∧ a < 2^29
  height : 0 ≤ b ∧ b < 2^29
  from_fits : Fits32 x1 ∧ Fits32 y1
  to_fits : Fits32 line.x2 ∧ Fits32 line.y2

/-- The state after `i` steps to the side and `j` up or down. -/
def Line.turn (line : Line) (x1 y1 i j err : Int) : Turn := ⟨x1 + line.sx * i, y1 + line.sy * j, err⟩

theorem fits_between {v s len i : Int} (hs : Sign s) (hv : Fits32 v) (hend : Fits32 (v + s * len))
    (hi : 0 ≤ i ∧ i ≤ len) : Fits32 (v + s * i) := by
  unfold Fits32 at hv hend ⊢
  obtain rfl | rfl := hs <;> omega

theorem step_along (v s i : Int) : v + s * i + s = v + s * (i + 1) := by
  rw [Int.mul_add, Int.mul_one, Int.add_assoc]

section
variable {line : Line} {x1 y1 a b i j err : Int}

theorem Spans.fits_x (h : Spans line x1 y1 a b) (hi : 0 ≤ i ∧ i ≤ a) : Fits32 (x1 + line.sx * i) :=
  fits_between h.right h.from_fits.1 (h.x2 ▸ h.to_fits.1) hi

theorem Spans.fits_y (h : Spans line x1 y1 a b) (hj : 0 ≤ j ∧ j ≤ b) : Fits32 (y1 + line.sy * j) :=
  fits_between h.up h.from_fits.2 (h.y2 ▸ h.to_fits.2) hj

theorem Spans.step_wide (h : Spans line x1 y1 a b) (hle : b ≤ a) (hwalk : Walk a b i j err)
    (hi : i < a) :
    ∃ j' err', lineStep line (line.turn x1 y1 i j err) = some (line.turn x1 y1 (i + 1) j' err') ∧
      Walk a b (i + 1) j' err' ∧ (j' = j + 1 ∨ j' = j ∧ ¬ 2 * err ≤ a) := by
  have hwidth := h.width
  have hheight := h.height
  have hbounded := hwalk.bounded hle hheight.1
  have halong := hwalk.along hle
  have hforward := hwalk.forward
  have hx : Fits32 (x1 + line.sx * i + line.sx) := by
    rw [step_along]
    exact h.fits_x (by omega)
  have hright : line.dy ≤ 2 * err := by rw [h.dy]; exact halong
  have hdouble : Fits32 (2 * err) := by unfold Fits32; omega
  have hdown : Fits32 (err + line.dy) := by rw [h.dy]; unfold Fits32; omega
  by_cases hup : 2 * err ≤ a
  · have hnext := hwalk.across hle hi hup
    have hy : Fits32 (y1 + line.sy * j + line.sy) := by
      rw [step_along]
      exact h.fits_y hnext.sideways
    have hsum : Fits32 (err + line.dy + line.dx) := by rw [h.dx, h.dy]; unfold Fits32; omega
    refine ⟨j + 1, err - b + a, ?_, hnext, Or.inl rfl⟩
    rw [Line.turn, lineStep_eq hdouble (fun _ => ⟨hdown, hx⟩) (fun _ => by
      rw [if_pos hright]; exact ⟨hsum, hy⟩)]
    rw [if_pos hright, if_pos hright, h.dx, if_pos hup, if_pos hup, h.dy, step_along, step_along]
    rfl
  · have hnext := hwalk.straight hi hup
    refine ⟨j, err - b, ?_, hnext, Or.inr ⟨rfl, hup⟩⟩
    rw [Line.turn, lineStep_eq hdouble (fun _ => ⟨hdown, hx⟩) (fun hc => absurd (h.dx ▸ hc) hup)]
    rw [if_pos hright, if_pos hright, h.dx, if_neg hup, if_neg hup, h.dy, step_along, Int.add_zero]
    rfl

theorem Spans.step_steep (h : Spans line x1 y1 a b) (hle : a ≤ b) (hwalk : Walk b a j i (-err))
    (hj : j < b) :
    ∃ i' err', lineStep line (line.turn x1 y1 i j err) = some (line.turn x1 y1 i' (j + 1) err') ∧
      Walk b a (j + 1) i' (-err') ∧ (i' = i + 1 ∨ i' = i ∧ ¬ -b ≤ 2 * err) := by
  have hwidth := h.width
  have hheight := h.height
  have hbounded := hwalk.bounded hle hwidth.1
  have halong := hwalk.along hle
  have hforward := hwalk.forward
  have hy : Fits32 (y1 + line.sy * j + line.sy) := by
    rw [step_along]
    exact h.fits_y (by omega)
  have hup : 2 * err ≤ line.dx := by rw [h.dx]; omega
  have hdouble : Fits32 (2 * err) := by unfold Fits32; omega
  by_cases hright : line.dy ≤ 2 * err
  · have hnear : 2 * -err ≤ b := by rw [h.dy] at hright; omega
    have hnext := hwalk.across hle hj hnear
    have hx : Fits32 (x1 + line.sx * i + line.sx) := by
      rw [step_along]
      exact h.fits_x hnext.sideways
    have hdown : Fits32 (err + line.dy) := by rw [h.dy]; unfold Fits32; omega
    have hsum : Fits32 (err + line.dy + line.dx) := by rw [h.dx, h.dy]; unfold Fits32; omega
    refine ⟨i + 1, err - b + a, ?_, ?_, Or.inl rfl⟩
    · rw [Line.turn, lineStep_eq hdouble (fun _ => ⟨hdown, hx⟩) (fun _ => by
        rw [if_pos hright]; exact ⟨hsum, hy⟩)]
      rw [if_pos hright, if_pos hright, if_pos hup, if_pos hup, h.dx, h.dy, step_along, step_along]
      rfl
    · have hflip : -(err - b + a) = -err - a + b := by omega
      rw [hflip]
      exact hnext
  · have hfar : ¬ 2 * -err ≤ b := by rw [h.dy] at hright; omega
    have hnext := hwalk.straight hj hfar
    have hsum : Fits32 (err + line.dx) := by rw [h.dx]; unfold Fits32; omega
    refine ⟨i, err + a, ?_, ?_, Or.inr ⟨rfl, by rw [h.dy] at hright; exact hright⟩⟩
    · rw [Line.turn, lineStep_eq hdouble (fun hc => absurd hc hright) (fun _ => by
        rw [if_neg hright]; exact ⟨hsum, hy⟩)]
      rw [if_neg hright, if_neg hright, if_pos hup, if_pos hup, h.dx, step_along]
      rfl
    · rw [Int.neg_add, ← Int.sub_eq_add_neg]
      exact hnext

theorem abs_along {v s i i' : Int} (hs : Sign s) : |v + s * i' - (v + s * i)| = |i' - i| := by
  have hdistance : v + s * i' - (v + s * i) = s * (i' - i) := by
    rw [Int.mul_sub]
    omega
  rw [hdistance]
  obtain rfl | rfl := hs
  · rw [Int.one_mul]
  · rw [Int.neg_one_mul, abs_neg]

theorem Spans.adjacent (h : Spans line x1 y1 a b) {i' j' err' : Int} (hi : i' = i + 1 ∨ i' = i ∧ a < b)
    (hj : j' = j + 1 ∨ j' = j ∧ b < a) :
    Adjacent a b (line.turn x1 y1 i j err).point (line.turn x1 y1 i' j' err').point := by
  simp only [Adjacent, Line.turn, Turn.point, abs_along h.right, abs_along h.up]
  obtain rfl | ⟨rfl, ha⟩ := hi <;> obtain rfl | ⟨rfl, hb⟩ := hj <;> simp <;> omega

/-- The line comes apart into the turns of a walk along its width. -/
def Wide (line : Line) (x1 y1 a b : Int) (n : Nat) (t : Turn) : Prop :=
  ∃ i j err, t = line.turn x1 y1 i j err ∧ Walk a b i j err ∧ i + n = a

/-- The line comes apart into the turns of a walk along its height. -/
def Steep (line : Line) (x1 y1 a b : Int) (n : Nat) (t : Turn) : Prop :=
  ∃ i j err, t = line.turn x1 y1 i j err ∧ Walk b a j i (-err) ∧ j + n = b

theorem along_inj {v s i i' : Int} (hs : Sign s) (h : v + s * i = v + s * i') : i = i' := by
  obtain rfl | rfl := hs <;> omega

theorem Spans.wide_end (h : Spans line x1 y1 a b) (hle : b ≤ a) (t : Turn)
    (ht : Wide line x1 y1 a b 0 t) : t.point = (line.x2, line.y2) := by
  obtain ⟨i, j, err, rfl, hwalk, hi⟩ := ht
  obtain rfl : i = a := by omega
  obtain rfl := hwalk.arrives hle
  rw [h.x2, h.y2]
  rfl

theorem Spans.steep_end (h : Spans line x1 y1 a b) (hle : a ≤ b) (t : Turn)
    (ht : Steep line x1 y1 a b 0 t) : t.point = (line.x2, line.y2) := by
  obtain ⟨i, j, err, rfl, hwalk, hj⟩ := ht
  obtain rfl : j = b := by omega
  obtain rfl := hwalk.arrives hle
  rw [h.x2, h.y2]
  rfl

theorem Spans.wide_step (h : Spans line x1 y1 a b) (hle : b ≤ a) (n : Nat) (t : Turn)
    (ht : Wide line x1 y1 a b (n + 1) t) :
    t.point ≠ (line.x2, line.y2) ∧ ∃ t', lineStep line t = some t' ∧ Wide line x1 y1 a b n t' ∧
      Adjacent a b t.point t'.point := by
  obtain ⟨i, j, err, rfl, hwalk, hi⟩ := ht
  rw [Int.natCast_succ] at hi
  obtain ⟨j', err', hstep, hnext, hj⟩ := h.step_wide hle hwalk (by omega)
  refine ⟨fun heq => ?_, _, hstep, ⟨i + 1, j', err', rfl, hnext, by omega⟩,
    h.adjacent (Or.inl rfl) (hj.imp_right fun hstays => ⟨hstays.1, ?_⟩)⟩
  · have hx : x1 + line.sx * i = x1 + line.sx * a := (Prod.mk.inj heq).1.trans h.x2
    have hend := along_inj h.right hx
    omega
  · -- on a diagonal the error never keeps the walk on its row
    have hhigh := hwalk.high
    omega

theorem Spans.steep_step (h : Spans line x1 y1 a b) (hle : a ≤ b) (n : Nat) (t : Turn)
    (ht : Steep line x1 y1 a b (n + 1) t) :
    t.point ≠ (line.x2, line.y2) ∧ ∃ t', lineStep line t = some t' ∧ Steep line x1 y1 a b n t' ∧
      Adjacent a b t.point t'.point := by
  obtain ⟨i, j, err, rfl, hwalk, hj⟩ := ht
  rw [Int.natCast_succ] at hj
  obtain ⟨i', err', hstep, hnext, hi⟩ := h.step_steep hle hwalk (by omega)
  refine ⟨fun heq => ?_, _, hstep, ⟨i', j + 1, err', rfl, hnext, by omega⟩,
    h.adjacent (hi.imp_right fun hstays => ⟨hstays.1, ?_⟩) (Or.inl rfl)⟩
  · have hy : y1 + line.sy * j = y1 + line.sy * b := (Prod.mk.inj heq).2.trans h.y2
    have hend := along_inj h.up hy
    omega
  · have hhigh := hwalk.high
    omega

/-- No point of a walk along the width is more than half a point above or below the line. -/
theorem Spans.close_wide (h : Spans line x1 y1 a b) (hle : b ≤ a) (hwalk : Walk a b i j err) :
    |((line.turn x1 y1 i j err).y1 : ℚ) -
      lineAt x1 line.x2 y1 line.y2 (line.turn x1 y1 i j err).x1| ≤ 1 / 2 := by
  rw [h.x2, h.y2]
  exact hwalk.close hle h.right h.up

theorem Spans.close_steep (h : Spans line x1 y1 a b) (hle : a ≤ b) (hwalk : Walk b a j i (-err)) :
    |((line.turn x1 y1 i j err).x1 : ℚ) -
      lineAt y1 line.y2 x1 line.x2 (line.turn x1 y1 i j err).y1| ≤ 1 / 2 := by
  rw [h.x2, h.y2]
  exact hwalk.close hle h.up h.right

end

/-! ## All lines -/

/-- The points are those of the line from `(x1, y1)` to `(x2, y2)`, `n` steps from end to
end: one follows the other, and along the axis on which the line is not longer none is more
than half a point away from it. -/
structure Draws (x1 y1 x2 y2 : Int) (n : Nat) (points : List (Int × Int)) : Prop where
  length : points.length = n + 1
  first : points.head? = some (x1, y1)
  last : points.getLast? = some (x2, y2)
  chain : points.IsChain (Adjacent |x2 - x1| |y2 - y1|)
  wide : |y2 - y1| ≤ |x2 - x1| → ∀ p ∈ points, |(p.2 : ℚ) - lineAt x1 x2 y1 y2 p.1| ≤ 1 / 2
  steep : |x2 - x1| ≤ |y2 - y1| → ∀ p ∈ points, |(p.1 : ℚ) - lineAt y1 y2 x1 x2 p.2| ≤ 1 / 2

section
variable {line : Line} {x1 y1 a b : Int} {n : Nat}

theorem Spans.abs_width (h : Spans line x1 y1 a b) : |line.x2 - x1| = a := by
  have hstart : x1 = x1 + line.sx * 0 := by rw [Int.mul_zero, Int.add_zero]
  calc |line.x2 - x1| = |x1 + line.sx * a - (x1 + line.sx * 0)| := by rw [← hstart, h.x2]
    _ = |a - 0| := abs_along h.right
    _ = a := by rw [Int.sub_zero, abs_of_nonneg h.width.1]

theorem Spans.abs_height (h : Spans line x1 y1 a b) : |line.y2 - y1| = b := by
  have hstart : y1 = y1 + line.sy * 0 := by rw [Int.mul_zero, Int.add_zero]
  calc |line.y2 - y1| = |y1 + line.sy * b - (y1 + line.sy * 0)| := by rw [← hstart, h.y2]
    _ = |b - 0| := abs_along h.up
    _ = b := by rw [Int.sub_zero, abs_of_nonneg h.height.1]

theorem start_point : (line.turn x1 y1 0 0 (a - b)).point = (x1, y1) := by simp [Line.turn, Turn.point]

theorem Spans.draws_wide (h : Spans line x1 y1 a b) (hle : b ≤ a) (hn : n = a) :
    ∃ points, drawLoop line (n + 1) (line.turn x1 y1 0 0 (a - b)) = some points ∧
      Draws x1 y1 line.x2 line.y2 n points := by
  have hinv : Wide line x1 y1 a b n (line.turn x1 y1 0 0 (a - b)) :=
    ⟨0, 0, a - b, rfl, Walk.start h.height.1 hle, by omega⟩
  obtain ⟨points, hrun, hlength, hfirst, hlast, hchain, hpoints⟩ :=
    drawLoop_spec (h.wide_end hle) (h.wide_step hle) hinv
  rw [start_point] at hfirst
  refine ⟨points, hrun, hlength, hfirst, hlast, ?_, fun _ p hp => ?_, fun hge p hp => ?_⟩
  · rw [h.abs_width, h.abs_height]
    exact hchain
  · obtain ⟨m, t, ⟨i, j, err, rfl, hwalk, -⟩, rfl⟩ := hpoints p hp
    exact h.close_wide hle hwalk
  · obtain ⟨m, t, ⟨i, j, err, rfl, hwalk, -⟩, rfl⟩ := hpoints p hp
    rw [h.abs_width, h.abs_height] at hge
    obtain rfl : a = b := Int.le_antisymm hge hle
    exact h.close_steep (Int.le_refl a) hwalk.swap

theorem Spans.draws_steep (h : Spans line x1 y1 a b) (hle : a ≤ b) (hn : n = b) :
    ∃ points, drawLoop line (n + 1) (line.turn x1 y1 0 0 (a - b)) = some points ∧
      Draws x1 y1 line.x2 line.y2 n points := by
  have hwalk := Walk.start h.width.1 hle
  rw [← Int.neg_sub] at hwalk
  have hinv : Steep line x1 y1 a b n (line.turn x1 y1 0 0 (a - b)) :=
    ⟨0, 0, a - b, rfl, hwalk, by omega⟩
  obtain ⟨points, hrun, hlength, hfirst, hlast, hchain, hpoints⟩ :=
    drawLoop_spec (h.steep_end hle) (h.steep_step hle) hinv
  rw [start_point] at hfirst
  refine ⟨points, hrun, hlength, hfirst, hlast, ?_, fun hge p hp => ?_, fun _ p hp => ?_⟩
  · rw [h.abs_width, h.abs_height]
    exact hchain
  · obtain ⟨m, t, ⟨i, j, err, rfl, hwalk, -⟩, rfl⟩ := hpoints p hp
    rw [h.abs_width, h.abs_height] at hge
    obtain rfl : a = b := Int.le_antisymm hle hge
    have hflat := hwalk.swap
    rw [Int.neg_neg] at hflat
    exact h.close_wide (Int.le_refl a) hflat
  · obtain ⟨m, t, ⟨i, j, err, rfl, hwalk, -⟩, rfl⟩ := hpoints p hp
    exact h.close_steep hle hwalk

end

theorem toward (v w : Int) : Sign (if v < w then 1 else -1) ∧
    w = v + (if v < w then 1 else -1) * |w - v| := by
  by_cases hlt : v < w
  · rw [if_pos hlt, abs_of_pos (by omega)]
    exact ⟨Or.inl rfl, by omega⟩
  · rw [if_neg hlt, abs_of_nonpos (by omega)]
    exact ⟨Or.inr rfl, by omega⟩

theorem abs_eq {v : Int} (h : |v| < 2^29) : s32 v = some v ∧ abs v = some |v| ∧ s32 (-|v|) = some (-|v|) := by
  obtain ⟨hlow, hhigh⟩ := abs_lt.mp h
  have hnonneg := abs_nonneg v
  refine ⟨s32_eq (by unfold Fits32; omega), ?_, s32_eq (by unfold Fits32; omega)⟩
  by_cases hneg : v < 0
  · rw [abs, if_pos hneg, s32_eq (by unfold Fits32; omega), abs_of_neg hneg]
  · rw [abs, if_neg hneg, abs_of_nonneg (by omega)]

theorem toInt_fits (v : S32) : Fits32 v.toInt := by
  have hlow := BitVec.le_toInt v
  have hhigh := BitVec.toInt_lt (x := v)
  unfold Fits32
  omega

/-- **Every line is drawn from end to end.** For ends less than 2^29 apart on both axes, no
operation of the loop overflows and it comes to an end after exactly one call more than the
longer of the two distances, with the points of the line. -/
theorem framebuffer_draw_line_spec (x1 y1 x2 y2 : S32) (hdx : |x2.toInt - x1.toInt| < 2^29)
    (hdy : |y2.toInt - y1.toInt| < 2^29) :
    let n := max (x2.toInt - x1.toInt).natAbs (y2.toInt - y1.toInt).natAbs
    ∃ points, framebufferDrawLine (n + 1) x1 y1 x2 y2 = some points ∧
      Draws x1.toInt y1.toInt x2.toInt y2.toInt n points := by
  intro n
  let line : Line := ⟨x2.toInt, y2.toInt, |x2.toInt - x1.toInt|,
    if x1.toInt < x2.toInt then 1 else -1, -|y2.toInt - y1.toInt|,
    if y1.toInt < y2.toInt then 1 else -1⟩
  have hspans : Spans line x1.toInt y1.toInt |x2.toInt - x1.toInt| |y2.toInt - y1.toInt| :=
    { right := (toward _ _).1, up := (toward _ _).1, dx := rfl, dy := rfl,
      x2 := (toward _ _).2, y2 := (toward _ _).2,
      width := ⟨abs_nonneg _, hdx⟩, height := ⟨abs_nonneg _, hdy⟩,
      from_fits := ⟨toInt_fits x1, toInt_fits y1⟩, to_fits := ⟨toInt_fits x2, toInt_fits y2⟩ }
  have hrun : framebufferDrawLine (n + 1) x1 y1 x2 y2 = drawLoop line (n + 1)
      (line.turn x1.toInt y1.toInt 0 0 (|x2.toInt - x1.toInt| - |y2.toInt - y1.toInt|)) := by
    obtain ⟨hright, habsRight, -⟩ := abs_eq hdx
    obtain ⟨hup, habsUp, hnegative⟩ := abs_eq hdy
    have hwidth := hspans.width
    have hheight := hspans.height
    have herr : s32 (|x2.toInt - x1.toInt| + -|y2.toInt - y1.toInt|) =
        some (|x2.toInt - x1.toInt| - |y2.toInt - y1.toInt|) := by
      rw [← Int.sub_eq_add_neg, s32_eq (by unfold Fits32; omega)]
    simp [framebufferDrawLine, hright, habsRight, hup, habsUp, hnegative, herr, line, Line.turn]
  have habsX := Int.natCast_natAbs (x2.toInt - x1.toInt)
  have habsY := Int.natCast_natAbs (y2.toInt - y1.toInt)
  rw [hrun]
  obtain hle | hle := Int.le_total |y2.toInt - y1.toInt| |x2.toInt - x1.toInt|
  · exact hspans.draws_wide hle (by omega)
  · exact hspans.draws_steep hle (by omega)

/-- Five points to the right and two up, from the origin. -/
theorem framebuffer_draw_line_spec_five :
    let n := max ((5 : S32).toInt - (0 : S32).toInt).natAbs ((2 : S32).toInt - (0 : S32).toInt).natAbs
    ∃ points, framebufferDrawLine (n + 1) 0 0 5 2 = some points ∧
      Draws (0 : S32).toInt (0 : S32).toInt (5 : S32).toInt (2 : S32).toInt n points :=
  framebuffer_draw_line_spec 0 0 5 2 (by decide) (by decide)

example : framebufferDrawLine 6 0 0 5 2 =
    some [(0, 0), (1, 0), (2, 1), (3, 1), (4, 2), (5, 2)] := by decide

end JarJar.Gui
