import JarJar.Screen

/- The window manager. It keeps up to 32 windows in the order in which they were added, and
   `wm_render` draws every frame from scratch: the background, a grid, a border for each
   window that is visible, and then the back buffer is presented.

   Correspondence (C ↔ Lean):
     `rect_t`, `window_t`                       ↔ `Rect`, `Window`
     `window_manager_t` and its framebuffer     ↔ `WindowManager`
     `wm_create`, `wm_add_window`               ↔ `wmCreate`, `wmAddWindow`
     `window_create`                            ↔ `windowCreate`
     `wm_render`                                ↔ `frame`, `wmRender`
     `gui_init`, `jarvis_gui_init`              ↔ `guiInit`, `jarvisGuiInit`
     the `draw_hex_grid`, … of stubs.c          ↔ `stubs`
   `draw_hex_grid` and `draw_tech_border` have stubs only, which draw nothing, and the calls
   are made for functions that are to come: they are parameters, which draw with the drawing
   functions (`Artist`). Fields of a window that `wm_render` does not look at are left out.

   What is proved (`render_shows`): when `kmalloc` gives the array of windows, which nothing
   checks, then after any calls and a `wm_render` the screen shows the grid and the borders of
   the visible ones of the first 32 windows that were added, with the bounds they have then,
   and nothing of what was drawn before; with the stubs, that is the background alone. -/
namespace JarJar.Gui

structure Rect where
  x : S32
  y : S32
  width : S32
  height : S32

structure Window where
  bounds : Rect
  visible : Bool

/-- The drawing functions of the decor: what they draw on a framebuffer. -/
structure Artist where
  drawHexGrid : Framebuffer → Rect → Color → S32 → List Draw
  drawTechBorder : Framebuffer → Rect → Color → List Draw

def stubs : Artist := ⟨fun _ _ _ _ => [], fun _ _ _ => []⟩

/-- The loops of what is drawn come to an end. -/
structure Artist.Careful (artist : Artist) : Prop where
  grid : ∀ fb rect color spacing, ∀ d ∈ artist.drawHexGrid fb rect color spacing,
    (ScreenOp.draw d).Ends
  border : ∀ fb rect color, ∀ d ∈ artist.drawTechBorder fb rect color, (ScreenOp.draw d).Ends

/-- The manager with its framebuffer, what is in the array of windows at `array`, and the
windows on the heap. -/
structure WindowManager where
  screen : Screen
  array : U64
  windows : List U64
  capacity : S32
  heap : U64 → Window

/-- `block` and `array` are what `kmalloc` returns for the manager and for its array, whose
NULL is not looked at. -/
def wmCreate (block array : U64) (screen : Screen) (heap : U64 → Window) : Option WindowManager :=
  if block = 0 then none else some ⟨screen, array, [], 32, heap⟩

/-- `none` when it stores through a NULL array. -/
def wmAddWindow (wm : WindowManager) (window : U64) : Option WindowManager :=
  if window ≠ 0 ∧ (wm.windows.length : Int) < wm.capacity.toInt then
    if wm.array = 0 then none else some { wm with windows := wm.windows ++ [window] }
  else some wm

/-- `window` is what `kmalloc` returns. -/
def windowCreate (wm : WindowManager) (window : U64) (bounds : Rect) : WindowManager :=
  if window = 0 then wm
  else { wm with heap := Function.update wm.heap window ⟨bounds, true⟩ }

/-- What `wm_render` draws. -/
def frame (artist : Artist) (fb : Framebuffer) (windows : List Window) : List ScreenOp :=
  .draw (.clear ⟨5, 5, 10, 255⟩) ::
    (artist.drawHexGrid fb ⟨0, 0, fb.width, fb.height⟩ ⟨0, 40, 80, 50⟩ 45 ++
      (windows.filter Window.visible).flatMap fun w =>
        artist.drawTechBorder fb w.bounds ⟨0, 180, 255, 255⟩).map .draw

def wmRender (artist : Artist) (wm : WindowManager) : Option WindowManager :=
  (wm.screen.run (frame artist wm.screen.fb (wm.windows.map wm.heap) ++ [.present])).map
    fun screen => { wm with screen }

/-- Two windows, in the blocks `kmalloc` returns. -/
def jarvisGuiInit (main dashboard : U64) (wm : WindowManager) : Option WindowManager := do
  let wm ← wmAddWindow (windowCreate wm main ⟨50, 50, 800, 600⟩) main
  wmAddWindow (windowCreate wm dashboard ⟨870, 50, 400, 300⟩) dashboard

/-- `none` when the framebuffer or the manager cannot be created, which is a panic, too. -/
def guiInit {H : Type} (m : Allocator H) (h : H) (stale : Int → U32) (heap : U64 → Window)
    (block array main dashboard : U64) : Option WindowManager := do
  let fb ← (framebufferCreate m 1024 768 true h).1
  let wm ← wmCreate block array (Screen.created fb stale) heap
  jarvisGuiInit main dashboard wm

/-- A call, a store to the fields of a window, or something drawn by others. -/
inductive WmOp where
  | create (window : U64) (bounds : Rect)
  | add (window : U64)
  | assign (window : U64) (fields : Window)
  | screen (op : ScreenOp)
  | render

namespace WindowManager

def step (artist : Artist) (wm : WindowManager) : WmOp → Option WindowManager
  | .create window bounds => some (windowCreate wm window bounds)
  | .add window => wmAddWindow wm window
  | .assign window fields => some { wm with heap := Function.update wm.heap window fields }
  | .screen op => (wm.screen.step op).map fun screen => { wm with screen }
  | .render => wmRender artist wm

def run (artist : Artist) (wm : WindowManager) (ops : List WmOp) : Option WindowManager :=
  ops.foldlM (step artist) wm

end WindowManager

/-- The windows on the heap after some calls. -/
def heapAfter (heap : U64 → Window) (ops : List WmOp) : U64 → Window :=
  ops.foldl (fun heap op =>
    match op with
    | .create window bounds =>
      if window = 0 then heap else Function.update heap window ⟨bounds, true⟩
    | .assign window fields => Function.update heap window fields
    | _ => heap) heap

/-- The window that a call adds. -/
def WmOp.added : WmOp → List U64
  | .add window => if window = 0 then [] else [window]
  | _ => []

def addedIn (ops : List WmOp) : List U64 := ops.flatMap WmOp.added

/-- No loop of what others draw overflows. -/
def WmOp.Ends : WmOp → Prop
  | .screen op => op.Ends
  | _ => True

/-! ## The windows -/

section
variable {artist : Artist} {wm wm' : WindowManager} {ops : List WmOp}

theorem added_length (op : WmOp) : op.added.length ≤ 1 := by
  cases op with
  | add window =>
    rw [WmOp.added]
    split
    · exact Nat.zero_le 1
    · exact Nat.le_refl 1
  | _ => exact Nat.zero_le 1

theorem step_frame {op : WmOp} (hstep : wm.step artist op = some wm') :
    wm'.heap = heapAfter wm.heap [op] ∧ wm'.capacity = wm.capacity ∧ wm'.array = wm.array ∧
      wm'.windows = if (wm.windows.length : Int) < wm.capacity.toInt then wm.windows ++ op.added
        else wm.windows := by
  have hnone {op : WmOp} (h : op.added = []) : wm.windows =
      if (wm.windows.length : Int) < wm.capacity.toInt then wm.windows ++ op.added
      else wm.windows := by
    rw [h, List.append_nil, ite_self]
  cases op with
  | create window bounds =>
    obtain rfl := Option.some.inj hstep
    rw [windowCreate]
    refine ⟨?_, ?_, ?_, ?_⟩
    · show _ = if window = 0 then wm.heap else Function.update wm.heap window ⟨bounds, true⟩
      split <;> rfl
    · split <;> rfl
    · split <;> rfl
    · split <;> exact hnone rfl
  | add window =>
    rw [WindowManager.step, wmAddWindow] at hstep
    rw [WmOp.added]
    by_cases hnull : window = 0
    · rw [if_neg fun h => h.1 hnull] at hstep
      obtain rfl := Option.some.inj hstep
      rw [if_pos hnull, List.append_nil, ite_self]
      exact ⟨rfl, rfl, rfl, rfl⟩
    · rw [if_neg hnull]
      by_cases hroom : (wm.windows.length : Int) < wm.capacity.toInt
      · rw [if_pos ⟨hnull, hroom⟩] at hstep
        split at hstep
        · cases hstep
        · obtain rfl := Option.some.inj hstep
          rw [if_pos hroom]
          exact ⟨rfl, rfl, rfl, rfl⟩
      · rw [if_neg fun h => hroom h.2] at hstep
        obtain rfl := Option.some.inj hstep
        rw [if_neg hroom]
        exact ⟨rfl, rfl, rfl, rfl⟩
  | assign window fields =>
    obtain rfl := Option.some.inj hstep
    exact ⟨rfl, rfl, rfl, hnone rfl⟩
  | screen op =>
    obtain ⟨s, -, rfl⟩ := Option.map_eq_some_iff.mp hstep
    exact ⟨rfl, rfl, rfl, hnone rfl⟩
  | render =>
    obtain ⟨s, -, rfl⟩ := Option.map_eq_some_iff.mp hstep
    exact ⟨rfl, rfl, rfl, hnone rfl⟩

theorem take_append_of_length_le {α : Type} {added more : List α} {n : Nat} (hmore : more.length ≤ 1) :
    (if ((added.take n).length : Int) < n then added.take n ++ more else added.take n) =
      (added ++ more).take n := by
  rw [List.length_take]
  by_cases hroom : added.length < n
  · rw [if_pos (by omega), List.take_of_length_le (Nat.le_of_lt hroom),
      List.take_of_length_le (by rw [List.length_append]; omega)]
  · rw [if_neg (by omega), List.take_append_of_le_length (by omega)]

/-- The array has the first windows that were added, as many as there is room for. -/
theorem windows_run (added : List U64) {n : Nat} (hcapacity : wm.capacity.toInt = n)
    (hwindows : wm.windows = added.take n) (hrun : wm.run artist ops = some wm') :
    wm'.heap = heapAfter wm.heap ops ∧ wm'.windows = (added ++ addedIn ops).take n := by
  induction ops generalizing wm added with
  | nil =>
    obtain rfl := Option.some.inj hrun
    exact ⟨rfl, hwindows.trans (by rw [addedIn, List.flatMap_nil, List.append_nil])⟩
  | cons op ops ih =>
    rw [WindowManager.run, List.foldlM_cons] at hrun
    obtain ⟨u, hu, hrun⟩ := Option.bind_eq_some_iff.mp hrun
    obtain ⟨hheap, hcap, -, hadd⟩ := step_frame hu
    rw [hwindows, hcapacity, take_append_of_length_le (added_length op)] at hadd
    obtain ⟨hheap', hwindows'⟩ := ih _ (hcap.symm ▸ hcapacity) hadd hrun
    refine ⟨?_, ?_⟩
    · rw [hheap', hheap]
      rfl
    · rw [hwindows', List.append_assoc]
      rfl

/-! ## The screen -/

theorem framebufferPresent_fb (s : Screen) : (framebufferPresent s).fb = s.fb := by
  rw [framebufferPresent]
  split <;> rfl

theorem screen_step_fb {s s' : Screen} {op : ScreenOp} (h : s.step op = some s') : s'.fb = s.fb := by
  cases op with
  | draw d =>
    obtain ⟨ws, -, rfl⟩ := Option.map_eq_some_iff.mp h
    rw [Screen.plot]
    split <;> rfl
  | present =>
    obtain rfl := Option.some.inj h
    exact framebufferPresent_fb s

theorem screen_run_fb {s s' : Screen} {ops : List ScreenOp} (h : s.run ops = some s') :
    s'.fb = s.fb := by
  induction ops generalizing s with
  | nil =>
    obtain rfl := Option.some.inj h
    rfl
  | cons op ops ih =>
    rw [Screen.run, List.foldlM_cons] at h
    obtain ⟨u, hu, h⟩ := Option.bind_eq_some_iff.mp h
    exact (ih h).trans (screen_step_fb hu)

theorem frame_ends (hartist : artist.Careful) (fb : Framebuffer) (windows : List Window) :
    ∀ op ∈ frame artist fb windows, op.Ends := by
  refine List.forall_mem_cons.mpr ⟨trivial, fun op hop => ?_⟩
  obtain ⟨d, hd, rfl⟩ := List.mem_map.mp hop
  obtain hd | hd := List.mem_append.mp hd
  · exact hartist.grid _ _ _ _ d hd
  · obtain ⟨w, -, hd⟩ := List.mem_flatMap.mp hd
    exact hartist.border _ _ _ d hd

theorem frame_present_ends (hartist : artist.Careful) (fb : Framebuffer) (windows : List Window) :
    ∀ op ∈ frame artist fb windows ++ [.present], op.Ends :=
  List.forall_mem_append.mpr ⟨frame_ends hartist fb windows, List.forall_mem_singleton.mpr trivial⟩

theorem step_isSome (hartist : artist.Careful) (harray : wm.array ≠ 0) {op : WmOp} (hop : op.Ends) :
    ∃ wm', wm.step artist op = some wm' ∧ wm'.screen.fb = wm.screen.fb := by
  cases op with
  | create window bounds =>
    refine ⟨_, rfl, ?_⟩
    rw [windowCreate]
    split <;> rfl
  | add window =>
    rw [WindowManager.step, wmAddWindow, if_neg harray]
    split
    · exact ⟨_, rfl, rfl⟩
    · exact ⟨_, rfl, rfl⟩
  | assign window fields => exact ⟨_, rfl, rfl⟩
  | screen op =>
    obtain ⟨s, hs⟩ := run_isSome (s := wm.screen) (List.forall_mem_singleton.mpr hop)
    rw [Screen.run, List.foldlM_cons] at hs
    obtain ⟨u, hu, -⟩ := Option.bind_eq_some_iff.mp hs
    exact ⟨_, by rw [WindowManager.step, hu]; rfl, screen_step_fb hu⟩
  | render =>
    obtain ⟨s, hs⟩ := run_isSome (s := wm.screen)
      (frame_present_ends hartist wm.screen.fb (wm.windows.map wm.heap))
    exact ⟨_, by rw [WindowManager.step, wmRender, hs]; rfl, screen_run_fb hs⟩

theorem wm_run_isSome (hartist : artist.Careful) (harray : wm.array ≠ 0)
    (hops : ∀ op ∈ ops, op.Ends) :
    ∃ wm', wm.run artist ops = some wm' ∧ wm'.screen.fb = wm.screen.fb ∧ wm'.array ≠ 0 := by
  induction ops generalizing wm with
  | nil => exact ⟨wm, rfl, rfl, harray⟩
  | cons op ops ih =>
    obtain ⟨hop, hops⟩ := List.forall_mem_cons.mp hops
    obtain ⟨u, hu, hfb⟩ := step_isSome hartist harray hop
    obtain ⟨-, -, hsame, -⟩ := step_frame hu
    obtain ⟨wm', hrun, hfb', harray'⟩ := ih (hsame.symm ▸ harray) hops
    refine ⟨wm', ?_, hfb'.trans hfb, harray'⟩
    rw [WindowManager.run, List.foldlM_cons, hu]
    exact hrun

theorem exists_shows (s : Screen) : ∃ v, s.Shows v :=
  ⟨⟨fun x y => s.front (s.fb.cell x y),
    fun x y => (if s.fb.doubleBuffered then s.back else s.front) (s.fb.cell x y)⟩,
    fun _ _ _ => rfl, fun _ _ _ => rfl⟩

theorem stubs_careful : stubs.Careful where
  grid := fun _ _ _ _ _ h => absurd h List.not_mem_nil
  border := fun _ _ _ _ h => absurd h List.not_mem_nil

theorem paintAll_stubs (fb : Framebuffer) (windows : List Window) (p : Picture) (x y : Int) :
    paintAll (frame stubs fb windows) p x y = Color.pixel ⟨5, 5, 10, 255⟩ := by
  have hdecor : ∀ ws : List Window,
      (ws.flatMap fun w => stubs.drawTechBorder fb w.bounds ⟨0, 180, 255, 255⟩) = [] := fun ws =>
    List.flatMap_eq_nil_iff.mpr fun _ _ => rfl
  rw [frame, hdecor]
  rfl

theorem render_front (hs : wm.screen.fb.Sized) (hrun : wmRender artist wm = some wm') :
    wm.screen.fb.Shows wm'.screen.front
      (paintAll (frame artist wm.screen.fb (wm.windows.map wm.heap)) fun _ _ => 0) := by
  obtain ⟨s, hscreen, rfl⟩ := Option.map_eq_some_iff.mp hrun
  obtain ⟨v, hv⟩ := exists_shows wm.screen
  obtain ⟨hfb, hshows⟩ := hv.run hs hscreen
  have hfront := hshows.front
  rw [hfb, Runs.run, List.foldl_append] at hfront
  -- what is presented is what is drawn, and that starts with a clear
  have hpainted := drawn_run wm.screen.fb.doubleBuffered v
    (frame artist wm.screen.fb (wm.windows.map wm.heap))
  intro x y hhas
  exact (hfront x y hhas).trans (congrFun (congrFun hpainted x) y)

/-- A cell of the frame is a point of the screen, as the framebuffer is 1024 wide. -/
theorem render_point (hs : wm.screen.fb.Sized) (hwidth : wm.screen.fb.width = 1024)
    (hheight : wm.screen.fb.height = 768) (hrun : wmRender artist wm = some wm') {x y : Int}
    (hx : 0 ≤ x) (hxlt : x < 1024) (hy : 0 ≤ y) (hylt : y < 768) :
    wm'.screen.front (y * 1024 + x) =
      paintAll (frame artist wm.screen.fb (wm.windows.map wm.heap)) (fun _ _ => 0) x y := by
  have hwidth' : wm.screen.fb.width.toInt = 1024 := by rw [hwidth]; rfl
  have hheight' : wm.screen.fb.height.toInt = 768 := by rw [hheight]; rfl
  have hpoint := render_front hs hrun x y ⟨hx, hwidth'.symm ▸ hxlt, hy, hheight'.symm ▸ hylt⟩
  rw [Framebuffer.cell, hwidth'] at hpoint
  exact hpoint

end

/-- The calls of `jarvis_gui_init`. -/
def jarvisGuiOps (main dashboard : U64) : List WmOp :=
  [.create main ⟨50, 50, 800, 600⟩, .add main, .create dashboard ⟨870, 50, 400, 300⟩,
    .add dashboard]

theorem guiInit_eq {H : Type} {m : Allocator H} {h : H} {stale : Int → U32} {heap : U64 → Window}
    {block array main dashboard : U64} {wm : WindowManager} (artist : Artist)
    (hinit : guiInit m h stale heap block array main dashboard = some wm) :
    ∃ fb, (framebufferCreate m 1024 768 true h).1 = some fb ∧
      WindowManager.run artist ⟨Screen.created fb stale, array, [], 32, heap⟩
        (jarvisGuiOps main dashboard) = some wm := by
  obtain ⟨fb, hfb, hinit⟩ := Option.bind_eq_some_iff.mp hinit
  obtain ⟨wm₀, hcreate, hinit⟩ := Option.bind_eq_some_iff.mp hinit
  rw [wmCreate] at hcreate
  split at hcreate
  · cases hcreate
  · obtain rfl := Option.some.inj hcreate
    refine ⟨fb, hfb, ?_⟩
    rw [← hinit, jarvisGuiInit, WindowManager.run, jarvisGuiOps]
    simp only [List.foldlM_cons, List.foldlM_nil, WindowManager.step, Option.bind_eq_bind,
      Option.bind_some, Option.pure_def, Option.bind_fun_some]

/-- **A frame shows the windows there are.** After a `gui_init` to which `kmalloc` has given
the array of windows, any calls that come to an end, of the window manager, of drawing
functions and stores to the fields of windows, and then a `wm_render`: the screen of 1024 by
768 points shows, point by point, the background, the grid and in order the borders of those
of the first 32 windows added that are visible now, with the bounds they have now. With the
stubs no window is to be seen. -/
theorem render_shows (artist : Artist) (hartist : artist.Careful) (H : Type) (m : Allocator H)
    (h : H) (stale : Int → U32) (heap : U64 → Window) (block array main dashboard : U64)
    (harray : array ≠ 0) (wm : WindowManager) (ops : List WmOp)
    (hinit : guiInit m h stale heap block array main dashboard = some wm)
    (hops : ∀ op ∈ ops, op.Ends) :
    ∃ wm', wm.run artist (ops ++ [.render]) = some wm' ∧
      let calls := jarvisGuiOps main dashboard ++ ops
      let windows := ((addedIn calls).take 32).map (heapAfter heap calls)
      ∀ x y, 0 ≤ x → x < 1024 → 0 ≤ y → y < 768 →
        wm'.screen.front (y * 1024 + x) =
            paintAll (frame artist wm.screen.fb windows) (fun _ _ => 0) x y ∧
          (artist = stubs → wm'.screen.front (y * 1024 + x) = 0xFF05050A) := by
  obtain ⟨fb, hcreate, hwm⟩ := guiInit_eq artist hinit
  obtain ⟨hwidth, hheight, -, hs⟩ :=
    framebufferCreate_sized (by decide) (by decide) (by decide) hcreate
  -- the calls of `jarvis_gui_init` and those after it are one run
  have hends : ∀ op ∈ jarvisGuiOps main dashboard, op.Ends := by simp [jarvisGuiOps, WmOp.Ends]
  have hrenders : WmOp.render.Ends := trivial
  obtain ⟨u, hu, hfb, hstored⟩ : ∃ u, WindowManager.run artist
      ⟨Screen.created fb stale, array, [], 32, heap⟩ (jarvisGuiOps main dashboard) = some u ∧
        u.screen.fb = fb ∧ u.array ≠ 0 :=
    wm_run_isSome hartist harray hends
  obtain rfl := Option.some.inj (hwm.symm.trans hu)
  obtain ⟨wm₁, hrun, hfb₁, hstored₁⟩ := wm_run_isSome hartist hstored hops
  have hall : WindowManager.run artist ⟨Screen.created fb stale, array, [], 32, heap⟩
      (jarvisGuiOps main dashboard ++ ops) = some wm₁ := by
    rw [WindowManager.run, List.foldlM_append]
    exact (congrArg (· >>= _) hwm).trans hrun
  obtain ⟨hheap, hwindows⟩ := windows_run [] (n := 32) rfl rfl hall
  obtain ⟨wm', hrender, -⟩ := step_isSome hartist hstored₁ hrenders
  have hwm₁ : wm₁.screen.fb = fb := hfb₁.trans hfb
  refine ⟨wm', ?_, fun x y hx hxlt hy hylt => ?_⟩
  · rw [WindowManager.run, List.foldlM_append]
    refine (congrArg (· >>= _) hrun).trans ?_
    show wm₁.step artist .render >>= _ = _
    rw [hrender]
    rfl
  · have hseen := render_point (hwm₁ ▸ hs) (hwm₁ ▸ hwidth) (hwm₁ ▸ hheight) hrender hx hxlt hy hylt
    rw [hheap, hwindows, hfb₁] at hseen
    refine ⟨hseen, fun hstubs => ?_⟩
    subst hstubs
    exact hseen.trans (paintAll_stubs ..)

/-- A border is the corner at the top left, and there is no grid. -/
def cornerArtist : Artist :=
  ⟨fun _ _ _ _ => [], fun _ rect color => [.pixel rect.x rect.y color]⟩

theorem cornerArtist_careful : cornerArtist.Careful where
  grid := fun _ _ _ _ _ h => absurd h List.not_mem_nil
  border := fun _ _ _ _ h => by
    obtain rfl := List.mem_singleton.mp h
    exact trivial

/-- The main window is hidden before the frame is drawn; with the stubs, both windows are. -/
theorem render_shows_hidden :
    ∃ wm wm' wm'',
      guiInit exactAllocator () (fun _ => 7) (fun _ => ⟨⟨0, 0, 0, 0⟩, false⟩) 0x3000 0x4000
        0x1000 0x2000 = some wm ∧
      wm.run cornerArtist [.assign 0x1000 ⟨⟨50, 50, 800, 600⟩, false⟩, .render] = some wm' ∧
      wm'.screen.front (50 * 1024 + 50) = 0xFF05050A ∧
      wm'.screen.front (50 * 1024 + 870) = 0xFF00B4FF ∧
      wm.run stubs [.render] = some wm'' ∧ wm''.screen.front (50 * 1024 + 870) = 0xFF05050A := by
  obtain ⟨wm', hrun, hshows⟩ := render_shows cornerArtist cornerArtist_careful Unit exactAllocator ()
    (fun _ => 7) (fun _ => ⟨⟨0, 0, 0, 0⟩, false⟩) 0x3000 0x4000 0x1000 0x2000 (by decide) _
    [.assign 0x1000 ⟨⟨50, 50, 800, 600⟩, false⟩] rfl (List.forall_mem_singleton.mpr trivial)
  obtain ⟨wm'', hrun', hshows'⟩ := render_shows stubs stubs_careful Unit exactAllocator ()
    (fun _ => 7) (fun _ => ⟨⟨0, 0, 0, 0⟩, false⟩) 0x3000 0x4000 0x1000 0x2000 (by decide) _ [] rfl
    fun _ h => absurd h List.not_mem_nil
  have hbackground := (hshows' 870 50 (by decide) (by decide) (by decide) (by decide)).2 rfl
  refine ⟨_, wm', wm'', rfl, hrun, ?_, ?_, hrun', hbackground⟩
  · rw [(hshows 50 50 (by decide) (by decide) (by decide) (by decide)).1]
    rfl
  · rw [(hshows 870 50 (by decide) (by decide) (by decide) (by decide)).1]
    rfl

end JarJar.Gui
