import JarJar.Types

/- The framebuffer of the graphical interface. Its size in bytes, the number of pixels to
   clear and the index of a pixel are three products of the same dimensions, each taken
   modulo 2^32; only the first is read as a signed number and then widened to a `size_t`.

   Correspondence (C ↔ Lean):
     `s32`                                    ↔ `S32` (wrapping, read by `toInt`)
     `color_t`, `framebuffer_t`               ↔ `Color`, `Framebuffer`
     `kmalloc`, `kfree`                       ↔ `Allocator`
     `framebuffer_create`                     ↔ `framebufferCreate`
     `buffer` of the drawing functions        ↔ `Framebuffer.buffer`
     `framebuffer_draw_pixel`                 ↔ `framebufferDrawPixel`
     `framebuffer_clear`                      ↔ `framebufferClear`
   The drawing functions give the indices they write in `buffer`, with the pixels. What
   `memset` puts in a new buffer is left out. -/
namespace JarJar.Gui

abbrev S32 := BitVec 32

/-- A block of memory, by the bytes it has. -/
structure Block where
  bytes : Nat

structure Color where
  r : U8
  g : U8
  b : U8
  a : U8

/-- `(color.a << 24) | (color.r << 16) | (color.g << 8) | color.b`. -/
def Color.pixel (color : Color) : U32 :=
  color.a.setWidth 32 <<< 24 ||| color.r.setWidth 32 <<< 16 ||| color.g.setWidth 32 <<< 8 |||
    color.b.setWidth 32

structure Framebuffer where
  pixels : Block
  width : S32
  height : S32
  pitch : S32
  doubleBuffered : Bool
  backBuffer : Option Block

/-- The heap functions on heaps `H`: a block is at least as large as it was asked for. -/
structure Allocator (H : Type) where
  kmalloc : U64 → H → Option Block × H
  kfree : Block → H → H
  enough : ∀ size heap block, (kmalloc size heap).1 = some block → size.toNat ≤ block.bytes

/-- `sizeof(framebuffer_t)`. -/
def framebufferBytes : U64 := 32

/-- `size_t size = width * height * 4`. -/
def bufferSize (width height : S32) : U64 := (width * height * 4).signExtend 64

def framebufferCreate {H : Type} (m : Allocator H) (width height : S32) (doubleBuffered : Bool)
    (heap : H) : Option Framebuffer × H :=
  match m.kmalloc framebufferBytes heap with
  | (none, heap) => (none, heap)
  | (some fb, heap) =>
    match m.kmalloc (bufferSize width height) heap with
    | (none, heap) => (none, m.kfree fb heap)
    | (some pixels, heap) =>
      if doubleBuffered then
        match m.kmalloc (bufferSize width height) heap with
        | (none, heap) => (none, m.kfree fb (m.kfree pixels heap))
        | (some back, heap) =>
          (some ⟨pixels, width, height, width * 4, doubleBuffered, some back⟩, heap)
      else (some ⟨pixels, width, height, width * 4, doubleBuffered, none⟩, heap)

/-- `fb->double_buffered ? fb->back_buffer : fb->pixels`. -/
def Framebuffer.buffer (fb : Framebuffer) : Option Block :=
  if fb.doubleBuffered then fb.backBuffer else some fb.pixels

def framebufferDrawPixel (fb : Framebuffer) (x y : S32) (color : Color) : List (Int × U32) :=
  if x.toInt < 0 ∨ x.toInt ≥ fb.width.toInt ∨ y.toInt < 0 ∨ y.toInt ≥ fb.height.toInt then []
  else [((y * fb.width + x).toInt, color.pixel)]

def framebufferClear (fb : Framebuffer) (color : Color) : List (Int × U32) :=
  let count : U32 := fb.width * fb.height
  (List.range count.toNat).map fun i : Nat => ((i : Int), color.pixel)

/-- The block has the pixel with this index. -/
def Block.HasPixel (block : Block) (index : Int) : Prop := 0 ≤ index ∧ 4 * (index + 1) ≤ block.bytes

/-- Whatever is drawn goes into the selected buffer. -/
def Framebuffer.Inside (fb : Framebuffer) : Prop :=
  ∃ block, fb.buffer = some block ∧
    (∀ x y color, ∀ write ∈ framebufferDrawPixel fb x y color, block.HasPixel write.1) ∧
    ∀ color, ∀ write ∈ framebufferClear fb color, block.HasPixel write.1

/-- All the bytes fit a signed 32-bit number, or they make one that is negative, which asks
for nearly 2^64 bytes, and no index of a pixel is negative. -/
def DimensionsFit (width height : S32) : Prop :=
  let cells := width.toNat * height.toNat
  4 * cells < 2^31 ∨ cells ≤ 2^31 ∧ 2^31 ≤ 4 * cells % 2^32

/-! ## The numbers -/

theorem toNat_lt_of_pos {a : S32} (ha : 0 < a.toInt) : a.toNat < 2^31 ∧ a.toInt = a.toNat := by
  have hlt := a.isLt
  rw [BitVec.toInt_eq_toNat_cond] at ha ⊢
  split at ha
  · next hsmall =>
    rw [if_pos hsmall]
    omega
  · omega

theorem bufferSize_toNat (width height : S32) :
    (bufferSize width height).toNat =
      if 4 * (width.toNat * height.toNat) % 2^32 < 2^31 then 4 * (width.toNat * height.toNat) % 2^32
      else 2^64 - 2^32 + 4 * (width.toNat * height.toNat) % 2^32 := by
  have hproduct : (width * height * 4).toNat = 4 * (width.toNat * height.toNat) % 2^32 := by
    rw [BitVec.toNat_mul, BitVec.toNat_mul, Nat.mod_mul_mod, Nat.mul_comm]
    rfl
  rw [bufferSize, BitVec.toNat_signExtend, BitVec.toNat_setWidth, BitVec.msb_eq_decide, hproduct]
  have hlt := Nat.mod_lt (4 * (width.toNat * height.toNat)) (show 0 < 2^32 by decide)
  generalize 4 * (width.toNat * height.toNat) % 2^32 = bytes at hlt ⊢
  rw [Nat.mod_eq_of_lt (by omega)]
  simp only [decide_eq_true_eq]
  by_cases hsmall : bytes < 2^31
  · rw [if_pos hsmall, if_neg (by omega), Nat.add_zero]
  · rw [if_neg hsmall, if_pos (by omega), Nat.add_comm]

/-! ## What is drawn -/

section
variable {fb : Framebuffer} {block : Block}

theorem forall_drawPixel_iff (hwidth : 0 < fb.width.toInt) (hheight : 0 < fb.height.toInt) :
    (∀ x y color, ∀ write ∈ framebufferDrawPixel fb x y color, block.HasPixel write.1) ↔
      ∀ column row, column < fb.width.toNat → row < fb.height.toNat →
        block.HasPixel (BitVec.ofNat 32 (row * fb.width.toNat + column)).toInt := by
  obtain ⟨hwidthLt, hwidthInt⟩ := toNat_lt_of_pos hwidth
  obtain ⟨hheightLt, hheightInt⟩ := toNat_lt_of_pos hheight
  refine ⟨fun h column row hcolumn hrow => ?_, fun h x y color write hwrite => ?_⟩
  · have hx : (BitVec.ofNat 32 column).toInt = column := by
      rw [BitVec.toInt_eq_toNat_cond, BitVec.toNat_ofNat]
      omega
    have hy : (BitVec.ofNat 32 row).toInt = row := by
      rw [BitVec.toInt_eq_toNat_cond, BitVec.toNat_ofNat]
      omega
    have hindex : BitVec.ofNat 32 row * fb.width + BitVec.ofNat 32 column =
        BitVec.ofNat 32 (row * fb.width.toNat + column) := by
      rw [BitVec.ofNat_add, BitVec.ofNat_mul, BitVec.ofNat_toNat, BitVec.setWidth_eq]
    have hdrawn := h (BitVec.ofNat 32 column) (BitVec.ofNat 32 row) ⟨0, 0, 0, 0⟩
    rw [framebufferDrawPixel, if_neg (by omega), List.forall_mem_singleton, hindex] at hdrawn
    exact hdrawn
  · rw [framebufferDrawPixel] at hwrite
    split at hwrite
    · cases hwrite
    · next hguard =>
      obtain rfl := List.mem_singleton.mp hwrite
      have hindex : y * fb.width + x = BitVec.ofNat 32 (y.toNat * fb.width.toNat + x.toNat) := by
        rw [BitVec.ofNat_add, BitVec.ofNat_mul, BitVec.ofNat_toNat, BitVec.ofNat_toNat,
          BitVec.ofNat_toNat, BitVec.setWidth_eq, BitVec.setWidth_eq, BitVec.setWidth_eq]
      have hx := BitVec.toInt_eq_toNat_cond x
      have hy := BitVec.toInt_eq_toNat_cond y
      have hxlt := x.isLt
      have hylt := y.isLt
      dsimp only
      rw [hindex]
      apply h
      · split at hx <;> omega
      · split at hy <;> omega

theorem forall_cell_iff {width height : Nat} {P : Nat → Prop} :
    (∀ column row, column < width → row < height → P (row * width + column)) ↔
      ∀ i < width * height, P i := by
  refine ⟨fun h i hi => ?_, fun h column row hcolumn hrow => h _ ?_⟩
  · have hwidth : 0 < width := Nat.pos_of_mul_pos_right (Nat.zero_lt_of_lt hi)
    have hcell := h (i % width) (i / width) (Nat.mod_lt i hwidth) (Nat.div_lt_of_lt_mul hi)
    rwa [Nat.mul_comm, Nat.div_add_mod] at hcell
  · calc row * width + column < row * width + width := Nat.add_lt_add_left hcolumn _
      _ = (row + 1) * width := (Nat.succ_mul row width).symm
      _ ≤ height * width := Nat.mul_le_mul_right width hrow
      _ = width * height := Nat.mul_comm height width

theorem drawPixel_inside_iff (hwidth : 0 < fb.width.toInt) (hheight : 0 < fb.height.toInt) :
    (∀ x y color, ∀ write ∈ framebufferDrawPixel fb x y color, block.HasPixel write.1) ↔
      fb.width.toNat * fb.height.toNat ≤ 2^31 ∧
        4 * (fb.width.toNat * fb.height.toNat) ≤ block.bytes := by
  rw [forall_drawPixel_iff hwidth hheight,
    forall_cell_iff (P := fun i => block.HasPixel (BitVec.ofNat 32 i).toInt)]
  have hpositive : 0 < fb.width.toNat * fb.height.toNat := by
    have hw := (toNat_lt_of_pos hwidth).2
    have hh := (toNat_lt_of_pos hheight).2
    exact Nat.mul_pos (by omega) (by omega)
  generalize fb.width.toNat * fb.height.toNat = cells at hpositive
  have hindex (i : Nat) (hi : i < 2^31) : (BitVec.ofNat 32 i).toInt = i := by
    rw [BitVec.toInt_eq_toNat_cond, BitVec.toNat_ofNat]
    omega
  refine ⟨fun h => ?_, fun ⟨hcells, hroom⟩ i hi => ?_⟩
  · have hcells : cells ≤ 2^31 := by
      by_contra hmany
      -- the index 2^31 is negative as an `s32`
      have hfirst := (h (2^31) (by omega)).1
      exact absurd hfirst (by decide)
    have hlast := (h (cells - 1) (by omega)).2
    rw [hindex _ (by omega)] at hlast
    omega
  · rw [hindex i (by omega)]
    exact ⟨by omega, by omega⟩

theorem clear_inside_iff :
    (∀ color, ∀ write ∈ framebufferClear fb color, block.HasPixel write.1) ↔
      4 * (fb.width.toNat * fb.height.toNat % 2^32) ≤ block.bytes := by
  simp only [framebufferClear, BitVec.toNat_mul, List.forall_mem_map, List.mem_range, Block.HasPixel]
  refine ⟨fun h => ?_, fun h color i hi => ⟨by omega, by omega⟩⟩
  obtain hnone | hsome := Nat.eq_zero_or_pos (fb.width.toNat * fb.height.toNat % 2^32)
  · omega
  · have hlast := (h ⟨0, 0, 0, 0⟩ (fb.width.toNat * fb.height.toNat % 2^32 - 1) (by omega)).2
    omega

/-- Clearing writes nothing that drawing does not. -/
theorem inside_iff (hwidth : 0 < fb.width.toInt) (hheight : 0 < fb.height.toInt)
    (hbuffer : fb.buffer = some block) :
    fb.Inside ↔ fb.width.toNat * fb.height.toNat ≤ 2^31 ∧
      4 * (fb.width.toNat * fb.height.toNat) ≤ block.bytes := by
  rw [Framebuffer.Inside, hbuffer]
  simp only [Option.some.injEq, exists_eq_left', drawPixel_inside_iff hwidth hheight,
    clear_inside_iff]
  refine ⟨fun h => h.1, fun h => ⟨h, ?_⟩⟩
  exact Nat.le_trans (Nat.mul_le_mul_left 4 (Nat.mod_le _ _)) h.2

end

/-! ## What is allocated -/

section
variable {H : Type} {m : Allocator H} {width height : S32} {doubleBuffered : Bool} {heap : H}
  {fb : Framebuffer}

theorem framebufferCreate_some
    (h : (framebufferCreate m width height doubleBuffered heap).1 = some fb) :
    fb.width = width ∧ fb.height = height ∧
      ∃ block, fb.buffer = some block ∧ (bufferSize width height).toNat ≤ block.bytes := by
  unfold framebufferCreate at h
  split at h
  · cases h
  · split at h
    · cases h
    · next _ _ _ pixels _ hpixels =>
      split at h
      · next hdouble =>
        split at h
        · cases h
        · next back _ hback =>
          obtain rfl := Option.some.inj h
          refine ⟨rfl, rfl, back, if_pos hdouble, m.enough _ _ back (by rw [hback])⟩
      · next hsingle =>
        obtain rfl := Option.some.inj h
        exact ⟨rfl, rfl, pixels, if_neg hsingle, m.enough _ _ pixels (by rw [hpixels])⟩

end

/-- A heap that hands out what it is asked for and no byte more. -/
def exactAllocator : Allocator Unit where
  kmalloc size heap := (some ⟨size.toNat⟩, heap)
  kfree _ heap := heap
  enough size heap block h := by
    obtain rfl := Option.some.inj h
    exact Nat.le_refl _

theorem framebufferCreate_exact (width height : S32) (doubleBuffered : Bool) :
    ∃ fb, (framebufferCreate exactAllocator width height doubleBuffered ()).1 = some fb ∧
      fb.width = width ∧ fb.height = height ∧
      fb.buffer = some ⟨(bufferSize width height).toNat⟩ := by
  cases doubleBuffered with
  | false => exact ⟨_, rfl, rfl, rfl, rfl⟩
  | true => exact ⟨_, rfl, rfl, rfl, rfl⟩

/-- The size that is computed is large enough exactly for the dimensions that fit. -/
theorem dimensionsFit_iff (width height : S32) :
    DimensionsFit width height ↔ width.toNat * height.toNat ≤ 2^31 ∧
      4 * (width.toNat * height.toNat) ≤ (bufferSize width height).toNat := by
  rw [DimensionsFit, bufferSize_toNat]
  generalize width.toNat * height.toNat = cells
  split
  · omega
  · omega

/-- **When drawing stays inside the framebuffer.** For all positive dimensions, with one
buffer or two: whatever the heap hands out, every pixel that is drawn or cleared is one of
the selected buffer, exactly when the dimensions fit. -/
theorem framebuffer_inside_iff (width height : S32) (doubleBuffered : Bool)
    (hwidth : 0 < width.toInt) (hheight : 0 < height.toInt) :
    (∀ (H : Type) (m : Allocator H) (heap : H) (fb : Framebuffer),
      (framebufferCreate m width height doubleBuffered heap).1 = some fb → fb.Inside) ↔
      DimensionsFit width height := by
  rw [dimensionsFit_iff]
  refine ⟨fun h => ?_, fun ⟨hcells, hroom⟩ H m heap fb hcreate => ?_⟩
  · obtain ⟨fb, hcreate, rfl, rfl, hbuffer⟩ := framebufferCreate_exact width height doubleBuffered
    exact (inside_iff hwidth hheight hbuffer).mp (h Unit exactAllocator () fb hcreate)
  · obtain ⟨rfl, rfl, block, hbuffer, hsize⟩ := framebufferCreate_some hcreate
    exact (inside_iff hwidth hheight hbuffer).mpr ⟨hcells, Nat.le_trans hroom hsize⟩

/-- The screen of `gui_init`, 1024 times 768, and one whose size in bytes comes to 0. -/
theorem framebuffer_inside_iff_screen :
    (∀ (H : Type) (m : Allocator H) (heap : H) (fb : Framebuffer),
      (framebufferCreate m 1024 768 true heap).1 = some fb → fb.Inside) ∧
    ¬ ∀ (H : Type) (m : Allocator H) (heap : H) (fb : Framebuffer),
      (framebufferCreate m 32768 32768 true heap).1 = some fb → fb.Inside := by
  constructor
  · exact (framebuffer_inside_iff 1024 768 true (by decide) (by decide)).mpr (Or.inl (by decide))
  · intro hinside
    obtain hfit | hwrap :=
      (framebuffer_inside_iff 32768 32768 true (by decide) (by decide)).mp hinside
    · exact absurd hfit (by decide)
    · exact absurd hwrap (by decide)

/-- 32768 times 32768 pixels come to a size of 0 bytes. -/
theorem framebuffer_empty_buffer :
    bufferSize 32768 32768 = 0 ∧
      ¬ ∀ (H : Type) (m : Allocator H) (heap : H) (fb : Framebuffer),
        (framebufferCreate m 32768 32768 false heap).1 = some fb → fb.Inside := by
  refine ⟨by decide, fun h => ?_⟩
  obtain ⟨fb, hcreate, hwidth, hheight, hbuffer⟩ := framebufferCreate_exact 32768 32768 false
  have hinside := h Unit exactAllocator () fb hcreate
  rw [inside_iff (by rw [hwidth]; decide) (by rw [hheight]; decide) hbuffer, hwidth, hheight] at hinside
  exact absurd hinside.2 (by decide)

end JarJar.Gui
