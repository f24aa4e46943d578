import JarJar.Stdlib
import JarJar.Lib.CountedLoop

/- The entry point. `kmain` reports on the serial port and fills the first 250000 words of the
   framebuffer, wherever these stand on the screen.

   Correspondence (C ↔ Lean):
     `framebuffer_request.response`, NULL   ↔ an `Option FramebufferResponse`, `none`
     `outb(0x3f8, c)`                       ↔ a byte more in `Halted.serial`
     `fb_ptr[i] = 0xFFFFFFFF`               ↔ `storePixel`
     the state it halts in                  ↔ `Halted`
   Of `struct limine_framebuffer` the model has the address and the dimensions, of which the
   code looks at the address only. Addresses are those of `u64`, and wrap. -/
namespace JarJar.Boot
open CountedLoop Libc

structure LimineFramebuffer where
  address : U64
  width : U64
  height : U64
  /-- The bytes from one row to the next. -/
  pitch : U64

structure FramebufferResponse where
  framebufferCount : U64
  framebuffers : Nat → LimineFramebuffer

abbrev Bytes := U64 → U8

structure Halted where
  serial : List U8
  memory : Bytes

def storePixel (fb_ptr : U64) (i : Nat) (m : Bytes) : Bytes := fun x =>
  if (x - (fb_ptr + BitVec.ofNat 64 (4 * i))).toNat < 4 then 0xFF else m x

def kmain (response : Option FramebufferResponse) (m : Bytes) : Halted :=
  let serial := ['O', 'K', '\n'].map ch
  match response with
  | none => ⟨serial ++ [ch 'E'], m⟩
  | some response =>
    if response.framebufferCount < 1 then ⟨serial ++ [ch 'E'], m⟩
    else
      let fb := response.framebuffers 0
      ⟨serial, loop (500 * 500) (storePixel fb.address) m⟩

/-! ## The bytes that are stored -/

section
variable {p x : U64} {m : Bytes} {i n : Nat}

theorem storePixel_behind (hi : 4 * i + 4 ≤ 2^64) :
    (x - (p + BitVec.ofNat 64 (4 * i))).toNat < 4 ↔
      4 * i ≤ (x - p).toNat ∧ (x - p).toNat < 4 * (i + 1) := by
  have hsub : x - (p + BitVec.ofNat 64 (4 * i)) = x - p - BitVec.ofNat 64 (4 * i) := by
    bv_omega
  have hlt := (x - p).isLt
  rw [hsub]
  generalize x - p = d at hlt
  rw [BitVec.toNat_sub, BitVec.toNat_ofNat, Nat.mod_eq_of_lt (a := 4 * i) (by omega)]
  omega

theorem loop_storePixel (p : U64) (m : Bytes) (x : U64) (hn : 4 * n ≤ 2^64) :
    loop n (storePixel p) m x = if (x - p).toNat < 4 * n then 0xFF else m x := by
  induction n with
  | zero => rw [if_neg (Nat.not_lt_zero _)]; rfl
  | succ n ih =>
    have hbehind := storePixel_behind (p := p) (x := x) (i := n) (by omega)
    rw [loop, storePixel, ih (by omega)]
    by_cases hnew : (x - (p + BitVec.ofNat 64 (4 * n))).toNat < 4
    · rw [if_pos hnew, if_pos (hbehind.mp hnew).2]
    · rw [if_neg hnew]
      by_cases hold : (x - p).toNat < 4 * n
      · rw [if_pos hold, if_pos (by omega)]
      · rw [if_neg hold, if_neg fun hlt => hnew (hbehind.mpr ⟨Nat.le_of_not_lt hold, hlt⟩)]

end

theorem kmain_memory (response : FramebufferResponse) (h : 1 ≤ response.framebufferCount.toNat)
    (m : Bytes) (x : U64) : (kmain (some response) m).memory x =
      if (x - (response.framebuffers 0).address).toNat < 1000000 then 0xFF else m x := by
  have hcount : ¬ response.framebufferCount < 1 := Nat.not_lt.mpr h
  rw [kmain]
  dsimp only
  rw [if_neg hcount]
  exact loop_storePixel _ m x (by decide)

/-- **Where `kmain` stores.** Whatever is in memory, its stores keep to the framebuffer exactly
if that has a million bytes. -/
theorem kmain_stays_iff (response : FramebufferResponse)
    (h : 1 ≤ response.framebufferCount.toNat) :
    (∀ m x, (kmain (some response) m).memory x ≠ m x →
        (x - (response.framebuffers 0).address).toNat <
          (response.framebuffers 0).pitch.toNat * (response.framebuffers 0).height.toNat) ↔
      1000000 ≤ (response.framebuffers 0).pitch.toNat * (response.framebuffers 0).height.toNat := by
  generalize hfb : response.framebuffers 0 = fb
  have hmemory := kmain_memory response h
  rw [hfb] at hmemory
  refine ⟨fun hstays => ?_, fun hlarge m x hx => ?_⟩
  · -- the last byte that is stored
    have hlast : fb.address + 999999 - fb.address = 999999 := by bv_omega
    have hin := hstays (fun _ => 0) (fb.address + 999999) (by
      rw [hmemory, hlast]
      decide)
    rw [hlast] at hin
    exact hin
  · rw [hmemory] at hx
    by_cases hlt : (x - fb.address).toNat < 1000000
    · exact Nat.lt_of_lt_of_le hlt hlarge
    · rw [if_neg hlt] at hx
      exact absurd rfl hx

/-- A screen of 1024 by 768 points is large enough. -/
theorem kmain_stays_iff_large :
    let response : FramebufferResponse := ⟨1, fun _ => ⟨0xFD000000, 1024, 768, 4096⟩⟩
    ∀ m x, (kmain (some response) m).memory x ≠ m x → (x - 0xFD000000).toNat < 4096 * 768 :=
  (kmain_stays_iff ⟨1, fun _ => ⟨0xFD000000, 1024, 768, 4096⟩⟩ (by decide)).mpr (by decide)

/-! ## The picture -/

/-- All four bytes of the point are set. -/
def LimineFramebuffer.White (fb : LimineFramebuffer) (m : Bytes) (px py : Nat) : Prop :=
  ∀ k < 4, m (fb.address + BitVec.ofNat 64 (py * fb.pitch.toNat + 4 * px + k)) = 0xFF

section
variable {response : FramebufferResponse} {fb : LimineFramebuffer} {px py width height : Nat}

/-- The framebuffer is in memory, with four bytes a point and no gap between the rows. -/
structure LimineFramebuffer.Packed (fb : LimineFramebuffer) : Prop where
  pitch : fb.pitch.toNat = 4 * fb.width.toNat
  fits : fb.pitch.toNat * fb.height.toNat ≤ 2^64

theorem point_inside (hpx : px < width) (hpy : py < height) :
    py * width + px + 1 ≤ width * height := by
  calc py * width + px + 1 ≤ py * width + width := by omega
    _ = (py + 1) * width := (Nat.succ_mul py width).symm
    _ ≤ height * width := Nat.mul_le_mul_right width hpy
    _ = width * height := Nat.mul_comm height width

/-- The points are filled row by row, over the whole width. -/
theorem kmain_white_iff (h : 1 ≤ response.framebufferCount.toNat)
    (hfb : response.framebuffers 0 = fb) (hpacked : fb.Packed) (hpx : px < fb.width.toNat)
    (hpy : py < fb.height.toNat) :
    fb.White (kmain (some response) fun _ => 0).memory px py ↔
      py * fb.width.toNat + px < 250000 := by
  have hinside := point_inside hpx hpy
  have hfits := hpacked.fits
  rw [hpacked.pitch, Nat.mul_assoc] at hfits
  have hrow : py * fb.pitch.toNat = 4 * (py * fb.width.toNat) := by
    rw [hpacked.pitch, Nat.mul_left_comm]
  have hbyte : ∀ k < 4, (kmain (some response) fun _ => 0).memory
      (fb.address + BitVec.ofNat 64 (py * fb.pitch.toNat + 4 * px + k)) =
        if 4 * (py * fb.width.toNat + px) + k < 1000000 then 0xFF else 0 := by
    intro k hk
    have hoffset : (fb.address + BitVec.ofNat 64 (py * fb.pitch.toNat + 4 * px + k) -
        fb.address).toNat = 4 * (py * fb.width.toNat + px) + k := by
      rw [BitVec.add_comm, BitVec.add_sub_cancel, BitVec.toNat_ofNat, hrow,
        Nat.mod_eq_of_lt (by omega), Nat.mul_add]
    rw [kmain_memory response h, hfb, hoffset]
  refine ⟨fun hwhite => ?_, fun hlt k hk => ?_⟩
  · by_contra hge
    have hlast := hwhite 0 (by decide)
    rw [hbyte 0 (by decide), if_neg (by omega)] at hlast
    exact absurd hlast (by decide)
  · rw [hbyte k hk, if_pos (by omega)]

end

/-- **The square of `kmain`.** On a black framebuffer with four bytes a point and no gaps, what
is white is the square of 500 points in its corner only if the screen is 500 points wide, or
lies in that square itself. -/
theorem kmain_square_iff (response : FramebufferResponse)
    (h : 1 ≤ response.framebufferCount.toNat) (fb : LimineFramebuffer)
    (hfb : response.framebuffers 0 = fb) (hpacked : fb.Packed) (hwidth : 0 < fb.width.toNat)
    (hheight : 0 < fb.height.toNat) :
    (∀ px < fb.width.toNat, ∀ py < fb.height.toNat,
        (fb.White (kmain (some response) fun _ => 0).memory px py ↔ px < 500 ∧ py < 500)) ↔
      fb.width.toNat = 500 ∨ (fb.width.toNat < 500 ∧ fb.height.toNat ≤ 500) := by
  refine ⟨fun hsquare => ?_, fun hshape px hpx py hpy => ?_⟩
  · obtain hlt | heq | hgt := Nat.lt_trichotomy fb.width.toNat 500
    · -- the first point of row 500
      refine Or.inr ⟨hlt, ?_⟩
      by_contra htall
      have hrow := hsquare 0 hwidth 500 (by omega)
      rw [kmain_white_iff h hfb hpacked hwidth (by omega)] at hrow
      omega
    · exact Or.inl heq
    · -- the point right of the square in the first row
      have hright := hsquare 500 hgt 0 hheight
      rw [kmain_white_iff h hfb hpacked hgt hheight] at hright
      omega
  · rw [kmain_white_iff h hfb hpacked hpx hpy]
    obtain hexact | ⟨hnarrow, hlow⟩ := hshape
    · rw [hexact] at hpx ⊢
      omega
    · have hle : py * fb.width.toNat ≤ 499 * 499 := Nat.mul_le_mul (by omega) (by omega)
      omega

/-- No square on a screen of 1024 by 768 points. -/
theorem kmain_square_iff_large :
    let fb : LimineFramebuffer := ⟨0xFD000000, 1024, 768, 4096⟩
    ¬ ∀ px < 1024, ∀ py < 768,
      (fb.White (kmain (some ⟨1, fun _ => fb⟩) fun _ => 0).memory px py ↔ px < 500 ∧ py < 500) := by
  intro fb hsquare
  have hpacked : fb.Packed := ⟨by decide, by decide⟩
  have hshape := (kmain_square_iff ⟨1, fun _ => fb⟩ (by decide) fb rfl hpacked (by decide)
    (by decide)).mp hsquare
  exact absurd hshape (by decide)

end JarJar.Boot
