import JarJar.Types
import JarJar.Lib.PackedBits
import Mathlib.Order.Bounds.Basic
import Mathlib.Tactic.Tauto

/- The physical page allocator: a bitmap with one bit a page, set when the page
   is taken. `pmm_init` finds the top of memory, puts the bitmap at the start of
   a usable region of the boot loader's memory map, marks everything taken and
   then clears the bit of every usable page.

   Correspondence (C ↔ Lean):
     `pmm_t` (`pmm`)                      ↔ `PmmT`
     `struct limine_memmap_entry`         ↔ `MemmapEntry`
     `pmm_init`, steps 1 to 4             ↔ `highestAddr`, `placeBitmap`, `fillBitmap`, `markFree`
     `pmm_alloc_page`                     ↔ `pmmAllocPage`
     `pmm_free_page`                      ↔ `pmmFreePage`
   `free_pages` and `used_pages` of `pmm_t` are read by nothing and left out, as
   is the line `pmm_init` prints. The byte `p[k]` behind a pointer `p` is
   `mem p k`; every byte of the bitmap that is read or written is logged. -/
namespace JarJar.Pmm

/-- An entry of the boot loader's memory map; `usable` is
`type == LIMINE_MEMMAP_USABLE`. -/
structure MemmapEntry where
  base : U64
  length : U64
  usable : Bool
  deriving DecidableEq, Repr

/-- `pmm_t`. The only writer of `total_pages` divides a 64-bit address by 4096. -/
structure PmmT where
  totalPages : Nat
  totalPages_lt : totalPages < 2^52
  bitmap : U64
  bitmapPhys : U64
  bitmapSize : Nat

/-- What pmm.c works on: the two boot loader responses, the static `pmm`, and
the bytes behind the kernel's pointers, with the bitmap accesses made so far. -/
structure Machine where
  memmap : Option (List MemmapEntry)
  hhdm : Option U64
  pmm : PmmT
  mem : U64 → Nat → U8
  touched : List (U64 × Nat)

namespace Machine

/-- The bytes behind `pmm.bitmap`. -/
def bytes (s : Machine) : Nat → U8 := s.mem s.pmm.bitmap

/-- The access to `pmm.bitmap[k]`, logged. -/
def touch (s : Machine) (k : Nat) : Machine :=
  { s with touched := (s.pmm.bitmap, k) :: s.touched }

/-- `pmm.bitmap[k] = b`. -/
def store (s : Machine) (k : Nat) (b : U8) : Machine :=
  { s.touch k with mem := Function.update s.mem s.pmm.bitmap (Function.update s.bytes k b) }

end Machine

/-- `if (page_idx < pmm.total_pages) pmm.bitmap[page_idx / 8] &= ~(1 << (page_idx % 8))`,
the body of `pmm_free_page` and of step 4 of `pmm_init`. -/
def releasePage (s : Machine) (pageIdx : Nat) : Machine :=
  if pageIdx < s.pmm.totalPages then
    s.store (pageIdx / 8) (s.bytes (pageIdx / 8) &&& ~~~(1#8 <<< (pageIdx % 8)))
  else s

/-- The loop of `pmm_alloc_page` from page `i` on, with `n` pages to go. -/
def allocFrom : (n i : Nat) → Machine → U64 × Machine
  | 0, _, s => (0, s)
  | n+1, i, s =>
    let s := s.touch (i / 8)
    if s.bytes (i / 8) &&& (1#8 <<< (i % 8)) = 0 then
      (BitVec.ofNat 64 (i * 4096), s.store (i / 8) (s.bytes (i / 8) ||| (1#8 <<< (i % 8))))
    else allocFrom n (i+1) s

def pmmAllocPage (s : Machine) : U64 × Machine := allocFrom s.pmm.totalPages 0 s

def pmmFreePage (addr : U64) (s : Machine) : Machine := releasePage s (addr.toNat / 4096)

/-! ## Initialisation -/

/-- Step 1: the highest end of a usable entry, as a 64-bit sum. -/
def highestAddr (map : List MemmapEntry) : U64 :=
  map.foldl (fun highest en =>
    if en.usable then
      let top := en.base + en.length
      if highest < top then top else highest
    else highest) 0

/-- Step 2: the entry the bitmap of `size` bytes goes to, and the map after
those bytes are cut off its front. -/
def placeBitmap (size : Nat) : List MemmapEntry → Option (MemmapEntry × List MemmapEntry)
  | [] => none
  | en :: rest =>
    if en.usable ∧ size ≤ en.length.toNat then
      some (en, { en with base := en.base + BitVec.ofNat 64 size,
                          length := en.length - BitVec.ofNat 64 size } :: rest)
    else (placeBitmap size rest).map (fun cr => (cr.1, en :: cr.2))

/-- Step 3: the first `n` bytes of the bitmap become `0xFF`. -/
def fillBitmap : (n : Nat) → Machine → Machine
  | 0, s => s
  | n+1, s => (fillBitmap n s).store n 0xFF#8

/-- Step 4, one entry, from offset `j` on. `j` stays below the length of the
entry, a multiple of 4096 less the bitmap's size, so it does not wrap. -/
def markEntry (base : U64) (length j : Nat) (s : Machine) : Machine :=
  if j < length then
    markEntry base length (j + 4096) (releasePage s ((base + BitVec.ofNat 64 j).toNat / 4096))
  else s
termination_by length - j
decreasing_by omega

/-- Step 4: every page of every usable entry is marked free. -/
def markFree (map : List MemmapEntry) (s : Machine) : Machine :=
  map.foldl (fun s en => if en.usable then markEntry en.base en.length.toNat 0 s else s) s

theorem pages_lt (a : U64) : a.toNat / 4096 < 2^52 := by
  have := a.isLt
  omega

def pmmInit (s : Machine) : Machine :=
  match s.memmap, s.hhdm with
  | some map, some _ =>
    let totalPages := (highestAddr map).toNat / 4096
    let bitmapSize := totalPages / 8
    let s := { s with pmm := { s.pmm with
      totalPages, totalPages_lt := pages_lt _, bitmapSize } }
    let (s, map) := match placeBitmap bitmapSize map with
      | some (en, map') =>
        ({ s with memmap := some map', pmm := { s.pmm with
          bitmap := physToVirt en.base, bitmapPhys := en.base } }, map')
      | none => (s, map)
    markFree map (fillBitmap bitmapSize s)
  | _, _ => s

/-- The machine the boot loader starts: the static `pmm` is zero. -/
def boot (map : List MemmapEntry) (hhdm : U64) (mem : U64 → Nat → U8) : Machine where
  memmap := some map
  hhdm := some hhdm
  pmm := ⟨0, by decide, 0, 0, 0⟩
  mem := mem
  touched := []

/-- The machine after steps 1 and 2 when the bitmap goes to `en`. -/
def placed (map map' : List MemmapEntry) (hhdm : U64) (mem : U64 → Nat → U8) (en : MemmapEntry) :
    Machine where
  memmap := some map'
  hhdm := some hhdm
  pmm := ⟨(highestAddr map).toNat / 4096, pages_lt _, physToVirt en.base, en.base,
    (highestAddr map).toNat / 4096 / 8⟩
  mem := mem
  touched := []

/-- The machine after steps 1 and 2 when no entry can hold the bitmap. -/
def unplaced (map : List MemmapEntry) (hhdm : U64) (mem : U64 → Nat → U8) : Machine where
  memmap := some map
  hhdm := some hhdm
  pmm := ⟨(highestAddr map).toNat / 4096, pages_lt _, 0, 0, (highestAddr map).toNat / 4096 / 8⟩
  mem := mem
  touched := []

/-! ## What one operation does to the bits -/

/-- Page `i` exists and its bit is clear. -/
def Free (s : Machine) (i : Nat) : Prop :=
  i < s.pmm.totalPages ∧ PackedBits.bit s.bytes i = false

namespace Machine

@[simp] theorem touch_pmm (s : Machine) (k : Nat) : (s.touch k).pmm = s.pmm := rfl
@[simp] theorem touch_bytes (s : Machine) (k : Nat) : (s.touch k).bytes = s.bytes := rfl
@[simp] theorem touch_touched (s : Machine) (k : Nat) :
    (s.touch k).touched = (s.pmm.bitmap, k) :: s.touched := rfl
@[simp] theorem store_pmm (s : Machine) (k : Nat) (b : U8) : (s.store k b).pmm = s.pmm := rfl
@[simp] theorem store_touched (s : Machine) (k : Nat) (b : U8) :
    (s.store k b).touched = (s.pmm.bitmap, k) :: s.touched := rfl

@[simp] theorem store_bytes (s : Machine) (k : Nat) (b : U8) :
    (s.store k b).bytes = Function.update s.bytes k b :=
  Function.update_self _ _ _

theorem store_mem_other {s : Machine} {k j : Nat} {b : U8} {p : U64}
    (h : ¬ (p = s.pmm.bitmap ∧ j = k)) : (s.store k b).mem p j = s.mem p j := by
  show Function.update s.mem s.pmm.bitmap (Function.update s.bytes k b) p j = s.mem p j
  by_cases hp : p = s.pmm.bitmap
  · subst hp
    rw [Function.update_self, Function.update_of_ne fun hj => h ⟨rfl, hj⟩, bytes]
  · rw [Function.update_of_ne hp]

end Machine

/-- The two bit updates of pmm.c are the updates of the packed array. -/
theorem store_set_bytes (s : Machine) (i : Nat) :
    (s.store (i / 8) (s.bytes (i / 8) ||| (1#8 <<< (i % 8)))).bytes = PackedBits.setBit s.bytes i :=
  s.store_bytes _ _

theorem store_clear_bytes (s : Machine) (i : Nat) :
    (s.store (i / 8) (s.bytes (i / 8) &&& ~~~(1#8 <<< (i % 8)))).bytes =
      PackedBits.clearBit s.bytes i :=
  s.store_bytes _ _

@[simp] theorem releasePage_pmm (s : Machine) (i : Nat) : (releasePage s i).pmm = s.pmm := by
  unfold releasePage; split <;> rfl

theorem bit_releasePage (s : Machine) (i j : Nat) :
    PackedBits.bit (releasePage s i).bytes j =
      (!decide (j = i ∧ i < s.pmm.totalPages) && PackedBits.bit s.bytes j) := by
  by_cases hi : i < s.pmm.totalPages
  · rw [releasePage, if_pos hi, store_clear_bytes]
    simp [hi]
  · rw [releasePage, if_neg hi]
    simp [hi]

theorem free_releasePage (s : Machine) (i j : Nat) :
    Free (releasePage s i) j ↔ (j = i ∧ i < s.pmm.totalPages) ∨ Free s j := by
  by_cases h : j = i ∧ i < s.pmm.totalPages
  · simp [Free, bit_releasePage, h]
  · simp [Free, bit_releasePage, h]

theorem releasePage_touched (s : Machine) (i : Nat) :
    (releasePage s i).touched =
      if i < s.pmm.totalPages then (s.pmm.bitmap, i / 8) :: s.touched else s.touched := by
  unfold releasePage; split <;> rfl

/-- The allocation loop stops at the first clear bit it meets, or finds every
bit set. -/
theorem allocFrom_cases (n i : Nat) (s : Machine) :
    (allocFrom n i s).2.pmm = s.pmm ∧
    ((∃ k, i ≤ k ∧ k < i + n ∧ PackedBits.bit s.bytes k = false ∧
        (∀ j, i ≤ j → j < k → PackedBits.bit s.bytes j = true) ∧
        (allocFrom n i s).1 = BitVec.ofNat 64 (k * 4096) ∧
        (allocFrom n i s).2.bytes = PackedBits.setBit s.bytes k) ∨
      ((∀ j, i ≤ j → j < i + n → PackedBits.bit s.bytes j = true) ∧
        (allocFrom n i s).1 = 0 ∧ (allocFrom n i s).2.bytes = s.bytes)) := by
  induction n generalizing i s with
  | zero => exact ⟨rfl, Or.inr ⟨fun j _ _ => by omega, rfl, rfl⟩⟩
  | succ n ih =>
    have hmask := PackedBits.and_mask_eq_zero s.bytes i
    by_cases hb : PackedBits.bit s.bytes i = false
    · -- the bit of page `i` is clear: the loop ends here
      have hc : s.bytes (i / 8) &&& 1#8 <<< (i % 8) = 0 := hmask.mpr hb
      simp only [allocFrom, Machine.touch_bytes, hc, if_true]
      refine ⟨rfl, Or.inl ⟨i, Nat.le_refl i, by omega, hb, fun j _ _ => by omega, rfl, ?_⟩⟩
      exact store_set_bytes (s.touch (i / 8)) i
    · have hc : ¬ s.bytes (i / 8) &&& 1#8 <<< (i % 8) = 0 := fun h => hb (hmask.mp h)
      -- the bit is set: the rest of the loop, with page `i` among those passed
      simp only [allocFrom, Machine.touch_bytes, hc, if_false]
      obtain ⟨hpmm, hcases⟩ := ih (i+1) (s.touch (i / 8))
      refine ⟨hpmm, ?_⟩
      have hset : PackedBits.bit s.bytes i = true := by simpa using hb
      have below : ∀ m, (∀ j, i + 1 ≤ j → j < m → PackedBits.bit s.bytes j = true) →
          ∀ j, i ≤ j → j < m → PackedBits.bit s.bytes j = true := by
        intro m hm j hij hjm
        rcases Nat.eq_or_lt_of_le hij with rfl | hlt
        · exact hset
        · exact hm j hlt hjm
      rcases hcases with ⟨k, hik, hkn, hk, hall, hres, hbytes⟩ | ⟨hall, hres, hbytes⟩
      · exact Or.inl ⟨k, by omega, by omega, hk, below k hall, hres, hbytes⟩
      · exact Or.inr ⟨below _ fun j h₁ h₂ => hall j h₁ (by omega), hres, hbytes⟩

theorem allocFrom_touched (n i : Nat) (s : Machine) :
    ∀ p ∈ (allocFrom n i s).2.touched,
      p ∈ s.touched ∨ (p.1 = s.pmm.bitmap ∧ ∃ j, j < i + n ∧ p.2 = j / 8) := by
  induction n generalizing i s with
  | zero => exact fun p hp => Or.inl hp
  | succ n ih =>
    intro p hp
    simp only [allocFrom] at hp
    split at hp
    · simp only [Machine.store_touched, Machine.touch_touched, Machine.touch_pmm,
        List.mem_cons] at hp
      rcases hp with rfl | rfl | hp
      · exact Or.inr ⟨rfl, i, by omega, rfl⟩
      · exact Or.inr ⟨rfl, i, by omega, rfl⟩
      · exact Or.inl hp
    · rcases ih (i+1) (s.touch (i / 8)) p hp with h | ⟨hb, j, hj, hk⟩
      · rcases List.mem_cons.mp h with rfl | h
        · exact Or.inr ⟨rfl, i, by omega, rfl⟩
        · exact Or.inl h
      · exact Or.inr ⟨hb, j, by omega, hk⟩

/-- What an allocation does: the least free page is taken, or nothing is free
and no bit changes. -/
theorem pmmAllocPage_cases (s : Machine) :
    (pmmAllocPage s).2.pmm = s.pmm ∧
    ((∃ k, IsLeast {i | Free s i} k ∧ (pmmAllocPage s).1 = BitVec.ofNat 64 (k * 4096) ∧
        ∀ j, Free (pmmAllocPage s).2 j ↔ Free s j ∧ j ≠ k) ∨
      ((∀ i, ¬ Free s i) ∧ (pmmAllocPage s).1 = 0 ∧
        ∀ j, Free (pmmAllocPage s).2 j ↔ Free s j)) := by
  obtain ⟨hpmm, hcases⟩ := allocFrom_cases s.pmm.totalPages 0 s
  refine ⟨hpmm, ?_⟩
  rcases hcases with ⟨k, -, hkn, hk, hall, hres, hbytes⟩ | ⟨hall, hres, hbytes⟩
  · refine Or.inl ⟨k, ⟨⟨by omega, hk⟩, ?_⟩, hres, ?_⟩
    · -- a free page before `k` would have ended the loop
      intro j hj
      by_contra hlt
      have := hall j (Nat.zero_le j) (by omega)
      rw [hj.2] at this
      exact Bool.noConfusion this
    · intro j
      simp only [Free, pmmAllocPage, hpmm, hbytes, PackedBits.bit_setBit, Bool.or_eq_false_iff,
        decide_eq_false_iff_not, ne_eq]
      tauto
  · refine Or.inr ⟨?_, hres, ?_⟩
    · rintro i ⟨hi, hb⟩
      rw [hall i (Nat.zero_le i) (by omega)] at hb
      exact Bool.noConfusion hb
    · intro j
      simp only [Free, pmmAllocPage, hpmm, hbytes]

end JarJar.Pmm
