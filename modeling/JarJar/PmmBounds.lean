import JarJar.PmmInit

/- Which bytes the allocator touches. The three operations bound their index by
   the page count, the bitmap is as long as the page count over 8, rounded down,
   and a bitmap no usable region can hold is written all the same.

   What is proved (`pmm_in_bitmap_iff`): initialisation and every later call stay
   inside a placed bitmap exactly when the page count is a multiple of 8 and some
   usable region can hold the bitmap. -/
namespace JarJar.Pmm

variable {map : List MemmapEntry} (hhdm : U64) (mem : U64 → Nat → U8)

/-- A call of the allocator, from any caller. -/
inductive Call where
  | alloc
  | free (addr : U64)
  deriving DecidableEq, Repr

def Call.step (s : Machine) : Call → Machine
  | .alloc => (pmmAllocPage s).2
  | .free addr => pmmFreePage addr s

/-- The machine after a sequence of calls. -/
def runCalls (calls : List Call) (s : Machine) : Machine := calls.foldl Call.step s

/-- Every access so far was to a byte below `bitmap_size` of a bitmap that lies in
a usable entry which can hold it. -/
def InBitmap (map : List MemmapEntry) (s : Machine) : Prop :=
  ∀ p ∈ s.touched, p.2 < s.pmm.bitmapSize ∧
    ∃ en ∈ map, en.usable = true ∧ s.pmm.bitmapSize ≤ en.length.toNat ∧
      p.1 = physToVirt en.base

/-- Every access so far was to the byte of some page. -/
def TouchesPages (s : Machine) : Prop :=
  ∀ p ∈ s.touched, p.1 = s.pmm.bitmap ∧ ∃ j, j < s.pmm.totalPages ∧ p.2 = j / 8

theorem releasePage_touches {s : Machine} (h : TouchesPages s) (i : Nat) :
    TouchesPages (releasePage s i) := by
  intro p hp
  rw [releasePage_touched] at hp
  rw [releasePage_pmm]
  split at hp
  · next hi =>
    rcases List.mem_cons.mp hp with rfl | hp
    · exact ⟨rfl, i, hi, rfl⟩
    · exact h p hp
  · exact h p hp

theorem Call.step_pmm (s : Machine) (c : Call) : (c.step s).pmm = s.pmm := by
  cases c with
  | alloc => exact (pmmAllocPage_cases s).1
  | free addr => exact releasePage_pmm _ _

theorem Call.step_touches {s : Machine} (h : TouchesPages s) (c : Call) :
    TouchesPages (c.step s) := by
  cases c with
  | free addr => exact releasePage_touches h _
  | alloc =>
    intro p hp
    rw [Call.step_pmm]
    rcases allocFrom_touched _ _ _ p hp with hp | ⟨hb, j, hj, hk⟩
    · exact h p hp
    · exact ⟨hb, j, by omega, hk⟩

theorem runCalls_touches {s : Machine} (h : TouchesPages s) (calls : List Call) :
    TouchesPages (runCalls calls s) ∧ (runCalls calls s).pmm = s.pmm := by
  induction calls generalizing s with
  | nil => exact ⟨h, rfl⟩
  | cons c rest ih =>
    obtain ⟨ht, hp⟩ := ih (Call.step_touches h c)
    exact ⟨ht, hp.trans (Call.step_pmm s c)⟩

theorem fillBitmap_touched (n : Nat) (s : Machine) (p : U64 × Nat) :
    p ∈ (fillBitmap n s).touched ↔ (p.1 = s.pmm.bitmap ∧ p.2 < n) ∨ p ∈ s.touched := by
  obtain ⟨b, k⟩ := p
  induction n with
  | zero => simp [fillBitmap]
  | succ n ih =>
    rw [fillBitmap, Machine.store_touched, List.mem_cons, ih, fillBitmap_pmm, Prod.mk.injEq]
    have hk : k < n + 1 ↔ k = n ∨ k < n := by omega
    simp only [hk]
    tauto

theorem markFree_touches {map : List MemmapEntry} {s : Machine} (h : TouchesPages s) :
    TouchesPages (markFree map s) :=
  markFree_keeps (P := TouchesPages) (fun _ i hs => releasePage_touches hs i) h

/-- The machine steps 3 and 4 work on: the map with its carved entry, and the
two steps themselves. -/
theorem pmmInit_steps (map : List MemmapEntry) (hhdm : U64) (mem : U64 → Nat → U8) :
    ∃ (map' : List MemmapEntry) (s : Machine), s.touched = [] ∧
      s.pmm.totalPages = memTop map / 4096 ∧ s.pmm.bitmapSize = bitmapBytes map ∧
      (∀ en, bitmapHome map = some en → s.pmm.bitmap = physToVirt en.base) ∧
      pmmInit (boot map hhdm mem) = markFree map' (fillBitmap (bitmapBytes map) s) := by
  cases h : bitmapHome map with
  | none =>
    exact ⟨map, unplaced map hhdm mem, rfl, totalPages_eq map, bitmapBytes_eq map,
      fun _ h => by simp at h, pmmInit_unplaced hhdm mem h⟩
  | some en =>
    obtain ⟨pre, post, -, heq⟩ := pmmInit_placed hhdm mem h
    refine ⟨_, _, rfl, totalPages_eq map, bitmapBytes_eq map, ?_, heq⟩
    intro e he
    rw [← Option.some.inj he, placed]

theorem markFree_touched_mono {map : List MemmapEntry} {s : Machine} {p : U64 × Nat}
    (h : p ∈ s.touched) : p ∈ (markFree map s).touched := by
  apply markFree_keeps (P := fun s => p ∈ s.touched) _ h
  intro s i hp
  rw [releasePage_touched]
  split
  · exact List.mem_cons_of_mem _ hp
  · exact hp

/-- With a whole number of bitmap bytes, every call touches bytes of pages only,
and `pmm_init` too. -/
theorem pmmInit_touches (h8 : memTop map / 4096 % 8 = 0) :
    TouchesPages (pmmInit (boot map hhdm mem)) := by
  obtain ⟨map', s, ht, hT, -, -, heq⟩ := pmmInit_steps map hhdm mem
  rw [heq]
  apply markFree_touches
  intro p hp
  rw [fillBitmap_touched, ht] at hp
  rw [fillBitmap_pmm, hT]
  rcases hp with ⟨hb, hk⟩ | hp
  · rw [bitmapBytes] at hk
    exact ⟨hb, 8 * p.2, by omega, by omega⟩
  · exact absurd hp List.not_mem_nil

theorem pmmInit_counts (map : List MemmapEntry) (hhdm : U64) (mem : U64 → Nat → U8) :
    (pmmInit (boot map hhdm mem)).pmm.totalPages = memTop map / 4096 ∧
      (pmmInit (boot map hhdm mem)).pmm.bitmapSize = bitmapBytes map := by
  obtain ⟨map', s, -, hT, hS, -, heq⟩ := pmmInit_steps map hhdm mem
  rw [heq, markFree_pmm, fillBitmap_pmm]
  exact ⟨hT, hS⟩

/-- Counts in step: a page's byte is below the size, and it is in the bitmap's home. -/
theorem inBitmap_of_touches (h8 : memTop map / 4096 % 8 = 0)
    (hhome : memTop map / 4096 = 0 ∨ ∃ en ∈ map, en.usable = true ∧
      bitmapBytes map ≤ en.length.toNat) (calls : List Call) :
    InBitmap map (runCalls calls (pmmInit (boot map hhdm mem))) := by
  intro p hp
  obtain ⟨ht, hpmm⟩ := runCalls_touches (pmmInit_touches hhdm mem h8) calls
  obtain ⟨hb, j, hj, hk⟩ := ht p hp
  -- `j` is below the page count, which is 8 times the size
  obtain ⟨hT, hS⟩ := pmmInit_counts map hhdm mem
  rw [hpmm, hT] at hj
  rw [hpmm, hS]
  rcases hhome with h0 | hfit
  · omega
  · obtain ⟨en, hen⟩ := bitmapHome_exists hfit
    obtain ⟨hmem, hu, hc⟩ := bitmapHome_spec hen
    refine ⟨by rw [bitmapBytes]; omega, en, hmem, hu, hc, ?_⟩
    rw [hb, hpmm, pmmInit_pmm hhdm mem hen]

theorem free_leaves_bitmap (h8 : memTop map / 4096 % 8 ≠ 0) :
    ¬ InBitmap map (runCalls [.free (BitVec.ofNat 64 ((memTop map / 4096 - 1) * 4096))]
      (pmmInit (boot map hhdm mem))) := by
  intro h
  obtain ⟨hT, hS⟩ := pmmInit_counts map hhdm mem
  have h52 : memTop map / 4096 < 2^52 := by rw [← highestAddr_toNat]; exact pages_lt _
  have htouch : ((pmmInit (boot map hhdm mem)).pmm.bitmap, (memTop map / 4096 - 1) / 8) ∈
      (runCalls [.free (BitVec.ofNat 64 ((memTop map / 4096 - 1) * 4096))]
        (pmmInit (boot map hhdm mem))).touched := by
    simp only [runCalls, List.foldl_cons, List.foldl_nil, Call.step, pmmFreePage]
    rw [pageAddr_toNat (by omega), Nat.mul_div_cancel _ (by decide), releasePage_touched, hT,
      if_pos (by omega)]
    exact List.mem_cons_self
  have hlt := (h _ htouch).1
  simp only [runCalls, List.foldl_cons, List.foldl_nil, Call.step_pmm, hS, bitmapBytes] at hlt
  omega

/-- No entry can hold the bitmap: step 3 writes where nothing was placed. -/
theorem unplaced_leaves_bitmap (hpos : 0 < bitmapBytes map)
    (hno : ¬ ∃ en ∈ map, en.usable = true ∧ bitmapBytes map ≤ en.length.toNat) :
    ¬ InBitmap map (pmmInit (boot map hhdm mem)) := by
  intro h
  obtain ⟨map', s, -, -, hS, -, heq⟩ := pmmInit_steps map hhdm mem
  have htouch : (s.pmm.bitmap, 0) ∈ (pmmInit (boot map hhdm mem)).touched := by
    rw [heq]
    exact markFree_touched_mono ((fillBitmap_touched _ _ _).mpr (Or.inl ⟨rfl, hpos⟩))
  obtain ⟨-, en, hen, hu, hc, -⟩ := h _ htouch
  rw [(pmmInit_counts map hhdm mem).2] at hc
  exact hno ⟨en, hen, hu, hc⟩

/-- **When every access stays inside the bitmap.** For every memory map,
initialisation followed by any sequence of calls accesses only bytes of a bitmap
placed in a usable entry, exactly when the page count is a multiple of 8 and some
usable entry can hold the bitmap (or there is no page). -/
theorem pmm_in_bitmap_iff (map : List MemmapEntry) (hhdm : U64) (mem : U64 → Nat → U8) :
    (∀ calls, InBitmap map (runCalls calls (pmmInit (boot map hhdm mem)))) ↔
      memTop map / 4096 % 8 = 0 ∧ (memTop map / 4096 = 0 ∨
        ∃ en ∈ map, en.usable = true ∧ bitmapBytes map ≤ en.length.toNat) := by
  constructor
  · intro h
    have h8 : memTop map / 4096 % 8 = 0 := by
      by_contra hne
      exact free_leaves_bitmap hhdm mem hne (h _)
    refine ⟨h8, ?_⟩
    by_contra hno
    rw [not_or] at hno
    exact unplaced_leaves_bitmap hhdm mem (by rw [bitmapBytes]; omega) hno.2 (h [])
  · rintro ⟨h8, hhome⟩ calls
    exact inBitmap_of_touches hhdm mem h8 hhome calls

/-- Eight pages at 4 KiB make nine in all and one byte of bitmap; page 8 has its
bit in a second. -/
theorem pmm_leaves_bitmap :
    ¬ ∀ (map : List MemmapEntry) (hhdm : U64) (mem : U64 → Nat → U8) (calls : List Call),
      InBitmap map (runCalls calls (pmmInit (boot map hhdm mem))) := by
  intro h
  have h8 : memTop (oneRegion 0x1000 8) / 4096 % 8 ≠ 0 := by decide
  exact free_leaves_bitmap 0 (fun _ _ => 0) h8 (h _ _ _ _)

end JarJar.Pmm
