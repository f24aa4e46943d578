import JarJar.PmmBounds
import JarJar.Lib.Runs

/- When an allocation fails. The failure value of `pmm_alloc_page` is 0, which is also
   the address of page 0, and the callers read every 0 as a failure.

   What is proved (`alloc_fails_honestly_iff`): along every sequence of calls after
   initialisation a 0 means that no page is free, exactly when initialisation leaves page 0
   taken and no call gives an address inside it back. Nothing in `pmm_free_page` keeps a
   caller from doing so. -/
namespace JarJar.Pmm
open Runs

/-- A 0 means that no page is free, and then the bitmap is as it was. -/
def FailsHonestly (s : Machine) : Prop :=
  (pmmAllocPage s).1 = 0 → (∀ i, ¬ Free s i) ∧ (pmmAllocPage s).2.bytes = s.bytes

/-- With page 0 free, its address is what the next allocation returns. -/
theorem pmmAllocPage_zero {s : Machine} (h : Free s 0) : (pmmAllocPage s).1 = 0 := by
  obtain ⟨-, ⟨k, hk, hres, -⟩ | ⟨-, hres, -⟩⟩ := pmmAllocPage_cases s
  · rw [hres, Nat.le_zero.mp (hk.2 h)]
    rfl
  · exact hres

theorem failsHonestly_iff (s : Machine) : FailsHonestly s ↔ ¬ Free s 0 := by
  refine ⟨fun h hfree => (h (pmmAllocPage_zero hfree)).1 0 hfree, fun h hzero => ?_⟩
  obtain ⟨-, ⟨k, -, hlt, hclear, -, hres, -⟩ | ⟨hall, -, hbytes⟩⟩ :=
    allocFrom_cases s.pmm.totalPages 0 s
  · -- the page taken is page 0, which was not free
    have hk : Free s k := ⟨by omega, hclear⟩
    have haddr : k * 4096 = 0 := by
      rw [← pageAddr_toNat (free_lt hk), ← hres]
      exact congrArg BitVec.toNat hzero
    obtain rfl : k = 0 := by omega
    exact absurd hk h
  · refine ⟨fun i hi => ?_, hbytes⟩
    have hset := hall i (Nat.zero_le i) (by have := hi.1; omega)
    simp [hi.2] at hset

/-! ## Along a run -/

/-- The call does not give back an address of page 0, or there is no page at all. -/
def Call.SparesPageZero (totalPages : Nat) (c : Call) : Prop :=
  ∀ addr, c = .free addr → totalPages = 0 ∨ 4096 ≤ addr.toNat

theorem not_free_step {s : Machine} (h : ¬ Free s 0) {c : Call}
    (hc : c.SparesPageZero s.pmm.totalPages) : ¬ Free (c.step s) 0 := by
  cases c with
  | alloc =>
    obtain ⟨-, ⟨k, -, -, hfree⟩ | ⟨-, -, hfree⟩⟩ := pmmAllocPage_cases s
    · exact fun hz => h ((hfree 0).mp hz).1
    · exact fun hz => h ((hfree 0).mp hz)
  | free addr =>
    rw [Call.step, pmmFreePage, free_releasePage, not_or]
    refine ⟨fun hpage => ?_, h⟩
    obtain hnone | haddr := hc addr rfl
    · omega
    · omega

theorem free_step_zero {s : Machine} {c : Call} (hc : ¬ c.SparesPageZero s.pmm.totalPages) :
    Free (c.step s) 0 := by
  rw [Call.SparesPageZero] at hc
  push Not at hc
  obtain ⟨addr, rfl, hpages, haddr⟩ := hc
  rw [Call.step, pmmFreePage, free_releasePage]
  exact .inl ⟨by omega, by omega⟩

theorem throughout_failsHonestly_iff (s : Machine) (calls : List Call) :
    Throughout Call.step FailsHonestly s calls ↔
      ¬ Free s 0 ∧ ∀ c ∈ calls, c.SparesPageZero s.pmm.totalPages := by
  by_cases hfree : Free s 0
  · refine ⟨fun h => absurd hfree ((failsHonestly_iff s).mp h.start), fun h => absurd hfree h.1⟩
  · have hpages (s' : Machine) (c : Call) : (c.step s').pmm.totalPages = s'.pmm.totalPages := by
      rw [Call.step_pmm]
    rw [exact_iff (I := fun s' => ¬ Free s' 0 ∧ s'.pmm.totalPages = s.pmm.totalPages)
      (Q := fun _ _ => True) (P := fun _ c => c.SparesPageZero s.pmm.totalPages), each_forall]
    · exact ⟨fun h => ⟨hfree, h⟩, fun h => h.2⟩
    · exact fun s' h => (failsHonestly_iff s').mpr h.1
    · intro s' c h _ hc
      rw [← h.2] at hc ⊢
      exact ⟨not_free_step h.1 hc, hpages s' c⟩
    · intro s' c h _ hc
      rw [← h.2] at hc
      rw [failsHonestly_iff, not_not]
      exact free_step_zero hc
    · exact ⟨hfree, rfl⟩
    · exact each_forall.mpr fun _ _ => trivial

/-! ## After initialisation -/

/-- The map after the bitmap is cut off its home. -/
def cutMap (map : List MemmapEntry) : List MemmapEntry :=
  match placeBitmap (bitmapBytes map) map with
  | some (_, map') => map'
  | none => map

/-- Where the bitmap goes; without a home the pointer stays NULL. -/
def bitmapAddr (map : List MemmapEntry) : U64 :=
  match bitmapHome map with
  | some en => physToVirt en.base
  | none => 0

/-- Page 0 is free from the start: step 4 marks it, or the bitmap has no byte and memory
held a clear bit there. -/
def PageZeroFree (map : List MemmapEntry) (mem : U64 → Nat → U8) : Prop :=
  0 < memTop map / 4096 ∧
    ((bitmapBytes map = 0 ∧ PackedBits.bit (mem (bitmapAddr map)) 0 = false) ∨
      ∃ en ∈ cutMap map, en.Marks 0)

theorem pmmInit_eq (map : List MemmapEntry) (hhdm : U64) (mem : U64 → Nat → U8) :
    ∃ s : Machine, s.bytes = mem (bitmapAddr map) ∧ s.pmm.totalPages = memTop map / 4096 ∧
      pmmInit (boot map hhdm mem) = markFree (cutMap map) (fillBitmap (bitmapBytes map) s) := by
  cases hp : placeBitmap (bitmapBytes map) map with
  | none =>
    have hhome : bitmapHome map = none := placeBitmap_none.mp hp
    refine ⟨unplaced map hhdm mem, ?_, totalPages_eq map, ?_⟩
    · simp only [bitmapAddr, hhome]
      rfl
    · rw [pmmInit_unplaced hhdm mem hhome]
      simp only [cutMap, hp]
  | some r =>
    obtain ⟨en, map'⟩ := r
    have hhome : bitmapHome map = some en := (placeBitmap_some hp).1
    refine ⟨placed map map' hhdm mem en, ?_, totalPages_eq map, ?_⟩
    · simp only [bitmapAddr, hhome, placed_bytes]
    · simp only [pmmInit, boot, placed, cutMap, bitmapBytes_eq, hp]

theorem free_pmmInit_zero (map : List MemmapEntry) (hhdm : U64) (mem : U64 → Nat → U8) :
    Free (pmmInit (boot map hhdm mem)) 0 ↔ PageZeroFree map mem := by
  obtain ⟨s, hbytes, hpages, heq⟩ := pmmInit_eq map hhdm mem
  have hnoByte : ¬ 0 < 8 * bitmapBytes map ↔ bitmapBytes map = 0 := by omega
  rw [heq, free_markFree, Free, fillBitmap_pmm, hpages, fillBitmap_bit, hbytes, PageZeroFree,
    Bool.or_eq_false_iff, decide_eq_false_iff_not, hnoByte, ← and_or_left]

/-- The machine before `pmm_init`, with what the boot loader answered, if it did. -/
def started (memmap : Option (List MemmapEntry)) (hhdm : Option U64) (mem : U64 → Nat → U8) :
    Machine :=
  { boot [] 0 mem with memmap := memmap, hhdm := hhdm }

theorem pmmInit_unanswered {memmap : Option (List MemmapEntry)} {hhdm : Option U64}
    (mem : U64 → Nat → U8) (h : memmap = none ∨ hhdm = none) :
    (pmmInit (started memmap hhdm mem)).pmm.totalPages = 0 := by
  obtain rfl | rfl := h
  · rfl
  · cases memmap <;> rfl

/-- **When a failed allocation means that memory is exhausted.** For every memory map and
every sequence of calls after `pmm_init`, each state passed answers 0 only if no page is
free, exactly when page 0 is not free from the start and no call gives an address below
4096 back. -/
theorem alloc_fails_honestly_iff (memmap : Option (List MemmapEntry)) (hhdm : Option U64)
    (mem : U64 → Nat → U8) (calls : List Call) :
    Throughout Call.step FailsHonestly (pmmInit (started memmap hhdm mem)) calls ↔
      ∀ map, memmap = some map → hhdm ≠ none →
        ¬ PageZeroFree map mem ∧ ∀ c ∈ calls, c.SparesPageZero (memTop map / 4096) := by
  rw [throughout_failsHonestly_iff]
  by_cases hnone : memmap = none ∨ hhdm = none
  · have hpages := pmmInit_unanswered mem hnone
    refine ⟨fun _ map hmap hhdm => ?_, fun _ => ⟨fun hfree => ?_, fun c _ addr _ => .inl hpages⟩⟩
    · obtain rfl | h := hnone
      · cases hmap
      · exact absurd h hhdm
    · have hlt := hfree.1
      omega
  · rw [not_or] at hnone
    obtain ⟨map, rfl⟩ := Option.ne_none_iff_exists'.mp hnone.1
    obtain ⟨offset, rfl⟩ := Option.ne_none_iff_exists'.mp hnone.2
    have hstarted : started (some map) (some offset) mem = boot map offset mem := rfl
    rw [hstarted, free_pmmInit_zero, (pmmInit_counts map offset mem).1]
    refine ⟨fun h map' hmap' _ => ?_, fun h => h map rfl (Option.some_ne_none offset)⟩
    obtain rfl := Option.some.inj hmap'
    exact h

/-- Sixteen pages at 1 MiB, and page 0 given back: the next allocation returns 0, with
page 0 and the pages from 257 on free. -/
theorem alloc_zero_with_free_pages :
    let s := runCalls [.free 0]
      (pmmInit (started (some (oneRegion 0x100000 16)) (some 0) fun _ _ => 0))
    (pmmAllocPage s).1 = 0 ∧ Free s 0 ∧ Free s 257 ∧ ¬ FailsHonestly s := by
  intro s
  obtain ⟨s₀, -, hpages, heq⟩ := pmmInit_eq (oneRegion 0x100000 16) 0 fun _ _ => 0
  have hstep : s = releasePage (pmmInit (boot (oneRegion 0x100000 16) 0 fun _ _ => 0)) 0 := rfl
  have hfree : Free s 0 ∧ Free s 257 := by
    rw [hstep, free_releasePage, free_releasePage, heq, free_markFree, free_markFree, markFree_pmm,
      fillBitmap_pmm, hpages]
    have hmarked : ∃ en ∈ cutMap (oneRegion 0x100000 16), en.Marks 257 :=
      ⟨_, List.mem_singleton_self _, rfl, 1, by decide, by decide⟩
    exact ⟨.inl ⟨rfl, by decide⟩, .inr (.inr ⟨by decide, hmarked⟩)⟩
  exact ⟨pmmAllocPage_zero hfree.1, hfree.1, hfree.2,
    fun h => (failsHonestly_iff s).mp h hfree.1⟩

end JarJar.Pmm
