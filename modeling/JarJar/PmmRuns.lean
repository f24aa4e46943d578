import JarJar.Pmm
import JarJar.Lib.Pool

/- Runs of the page allocator. Callers give back only what they were handed, and
   in any order; the bitmap then behaves as a pool of pages that hands out the
   least free one: no page is lost and none is handed out twice.

   The pool is the specification (`Pool`, over sets of page numbers); `pool`
   reads it off a machine and the addresses its callers hold, and every call of
   a run is a step of it (`alloc_step`, `free_step`). -/
namespace JarJar.Pmm

/-- The callers' addresses after an allocation returned `a`; 0 is the failure. -/
def hold (a : U64) (held : List U64) : List U64 := if a = 0 then held else a :: held

/-- The machines reachable from `s₀` with the addresses held there, when each
freed address is one that is held. -/
inductive Run (s₀ : Machine) : Machine → List U64 → Prop where
  | start : Run s₀ s₀ []
  | alloc {s : Machine} {held : List U64} : Run s₀ s held →
      Run s₀ (pmmAllocPage s).2 (hold (pmmAllocPage s).1 held)
  | free {s : Machine} {held : List U64} {a : U64} : Run s₀ s held → a ∈ held →
      Run s₀ (pmmFreePage a s) (held.erase a)

/-- The pages whose addresses are held. -/
def pagesHeld (held : List U64) : Set Nat := {i | ∃ a ∈ held, a.toNat = i * 4096}

/-- The free pages. -/
def freePages (s : Machine) : Set Nat := {i | Free s i}

/-- The pool a machine and its callers' addresses stand for. -/
def pool (s : Machine) (held : List U64) : Pool Nat := ⟨freePages s, pagesHeld held⟩

theorem pageAddr_toNat {k : Nat} (hk : k < 2^52) : (BitVec.ofNat 64 (k * 4096)).toNat = k * 4096 := by
  rw [BitVec.toNat_ofNat]
  exact Nat.mod_eq_of_lt (by omega)

theorem free_lt {s : Machine} {i : Nat} (h : Free s i) : i < 2^52 :=
  Nat.lt_trans h.1 s.pmm.totalPages_lt

/-- The invariant of a run: the page count stands, held addresses are distinct
page addresses, and the pages are conserved. -/
structure Tracks (s₀ s : Machine) (held : List U64) : Prop where
  pmm : s.pmm = s₀.pmm
  nodup : held.Nodup
  page : ∀ a ∈ held, ∃ i, a.toNat = i * 4096
  conserves : Pool.Conserves (freePages s₀) (pool s held)

theorem Tracks.start (s₀ : Machine) : Tracks s₀ s₀ [] where
  pmm := rfl
  nodup := List.nodup_nil
  page := fun _ ha => absurd ha List.not_mem_nil
  conserves := by
    have h : pool s₀ [] = ⟨freePages s₀, ∅⟩ := by simp [pool, pagesHeld]
    exact h ▸ Pool.conserves_start _

theorem pool_exhausted {s s' : Machine} {held : List U64} (hno : ∀ i, ¬ Free s i)
    (hfree : ∀ j, Free s' j ↔ Free s j) : Pool.Step (pool s held) (pool s' held) := by
  have h : pool s' held = pool s held := by simp [pool, freePages, hfree]
  rw [h]
  exact Pool.Step.exhausted (Set.eq_empty_of_forall_notMem hno)

theorem alloc_step {s₀ s : Machine} {held : List U64} (h0 : ¬ Free s₀ 0) (ht : Tracks s₀ s held) :
    Pool.Step (pool s held) (pool (pmmAllocPage s).2 (hold (pmmAllocPage s).1 held)) := by
  obtain ⟨-, ⟨k, hk, hres, hfree⟩ | ⟨hno, hres, hfree⟩⟩ := pmmAllocPage_cases s
  · -- page `k` is taken; it is not page 0, so its address is not the failure
    have hk52 := free_lt hk.1
    have hk0 : k ≠ 0 := fun h => h0 (h ▸ ht.conserves.free_subset hk.1)
    have hne : BitVec.ofNat 64 (k * 4096) ≠ 0 := by
      intro h
      have := congrArg BitVec.toNat h
      rw [pageAddr_toNat hk52] at this
      simp at this
      omega
    have heq : pool (pmmAllocPage s).2 (hold (pmmAllocPage s).1 held) =
        ⟨freePages s \ {k}, insert k (pagesHeld held)⟩ := by
      rw [hres, hold, if_neg hne]
      simp only [pool, Pool.mk.injEq]
      refine ⟨Set.ext fun j => hfree j, Set.ext fun j => ?_⟩
      simp only [pagesHeld, List.mem_cons, exists_eq_or_imp, pageAddr_toNat hk52,
        Set.mem_ofPred_eq, Set.mem_insert_iff]
      exact or_congr ⟨fun h => by omega, fun h => by rw [h]⟩ Iff.rfl
    rw [heq]
    exact Pool.Step.take hk
  · rw [hres, hold, if_pos rfl]
    exact pool_exhausted hno hfree

theorem free_step {s₀ s : Machine} {held : List U64} {a : U64} (ht : Tracks s₀ s held)
    (ha : a ∈ held) : Pool.Step (pool s held) (pool (pmmFreePage a s) (held.erase a)) := by
  obtain ⟨i, hi⟩ := ht.page a ha
  have hheld : i ∈ pagesHeld held := ⟨a, ha, hi⟩
  have hT : i < s.pmm.totalPages := ht.pmm ▸ (ht.conserves.held_subset hheld).1
  have hidx : a.toNat / 4096 = i := by omega
  have heq : pool (pmmFreePage a s) (held.erase a) =
      ⟨insert i (freePages s), pagesHeld held \ {i}⟩ := by
    simp only [pool, Pool.mk.injEq]
    refine ⟨Set.ext fun j => ?_, Set.ext fun j => ?_⟩
    · simp [freePages, pmmFreePage, hidx, free_releasePage, hT]
    · simp only [pagesHeld, Set.mem_ofPred_eq, Set.mem_sdiff, Set.mem_singleton_iff,
        ht.nodup.mem_erase_iff]
      constructor
      · rintro ⟨b, ⟨hb, hmem⟩, hj⟩
        exact ⟨⟨b, hmem, hj⟩, fun hji => hb (BitVec.eq_of_toNat_eq (by omega))⟩
      · rintro ⟨⟨b, hmem, hj⟩, hji⟩
        exact ⟨b, ⟨fun hba => hji (by subst hba; omega), hmem⟩, hj⟩
  rw [heq]
  exact Pool.Step.give hheld

theorem alloc_tracks {s₀ s : Machine} {held : List U64} (h0 : ¬ Free s₀ 0) (ht : Tracks s₀ s held) :
    Tracks s₀ (pmmAllocPage s).2 (hold (pmmAllocPage s).1 held) := by
  have hcons := (alloc_step h0 ht).conserves ht.conserves
  obtain ⟨hpmm, ⟨k, hk, hres, -⟩ | ⟨-, hres, -⟩⟩ := pmmAllocPage_cases s
  · have hk52 := free_lt hk.1
    have hfresh : BitVec.ofNat 64 (k * 4096) ∉ held := fun hm =>
      ht.conserves.take_fresh hk ⟨_, hm, pageAddr_toNat hk52⟩
    refine ⟨hpmm.trans ht.pmm, ?_, ?_, hcons⟩ <;> rw [hres, hold] <;> split
    · exact ht.nodup
    · exact List.nodup_cons.mpr ⟨hfresh, ht.nodup⟩
    · exact ht.page
    · intro a ha
      rcases List.mem_cons.mp ha with rfl | ha
      · exact ⟨k, pageAddr_toNat hk52⟩
      · exact ht.page a ha
  · refine ⟨hpmm.trans ht.pmm, ?_, ?_, hcons⟩ <;> rw [hres, hold, if_pos rfl]
    · exact ht.nodup
    · exact ht.page

theorem free_tracks {s₀ s : Machine} {held : List U64} {a : U64} (ht : Tracks s₀ s held)
    (ha : a ∈ held) : Tracks s₀ (pmmFreePage a s) (held.erase a) where
  pmm := (releasePage_pmm _ _).trans ht.pmm
  nodup := ht.nodup.erase a
  page := fun b hb => ht.page b (List.mem_of_mem_erase hb)
  conserves := (free_step ht ha).conserves ht.conserves

theorem Run.tracks {s₀ s : Machine} {held : List U64} (h0 : ¬ Free s₀ 0) (hr : Run s₀ s held) :
    Tracks s₀ s held := by
  induction hr with
  | start => exact Tracks.start s₀
  | alloc _ ih => exact alloc_tracks h0 ih
  | free _ ha ih => exact free_tracks ih ha

/-- The calls of a run are steps of the pool. -/
theorem Run.refines {s₀ s : Machine} {held : List U64} (h0 : ¬ Free s₀ 0) (hr : Run s₀ s held) :
    Relation.ReflTransGen Pool.Step (pool s₀ []) (pool s held) := by
  induction hr with
  | start => exact Relation.ReflTransGen.refl
  | alloc hr ih => exact ih.tail (alloc_step h0 (hr.tracks h0))
  | free hr ha ih => exact ih.tail (free_step (hr.tracks h0) ha)

/-- No run loses a page or hands one out twice. -/
theorem Run.conserves {s₀ s : Machine} {held : List U64} (h0 : ¬ Free s₀ 0) (hr : Run s₀ s held) :
    Pool.Conserves (freePages s₀) (pool s held) :=
  Pool.steps_conserve (hr.refines h0) (Tracks.start s₀).conserves

theorem Run.touched {s₀ s : Machine} {held : List U64} (h0 : ¬ Free s₀ 0) (hr : Run s₀ s held) :
    ∀ p ∈ s.touched, p ∈ s₀.touched ∨
      (p.1 = s₀.pmm.bitmap ∧ ∃ j, j < s₀.pmm.totalPages ∧ p.2 = j / 8) := by
  induction hr with
  | start => exact fun p hp => Or.inl hp
  | alloc hr ih =>
    intro p hp
    have hpmm := (hr.tracks h0).pmm
    rcases allocFrom_touched _ _ _ p hp with h | ⟨hb, j, hj, hk⟩
    · exact ih p h
    · rw [hpmm] at hb hj
      exact Or.inr ⟨hb, j, by omega, hk⟩
  | @free s held a hr ha ih =>
    intro p hp
    have hpmm := (hr.tracks h0).pmm
    rw [pmmFreePage, releasePage_touched, hpmm] at hp
    split at hp
    · next hT =>
      rcases List.mem_cons.mp hp with rfl | h
      · exact Or.inr ⟨rfl, _, hT, rfl⟩
      · exact ih p h
    · exact ih p hp

/-- The only bytes that changed are those of the bitmap that hold the bit of a page. -/
structure OnBitmap (s₀ s : Machine) : Prop where
  pmm : s.pmm = s₀.pmm
  mem : ∀ p k, s.mem p k ≠ s₀.mem p k → p = s₀.pmm.bitmap ∧ k < (s₀.pmm.totalPages + 7) / 8

theorem OnBitmap.refl (s : Machine) : OnBitmap s s := ⟨rfl, fun _ _ h => absurd rfl h⟩

theorem OnBitmap.store {s₀ s : Machine} (h : OnBitmap s₀ s) {i : Nat} (hi : i < s₀.pmm.totalPages)
    (b : U8) : OnBitmap s₀ (s.store (i / 8) b) where
  pmm := h.pmm
  mem := by
    intro p k hne
    by_cases hpk : p = s₀.pmm.bitmap ∧ k = i / 8
    · exact ⟨hpk.1, by omega⟩
    · apply h.mem p k
      rwa [Machine.store_mem_other (by rw [h.pmm]; exact hpk)] at hne

theorem OnBitmap.release {s₀ s : Machine} (h : OnBitmap s₀ s) (i : Nat) :
    OnBitmap s₀ (releasePage s i) := by
  rw [releasePage]
  split
  · next hi =>
    rw [h.pmm] at hi
    exact h.store hi _
  · exact h

theorem OnBitmap.allocFrom {s₀ s : Machine} (h : OnBitmap s₀ s) {n i : Nat}
    (hi : i + n ≤ s₀.pmm.totalPages) : OnBitmap s₀ (allocFrom n i s).2 := by
  induction n generalizing i s with
  | zero => exact h
  | succ n ih =>
    have htouch : OnBitmap s₀ (s.touch (i / 8)) := ⟨h.pmm, h.mem⟩
    rw [Pmm.allocFrom]
    split
    · exact htouch.store (by omega) _
    · exact ih htouch (by omega)

theorem OnBitmap.alloc {s₀ s : Machine} (h : OnBitmap s₀ s) : OnBitmap s₀ (pmmAllocPage s).2 :=
  h.allocFrom (by rw [h.pmm]; omega)

/-- **The bitmap is a pool of pages.** In every run, from every allocator state
whose bitmap has a bit for each page and whose page 0 is taken, the addresses
held are distinct page addresses of pages free at the start; those pages are at
every moment the disjoint union of the free and the held ones; a successful
allocation returns the least free page; and no access leaves the bitmap. -/
theorem pmm_conserves_pages (s₀ : Machine) (size : Nat) (hsize : (s₀.pmm.totalPages + 7) / 8 ≤ size)
    (h0 : ¬ Free s₀ 0) {s : Machine} {held : List U64} (hr : Run s₀ s held) :
    held.Nodup ∧
    (∀ a ∈ held, a.toNat % 4096 = 0 ∧ a.toNat < s₀.pmm.totalPages * 4096 ∧
      Free s₀ (a.toNat / 4096)) ∧
    freePages s₀ = freePages s ∪ pagesHeld held ∧
    Disjoint (freePages s) (pagesHeld held) ∧
    ((pmmAllocPage s).1 ≠ 0 →
      ∃ k, IsLeast (freePages s) k ∧ (pmmAllocPage s).1.toNat = k * 4096) ∧
    (∀ p ∈ s.touched, p ∈ s₀.touched ∨ (p.1 = s₀.pmm.bitmap ∧ p.2 < size)) := by
  have ht := hr.tracks h0
  have hcons := hr.conserves h0
  refine ⟨ht.nodup, ?_, hcons.union.symm, hcons.disjoint, ?_, ?_⟩
  · intro a ha
    obtain ⟨i, hi⟩ := ht.page a ha
    have hfree : Free s₀ i := hcons.held_subset ⟨a, ha, hi⟩
    have hidx : a.toNat / 4096 = i := by omega
    have hlt := hfree.1
    exact ⟨by omega, by omega, hidx ▸ hfree⟩
  · intro hne
    obtain ⟨-, ⟨k, hk, hres, -⟩ | ⟨-, hres, -⟩⟩ := pmmAllocPage_cases s
    · exact ⟨k, hk, by rw [hres, pageAddr_toNat (free_lt hk.1)]⟩
    · exact absurd hres hne
  · intro p hp
    rcases hr.touched h0 p hp with h | ⟨hb, j, hj, hk⟩
    · exact Or.inl h
    · exact Or.inr ⟨hb, by omega⟩

/-- Three pages, of which 1 and 2 are free. -/
def threePages : Machine where
  memmap := none
  hhdm := none
  pmm := ⟨3, by decide, 0x1000#64, 0x1000#64, 1⟩
  mem := fun _ _ => 0xF9#8
  touched := []

/-- Two allocations there hand out pages 1 and 2; page 1 is given back, and is the next again. -/
theorem pmm_conserves_pages_threePages :
    let s := pmmFreePage 0x1000 (pmmAllocPage (pmmAllocPage threePages).2).2
    freePages threePages = freePages s ∪ pagesHeld [0x2000#64] ∧
      Disjoint (freePages s) (pagesHeld [0x2000#64]) ∧
      (∃ k, IsLeast (freePages s) k ∧ (pmmAllocPage s).1.toNat = k * 4096) ∧
      ∀ p ∈ s.touched, p.1 = 0x1000#64 ∧ p.2 < 1 := by
  intro s
  have hrun : Run threePages s [0x2000#64] :=
    Run.free (a := 0x1000#64) (Run.alloc (Run.alloc Run.start)) (by decide)
  obtain ⟨-, -, hunion, hdisjoint, hleast, htouched⟩ :=
    pmm_conserves_pages threePages 1 (by decide) (fun h => absurd h.2 (by decide)) hrun
  exact ⟨hunion, hdisjoint, hleast (by decide),
    fun p hp => (htouched p hp).resolve_left List.not_mem_nil⟩

end JarJar.Pmm
