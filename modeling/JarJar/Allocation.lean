import JarJar.Memmove
import JarJar.Stdlib

/- The heap functions of the C library over those of the kernel: `calloc`, `realloc` and, in
   `string.h`, `strndup`.

   Correspondence (C ↔ Lean):
     `kmalloc`, `kfree`                 ↔ the fields of `Kernel`, 0 for NULL
     `memset`, `memcpy`                 ↔ `memset`, `memcpy`
     `calloc`, `realloc`                ↔ `calloc`, `realloc`
   `Heap.live`, `Heap.freed` and `Heap.reads` are not in the source: the blocks in use, the
   pointers that `kfree` was called with, and the addresses that the library has read, the last
   one first. The wrappers do not know how large a block is. -/
namespace JarJar.Alloc
open Libc

structure Block where
  start : Nat
  size : Nat

structure Heap where
  bytes : Nat → U8
  reads : List Nat
  live : List Block
  freed : List Nat

structure Kernel where
  kmalloc : U64 → Heap → Nat × Heap
  kfree : Nat → Heap → Heap

/-- The byte at `x` is one of the block. -/
def Block.Has (b : Block) (x : Nat) : Prop := b.start ≤ x ∧ x < b.start + b.size

def Block.Apart (b b' : Block) : Prop := ∀ x, b.Has x → ¬ b'.Has x

/-- From `h` to `h'` the block `b` came into use, for a request of `size` bytes. -/
structure Gives (size : U64) (b : Block) (h h' : Heap) : Prop where
  nonnull : b.start ≠ 0
  enough : size.toNat ≤ b.size
  fits : b.start + b.size ≤ 2^64
  apart : ∀ b' ∈ h.live, b'.start ≠ b.start ∧ b.Apart b'
  live : h'.live = b :: h.live
  freed : h'.freed = h.freed
  reads : h'.reads = h.reads
  kept : ∀ b' ∈ h.live, ∀ x, b'.Has x → h'.bytes x = h.bytes x

/-- From `h` to `h'` the block at `p` went out of use. -/
structure Takes (p : Nat) (h h' : Heap) : Prop where
  live : h'.live = h.live.filter fun b => b.start ≠ p
  freed : h'.freed = p :: h.freed
  reads : h'.reads = h.reads
  kept : ∀ b ∈ h'.live, ∀ x, b.Has x → h'.bytes x = h.bytes x

/-- `kmalloc` returns NULL or a fresh block that is large enough, and `kfree` takes back the
block it is called with. -/
structure Kernel.Works (k : Kernel) : Prop where
  kmalloc : ∀ size h, k.kmalloc size h = (0, h) ∨
    ∃ b, (k.kmalloc size h).1 = b.start ∧ Gives size b h (k.kmalloc size h).2
  kfree : ∀ p h, Takes p h (k.kfree p h)

def Heap.load (h : Heap) (p : Nat) : U8 × Heap := (h.bytes p, { h with reads := p :: h.reads })

def Heap.store (h : Heap) (p : Nat) (c : U8) : Heap :=
  { h with bytes := fun x => if x = p then c else h.bytes x }

/-- `while (n--) *p++ = c`. -/
def memset : Nat → U8 → Nat → Heap → Heap
  | _, _, 0, h => h
  | p, c, n + 1, h => memset (p + 1) c n (h.store p c)

/-- `while (n--) *d++ = *s++`. -/
def memcpy : Nat → Nat → Nat → Heap → Heap
  | _, _, 0, h => h
  | d, s, n + 1, h =>
    let (c, h) := h.load s
    memcpy (d + 1) (s + 1) n (h.store d c)

def calloc (k : Kernel) (nmemb size : U64) (h : Heap) : Nat × Heap :=
  let total := nmemb * size
  let (ptr, h) := k.kmalloc total h
  if ptr ≠ 0 then (ptr, memset ptr 0 total.toNat h) else (ptr, h)

def realloc (k : Kernel) (ptr : Nat) (size : U64) (h : Heap) : Nat × Heap :=
  if ptr = 0 then k.kmalloc size h
  else if size = 0 then (0, k.kfree ptr h)
  else
    let (newPtr, h) := k.kmalloc size h
    -- `size` bytes are copied, however many the old block has
    if newPtr ≠ 0 then (newPtr, k.kfree ptr (memcpy newPtr ptr size.toNat h)) else (newPtr, h)

/-! ## The loops -/

section
variable {d s n i x : Nat} {h : Heap} {c : U8}

theorem memcpy_bytes (d s n : Nat) (h : Heap) (touched : List Nat) :
    (memcpy d s n h).bytes = (copyUp d s n ⟨h.bytes, touched⟩).bytes := by
  induction n generalizing d s h touched with
  | zero => rfl
  | succ n ih => exact ih (d + 1) (s + 1) ((h.load s).2.store d (h.load s).1) (d :: s :: touched)

theorem mem_memcpy_reads (d s n : Nat) (h : Heap) :
    x ∈ (memcpy d s n h).reads ↔ x ∈ h.reads ∨ (s ≤ x ∧ x < s + n) := by
  induction n generalizing d s h with
  | zero => exact (or_iff_left (by omega)).symm
  | succ n ih =>
    have hload : x ∈ ((h.load s).2.store d (h.load s).1).reads ↔ x = s ∨ x ∈ h.reads := List.mem_cons
    rw [memcpy, ih, hload]
    constructor
    · rintro ((rfl | hold) | hin)
      · exact Or.inr (by omega)
      · exact Or.inl hold
      · exact Or.inr (by omega)
    · rintro (hold | hin)
      · exact Or.inl (Or.inr hold)
      · by_cases hfirst : x = s
        · exact Or.inl (Or.inl hfirst)
        · exact Or.inr (by omega)

theorem memcpy_live (d s n : Nat) (h : Heap) :
    (memcpy d s n h).live = h.live ∧ (memcpy d s n h).freed = h.freed := by
  induction n generalizing d s h with
  | zero => exact ⟨rfl, rfl⟩
  | succ n ih => exact ih (d + 1) (s + 1) _

theorem memset_bytes (p : Nat) (c : U8) (n : Nat) (h : Heap) (x : Nat) :
    (memset p c n h).bytes x = if p ≤ x ∧ x < p + n then c else h.bytes x := by
  induction n generalizing p h with
  | zero => exact (if_neg (by omega)).symm
  | succ n ih =>
    have hstore : (h.store p c).bytes x = if x = p then c else h.bytes x := rfl
    rw [memset, ih, hstore]
    by_cases hfirst : x = p
    · rw [if_neg (by omega), if_pos hfirst, if_pos (by omega)]
    · rw [if_neg hfirst]
      exact if_congr (by omega) rfl rfl

theorem memset_live (p : Nat) (c : U8) (n : Nat) (h : Heap) : (memset p c n h).live = h.live := by
  induction n generalizing p h with
  | zero => rfl
  | succ n ih => exact ih (p + 1) _

end

/-! ## calloc -/

/-- The pointer is to a block of `count` bytes at least, the first `count` of them zero. -/
def Zeroed (count : Nat) (r : Nat × Heap) : Prop :=
  ∃ b ∈ r.2.live, b.start = r.1 ∧ count ≤ b.size ∧ ∀ i < count, r.2.bytes (r.1 + i) = 0

section
variable {k : Kernel} {h h' : Heap} {b : Block} {size nmemb : U64}

theorem calloc_cases (hk : k.Works) (nmemb size : U64) (h : Heap) :
    calloc k nmemb size h = (0, h) ∨ ∃ b h', Gives (nmemb * size) b h h' ∧
      calloc k nmemb size h = (b.start, memset b.start 0 (nmemb * size).toNat h') := by
  obtain hnull | ⟨b, hstart, hgives⟩ := hk.kmalloc (nmemb * size) h
  · refine Or.inl ?_
    rw [calloc, hnull]
    rfl
  · refine Or.inr ⟨b, _, hgives, ?_⟩
    rw [calloc]
    simp only [hstart, ne_eq, hgives.nonnull, not_false_eq_true, if_true]

theorem Gives.eq_of_start (hg : Gives size b h h') {b' : Block} (hb' : b' ∈ h'.live)
    (hstart : b'.start = b.start) : b' = b := by
  rw [hg.live, List.mem_cons] at hb'
  exact hb'.resolve_right fun hold => (hg.apart b' hold).1 hstart

/-- What `calloc` returns has room for all the elements exactly if their number of bytes
fits a `size_t`. -/
theorem calloc_zeroed_iff (hk : k.Works) (hp : (calloc k nmemb size h).1 ≠ 0) :
    Zeroed (nmemb.toNat * size.toNat) (calloc k nmemb size h) ↔
      nmemb.toNat * size.toNat < 2^64 := by
  obtain hnull | ⟨b, h', hgives, hcall⟩ := calloc_cases hk nmemb size h
  · exact absurd (congrArg Prod.fst hnull) hp
  rw [hcall]
  constructor
  · rintro ⟨b', hlive, hstart, hroom, -⟩
    rw [memset_live] at hlive
    have hfits := hgives.fits
    have hpos := hgives.nonnull
    rw [hgives.eq_of_start hlive hstart] at hroom
    omega
  · intro hlt
    have htotal : (nmemb * size).toNat = nmemb.toNat * size.toNat := by
      rw [BitVec.toNat_mul, Nat.mod_eq_of_lt hlt]
    refine ⟨b, ?_, rfl, ?_, fun i hi => ?_⟩
    · rw [memset_live, hgives.live]
      exact List.mem_cons_self
    · rw [← htotal]
      exact hgives.enough
    · rw [memset_bytes, if_pos (by omega)]

/-! ## realloc -/

/-- What `realloc` does with the block `b` in use: it copies as many bytes as it is asked for,
however many the block has. -/
structure Reallocated (b : Block) (size : U64) (h : Heap) (r : Nat × Heap) : Prop where
  reads : ∀ x, x ∈ r.2.reads ↔ x ∈ h.reads ∨ (r.1 ≠ 0 ∧ b.start ≤ x ∧ x < b.start + size.toNat)
  within : size.toNat ≤ b.size → ∀ x ∈ r.2.reads, x ∈ h.reads ∨ b.Has x
  block : r.1 ≠ 0 → ∃ b' ∈ r.2.live, b'.start = r.1 ∧ size.toNat ≤ b'.size
  begins : r.1 ≠ 0 → ∀ i < min b.size size.toNat, r.2.bytes (r.1 + i) = h.bytes (b.start + i)
  freed : r.1 ≠ 0 → r.2.freed = b.start :: h.freed ∧ ∀ b' ∈ r.2.live, b'.start ≠ b.start
  intact : r.1 = 0 → r.2 = h

theorem realloc_cases (hk : k.Works) (hstart : b.start ≠ 0) (hsize : size ≠ 0) (h : Heap) :
    realloc k b.start size h = (0, h) ∨ ∃ b' h₁, Gives size b' h h₁ ∧
      realloc k b.start size h =
        (b'.start, k.kfree b.start (memcpy b'.start b.start size.toNat h₁)) := by
  obtain hnull | ⟨b', hstart', hgives⟩ := hk.kmalloc size h
  · refine Or.inl ?_
    rw [realloc, if_neg hstart, if_neg hsize, hnull]
    rfl
  · refine Or.inr ⟨b', _, hgives, ?_⟩
    rw [realloc, if_neg hstart, if_neg hsize]
    simp only [hstart', ne_eq, hgives.nonnull, not_false_eq_true, if_true]

theorem realloc_reallocated (hk : k.Works) (hb : b ∈ h.live) (hstart : b.start ≠ 0)
    (hsize : size ≠ 0) : Reallocated b size h (realloc k b.start size h) := by
  obtain hnull | ⟨b', h₁, hgives, hcall⟩ := realloc_cases hk hstart hsize h
  · rw [hnull]
    exact {
      reads := fun x => (or_iff_left fun hread => hread.1 rfl).symm
      within := fun _ x hx => Or.inl hx
      block := fun hp => absurd rfl hp
      begins := fun hp => absurd rfl hp
      freed := fun hp => absurd rfl hp
      intact := fun _ => rfl }
  rw [hcall]
  have htakes := hk.kfree b.start (memcpy b'.start b.start size.toNat h₁)
  obtain ⟨hlive, hfreed⟩ := memcpy_live b'.start b.start size.toNat h₁
  obtain ⟨hnew, hapart⟩ := hgives.apart b hb
  have hreads : ∀ x, x ∈ (k.kfree b.start (memcpy b'.start b.start size.toNat h₁)).reads ↔
      x ∈ h.reads ∨ (b'.start ≠ 0 ∧ b.start ≤ x ∧ x < b.start + size.toNat) := by
    intro x
    rw [htakes.reads, mem_memcpy_reads, hgives.reads, and_iff_right hgives.nonnull]
  have hmem : b' ∈ (k.kfree b.start (memcpy b'.start b.start size.toNat h₁)).live := by
    rw [htakes.live, hlive, hgives.live]
    exact List.mem_filter.mpr ⟨List.mem_cons_self, decide_eq_true (Ne.symm hnew)⟩
  have hroom := hgives.enough
  refine ⟨hreads, fun hle x hx => ?_, fun _ => ⟨b', hmem, rfl, hroom⟩, fun _ i hi => ?_, fun _ => ?_,
    fun hp => absurd hp hgives.nonnull⟩
  · obtain hold | ⟨-, hlo, hhi⟩ := (hreads x).mp hx
    · exact Or.inl hold
    · exact Or.inr ⟨hlo, by omega⟩
  · -- the new block does not begin inside of the old one
    have hoverlap : ¬ (b.start ≤ b'.start ∧ b'.start < b.start + b.size) := fun hin =>
      hapart b'.start ⟨Nat.le_refl _, by omega⟩ hin
    calc (k.kfree b.start (memcpy b'.start b.start size.toNat h₁)).bytes (b'.start + i)
        = (memcpy b'.start b.start size.toNat h₁).bytes (b'.start + i) :=
          htakes.kept b' hmem _ ⟨Nat.le_add_right _ _, by omega⟩
      _ = h₁.bytes (b.start + i) := by
          rw [memcpy_bytes _ _ _ _ []]
          exact copyUp_inside _ _ _ (by omega) (by omega)
      _ = h.bytes (b.start + i) := hgives.kept b hb _ ⟨Nat.le_add_right _ _, by omega⟩
  · refine ⟨?_, fun other hother => ?_⟩
    · rw [htakes.freed, hfreed, hgives.freed]
    · rw [htakes.live] at hother
      exact of_decide_eq_true (List.mem_filter.mp hother).2

end

/-! ## A kernel heap -/

/-- The first address behind every block, and above where it starts. -/
def frontier (live : List Block) : Nat := live.foldr (fun b top => max (b.start + b.size + 1) top) 1

/-- A heap that hands out what is behind the blocks in use. -/
def frontierKernel : Kernel where
  kmalloc size h :=
    if frontier h.live + size.toNat ≤ 2^64 then
      (frontier h.live, { h with live := ⟨frontier h.live, size.toNat⟩ :: h.live })
    else (0, h)
  kfree p h := { h with live := h.live.filter fun b => b.start ≠ p, freed := p :: h.freed }

theorem frontier_pos (live : List Block) : 0 < frontier live := by
  induction live with
  | nil => exact Nat.one_pos
  | cons b live ih => exact Nat.lt_of_lt_of_le ih (Nat.le_max_right _ _)

theorem lt_frontier {live : List Block} {b : Block} (hb : b ∈ live) :
    b.start + b.size < frontier live := by
  induction live with
  | nil => exact absurd hb List.not_mem_nil
  | cons b' live ih =>
    obtain rfl | hb := List.mem_cons.mp hb
    · exact Nat.le_max_left _ _
    · exact Nat.lt_of_lt_of_le (ih hb) (Nat.le_max_right _ _)

theorem frontierKernel_works : frontierKernel.Works where
  kmalloc size h := by
    rw [frontierKernel]
    dsimp only
    split
    · next hfits =>
      refine Or.inr ⟨⟨frontier h.live, size.toNat⟩, rfl, ?_⟩
      exact {
        nonnull := Nat.ne_of_gt (frontier_pos h.live)
        enough := Nat.le_refl _
        fits := hfits
        apart := fun b hb => by
          have hlt := lt_frontier hb
          refine ⟨fun heq => ?_, fun x hx hin => ?_⟩
          · dsimp only at heq
            omega
          · have hlo := hx.1
            have hhi := hin.2
            dsimp only at hlo
            omega
        live := rfl
        freed := rfl
        reads := rfl
        kept := fun _ _ _ _ => rfl }
    · exact Or.inl rfl
  kfree p h := ⟨rfl, rfl, rfl, fun _ _ _ _ => rfl⟩

/-- Over any kernel heap: `calloc` returns a block with room for all the elements, all zero, if
their size fits a `size_t`; `realloc` copies the number of bytes it is asked for, so that the
new block begins as the old one did, frees the old one once, and leaves all as it was when
there is no new one. -/
theorem calloc_realloc {k : Kernel} (hk : k.Works) (h : Heap) :
    (∀ nmemb size : U64, nmemb.toNat * size.toNat < 2^64 → (calloc k nmemb size h).1 ≠ 0 →
      Zeroed (nmemb.toNat * size.toNat) (calloc k nmemb size h)) ∧
    ∀ b ∈ h.live, b.start ≠ 0 → ∀ size : U64, size ≠ 0 →
      Reallocated b size h (realloc k b.start size h) :=
  ⟨fun _ _ hlt hp => (calloc_zeroed_iff hk hp).mpr hlt,
    fun _ hb hstart _ hsize => realloc_reallocated hk hb hstart hsize⟩

/-- A block of four bytes made smaller, on a heap full of other bytes than zero. -/
theorem calloc_realloc_shrinks :
    let h : Heap := ⟨fun _ => 7, [], [⟨8, 4⟩], []⟩
    Zeroed 6 (calloc frontierKernel 2 3 h) ∧
      Reallocated ⟨8, 4⟩ 2 h (realloc frontierKernel 8 2 h) := by
  intro h
  obtain ⟨hcalloc, hrealloc⟩ := calloc_realloc frontierKernel_works h
  exact ⟨hcalloc 2 3 (by decide) (by decide),
    hrealloc ⟨8, 4⟩ List.mem_cons_self (by decide) 2 (by decide)⟩

/-- A block of one byte made larger: the byte behind it is read. -/
theorem realloc_reads_behind :
    ¬ ∀ (k : Kernel), k.Works → ∀ (h : Heap), ∀ b ∈ h.live, b.start ≠ 0 →
      ∀ size : U64, size ≠ 0 → ∀ x ∈ (realloc k b.start size h).2.reads, x ∈ h.reads ∨ b.Has x := by
  intro hwithin
  have hreads := hwithin frontierKernel frontierKernel_works ⟨fun _ => 7, [], [⟨8, 1⟩], []⟩ ⟨8, 1⟩
    List.mem_cons_self (by decide) 2 (by decide) 9 (by decide)
  obtain hold | hin := hreads
  · exact absurd hold List.not_mem_nil
  · exact absurd hin.2 (by decide)

end JarJar.Alloc
