import JarJar.Allocation
import JarJar.StringCopies

/- Which bytes of a buffer `strnlen` and the functions that measure with it read. The loop looks
   at the next byte before it counts down, so that a buffer without a NUL is left by one byte.

   Correspondence (C ↔ Lean):
     `strndup`      ↔ `strndup`, over any kernel heap
   `strnlen` and `strlcat` are those of the bounded copies. -/
namespace JarJar.Libc

/-- One of the `n` bytes at `s` is a NUL. -/
def HasNul (bytes : Nat → U8) (s n : Nat) : Prop := ∃ i < n, bytes (s + i) = 0

/-- No other addresses are among `touched` than those of the `n` bytes at `s`. -/
def Within (s n : Nat) (touched : List Nat) : Prop := ∀ x ∈ touched, s ≤ x ∧ x < s + n

section
variable {bytes : Nat → U8} {s n r : Nat}

theorem FirstNul.lt_iff (h : FirstNul bytes s n r) : r < n ↔ HasNul bytes s n := by
  constructor
  · intro hlt
    exact ⟨r, hlt, h.stops.resolve_left (Nat.ne_of_lt hlt)⟩
  · rintro ⟨i, hi, hnul⟩
    apply Nat.lt_of_not_le
    intro hle
    exact h.before i (by omega) hnul

theorem strnlen_stops (s n : Nat) (m : Memory) :
    FirstNul m.bytes s n (strnlen s n m).1 ∧ (strnlen s n m).2.bytes = m.bytes ∧
      ∀ x, x ∈ (strnlen s n m).2.touched ↔
        x ∈ m.touched ∨ (s ≤ x ∧ x ≤ s + (strnlen s n m).1) := by
  obtain ⟨r, hr, hend, hbytes, htouched⟩ := strnlenLoop_stops s n m
  have hlen : (strnlen s n m).1 = r := by
    show (strnlenLoop s n m).1 - s = r
    rw [hend, Nat.add_sub_cancel_left]
  rw [hlen]
  exact ⟨hr, hbytes, htouched⟩

/-- Of a buffer without a NUL the byte behind it is read, of another one nothing outside of it. -/
theorem strnlen_within_iff (bytes : Nat → U8) (s n : Nat) :
    Within s n (strnlen s n ⟨bytes, []⟩).2.touched ↔ HasNul bytes s n := by
  obtain ⟨hfirst, -, htouched⟩ := strnlen_stops s n ⟨bytes, []⟩
  rw [← hfirst.lt_iff]
  constructor
  · intro hwithin
    have hlast := hwithin _ ((htouched _).mpr (Or.inr ⟨Nat.le_add_right s _, Nat.le_refl _⟩))
    omega
  · intro hlt x hx
    have hin := ((htouched x).mp hx).resolve_left List.not_mem_nil
    omega

theorem strlcat_within_iff (bytes : Nat → U8) (dst : Nat) (src : CStr) (size : Nat) :
    Within dst size (strlcat dst src size ⟨bytes, []⟩).2.touched ↔ HasNul bytes dst size := by
  obtain ⟨hfirst, -, htouched⟩ := strnlen_stops dst size ⟨bytes, []⟩
  rw [strlcat]
  by_cases hlen : (strnlen dst size ⟨bytes, []⟩).1 = size
  · simp only [hlen, if_true]
    exact strnlen_within_iff bytes dst size
  · have hlt : (strnlen dst size ⟨bytes, []⟩).1 < size := Nat.lt_of_le_of_ne hfirst.le hlen
    simp only [hlen, if_false]
    refine iff_of_true (fun x hx => ?_) (hfirst.lt_iff.mp hlt)
    have hcopy := strlcpy_appends (dst + (strnlen dst size ⟨bytes, []⟩).1) src
      (strnlen dst size ⟨bytes, []⟩).2 (Nat.sub_pos_of_lt hlt)
    obtain hold | hin := hcopy.touches.touched x hx
    · have hread := ((htouched x).mp hold).resolve_left List.not_mem_nil
      omega
    · omega

end

end JarJar.Libc

namespace JarJar.Alloc
open Libc

/-- `strnlen` only reads. -/
def strndup (k : Kernel) (s n : Nat) (h : Heap) : Nat × Heap :=
  let (len, m) := strnlen s n ⟨h.bytes, h.reads⟩
  let (dup, h) := k.kmalloc (BitVec.ofNat 64 (len + 1)) { h with reads := m.touched }
  if dup ≠ 0 then (dup, (memcpy dup s len h).store (dup + len) 0) else (dup, h)

theorem strndup_reads {k : Kernel} (hk : k.Works) (s n : Nat) (h : Heap) (x : Nat) :
    x ∈ (strndup k s n h).2.reads ↔ x ∈ (strnlen s n ⟨h.bytes, h.reads⟩).2.touched := by
  obtain ⟨-, -, htouched⟩ := strnlen_stops s n ⟨h.bytes, h.reads⟩
  have hreads : ∀ (size : U64) (h : Heap), (k.kmalloc size h).2.reads = h.reads := fun size h => by
    obtain hnull | ⟨b, -, hgives⟩ := hk.kmalloc size h
    · rw [hnull]
    · exact hgives.reads
  rw [strndup]
  dsimp only
  split
  · show x ∈ (memcpy _ s _ _).reads ↔ _
    rw [mem_memcpy_reads, hreads, htouched]
    dsimp only
    rw [or_assoc]
    exact or_congr_right (by omega)
  · rw [hreads]

/-- `strnlen` always returns the index of the first NUL or its bound. It keeps to the buffer
exactly if there is a NUL in it, and so do `strndup` and `strlcat`, which measure with it. -/
theorem strnlen_strndup_strlcat_within_iff {k : Kernel} (hk : k.Works) (bytes : Nat → U8) (s n : Nat)
    (src : CStr) (live : List Block) (freed : List Nat) :
    FirstNul bytes s n (strnlen s n ⟨bytes, []⟩).1 ∧
      (Within s n (strnlen s n ⟨bytes, []⟩).2.touched ↔ HasNul bytes s n) ∧
      (Within s n (strndup k s n ⟨bytes, [], live, freed⟩).2.reads ↔ HasNul bytes s n) ∧
      (Within s n (strlcat s src n ⟨bytes, []⟩).2.touched ↔ HasNul bytes s n) := by
  refine ⟨(strnlen_stops s n ⟨bytes, []⟩).1, strnlen_within_iff bytes s n, ?_,
    strlcat_within_iff bytes s src n⟩
  rw [← strnlen_within_iff bytes s n]
  exact forall_congr' fun x => imp_congr_left (strndup_reads hk s n _ x)

/-- Two bytes with a NUL behind the first. -/
theorem strnlen_strndup_strlcat_within_two :
    let bytes : Nat → U8 := fun x => if x = 5 then 97 else 0
    (strnlen 5 2 ⟨bytes, []⟩).1 = 1 ∧
      Within 5 2 (strndup frontierKernel 5 2 ⟨bytes, [], [], []⟩).2.reads ∧
      Within 5 2 (strlcat 5 ⟨[98], by decide⟩ 2 ⟨bytes, []⟩).2.touched := by
  intro bytes
  obtain ⟨-, -, hdup, hcat⟩ := strnlen_strndup_strlcat_within_iff frontierKernel_works bytes 5 2
    ⟨[98], by decide⟩ [] []
  have hnul : HasNul bytes 5 2 := ⟨1, by decide, by decide⟩
  exact ⟨by decide, hdup.mpr hnul, hcat.mpr hnul⟩

/-- `strnlen` of the two bytes `"ab"` with the bound 2 reads the third. -/
theorem strnlen_reads_behind :
    ¬ ∀ (bytes : Nat → U8) (s n : Nat), Within s n (strnlen s n ⟨bytes, []⟩).2.touched := by
  intro h
  have hwithin := h (fun x => ("ab".toList.map ch).getD x 0) 0 2 2 (by decide)
  exact absurd hwithin.2 (by decide)

end JarJar.Alloc
