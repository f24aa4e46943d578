import JarJar.JarfsStale

/- How far the reads of one file go. `jarfs_read` shortens the count to what is left of
   the file when position and count together are past its size, and that sum is taken
   modulo 2^64: a count that makes it wrap is not shortened at all.

   Correspondence (C ↔ Lean):
     one call of `jarfs_read`                   ↔ `ReadCall`
     the file after the call                    ↔ `ReadCall.next`
     the counts of the calls that have a buffer ↔ `ReadCall.asked`

   What is proved (`jarfs_clamp_iff`): the reads of a file of at most one block, from its
   start on, all stay inside the file and the temporary block exactly when none of them
   makes the sum wrap. -/
namespace JarJar.Jarfs

/-- A call of `jarfs_read`, with what lies behind the temporary block it is given. -/
structure ReadCall where
  buf : U64
  count : U64
  heap : Nat → U8

namespace ReadCall

def read (disk : Disk) (file : OpenFile) (call : ReadCall) : ReadResult × OpenFile :=
  jarfsRead disk call.heap file call.buf call.count

def next (disk : Disk) (file : OpenFile) (call : ReadCall) : OpenFile := (call.read disk file).2

/-- The bytes a call asks for: none without a buffer. -/
def asked (call : ReadCall) : Nat := if call.buf = 0 then 0 else call.count.toNat

end ReadCall

/-- The call copies what is asked for as far as the file goes, from inside the temporary
block, and leaves the position in the file. -/
def OpenFile.Clamped (disk : Disk) (file : OpenFile) (call : ReadCall) : Prop :=
  (call.read disk file).1.stored.length = file.available call.asked ∧
    (∀ i ∈ (call.read disk file).1.touched, i < 4096) ∧
    (call.read disk file).2.position.toNat ≤ file.inode.size.toNat

/-- The position after a call, in a file of `size` bytes. -/
def advance (size : Nat) (position : Nat) (call : ReadCall) : Nat := min size (position + call.asked)

/-- The sum that `jarfs_read` compares with the size does not wrap. -/
def SumFits (position : Nat) (call : ReadCall) : Prop :=
  call.buf = 0 ∨ position + call.count.toNat < 2^64

/-- What the calls ask for together. -/
def totalAsked (calls : List ReadCall) : Nat := (calls.map ReadCall.asked).sum

/-! ## One call -/

section
variable {disk : Disk} {file : OpenFile} {call : ReadCall}

theorem read_without_buffer (hbuf : call.buf = 0) : call.read disk file = (⟨-1, [], []⟩, file) := by
  rw [ReadCall.read, jarfsRead, if_pos hbuf]

theorem asked_of_buffer (hbuf : call.buf ≠ 0) : call.asked = call.count.toNat := by
  rw [ReadCall.asked, if_neg hbuf]

theorem asked_without_buffer (hbuf : call.buf = 0) : call.asked = 0 := by
  rw [ReadCall.asked, if_pos hbuf]

theorem clamped_iff (hsize : file.inode.size.toNat ≤ 4096)
    (hpos : file.position.toNat ≤ file.inode.size.toNat) :
    file.Clamped disk call ↔ SumFits file.position.toNat call := by
  by_cases hbuf : call.buf = 0
  · rw [OpenFile.Clamped, read_without_buffer hbuf, asked_without_buffer hbuf]
    simp [SumFits, OpenFile.available, hbuf, hpos]
  · rw [SumFits, or_iff_right hbuf, OpenFile.Clamped, ReadCall.read, asked_of_buffer hbuf]
    have hle := available_le hpos call.count.toNat
    by_cases hfits : file.position.toNat + call.count.toNat < 2^64
    · rw [jarfsRead_eq hpos hbuf hfits]
      refine ⟨fun _ => hfits, fun _ => ⟨by simp, ?_, ?_⟩⟩
      · intro i hi
        simp only [List.mem_map, List.mem_range] at hi
        obtain ⟨k, hk, rfl⟩ := hi
        have hmod := Nat.mod_le file.position.toNat 4096
        omega
      · show (file.position + BitVec.ofNat 64 (file.available call.count.toNat)).toNat ≤ _
        rw [BitVec.toNat_add, BitVec.toNat_ofNat]
        omega
    · refine ⟨fun h => ?_, fun h => absurd h hfits⟩
      have hcopied := h.1
      rw [jarfsRead_wraps hpos hbuf (by omega), List.length_map, List.length_range] at hcopied
      omega

theorem next_of_fits (disk : Disk) (hpos : file.position.toNat ≤ file.inode.size.toNat)
    (hfits : SumFits file.position.toNat call) :
    (call.next disk file).inode = file.inode ∧ (call.next disk file).position.toNat =
      advance file.inode.size.toNat file.position.toNat call := by
  by_cases hbuf : call.buf = 0
  · rw [ReadCall.next, read_without_buffer hbuf, advance, asked_without_buffer hbuf]
    simp [hpos]
  · have hle := available_le hpos call.count.toNat
    have hlt := file.inode.size.isLt
    rw [ReadCall.next, ReadCall.read, jarfsRead_eq hpos hbuf (hfits.resolve_left hbuf), advance,
      asked_of_buffer hbuf]
    refine ⟨rfl, ?_⟩
    show (file.position + BitVec.ofNat 64 (file.available call.count.toNat)).toNat = _
    rw [BitVec.toNat_add, BitVec.toNat_ofNat]
    unfold OpenFile.available at hle ⊢
    omega

end

/-! ## All the calls -/

/-- The calls are clamped as long as the sums fit at the positions they should be at. -/
theorem each_clamped_iff (disk : Disk) (file : OpenFile) (calls : List ReadCall)
    (hsize : file.inode.size.toNat ≤ 4096) (hpos : file.position.toNat ≤ file.inode.size.toNat) :
    Runs.Each (ReadCall.next disk) (OpenFile.Clamped disk) file calls ↔
      Runs.Each (advance file.inode.size.toNat) SumFits file.position.toNat calls := by
  induction calls generalizing file with
  | nil => rfl
  | cons call calls ih =>
    rw [Runs.Each, Runs.Each, clamped_iff hsize hpos]
    apply and_congr_right
    intro hfits
    obtain ⟨hinode, hposition⟩ := next_of_fits disk hpos hfits
    have hrest := ih (call.next disk file) (by rw [hinode]; exact hsize)
      (by rw [hinode, hposition]; exact Nat.min_le_left _ _)
    rw [hrest, hinode, hposition]

theorem run_advance {size position : Nat} (hpos : position ≤ size) (calls : List ReadCall) :
    Runs.run (advance size) position calls = min size (position + totalAsked calls) := by
  induction calls generalizing position with
  | nil => simp [Runs.run, totalAsked, hpos]
  | cons call calls ih =>
    calc Runs.run (advance size) position (call :: calls)
        = Runs.run (advance size) (advance size position call) calls := rfl
      _ = min size (advance size position call + totalAsked calls) := ih (Nat.min_le_left _ _)
      _ = min size (position + totalAsked (call :: calls)) := by
          simp only [advance, totalAsked, List.map_cons, List.sum_cons]
          omega

/-- **When the reads of a one-block file stay inside it.** From the start of the file, every
call copies what it asks for as far as the file goes, from inside the temporary block, and
leaves the position in the file, exactly when no call asks for so much that its count and
the bytes before it add up to 2^64. -/
theorem jarfs_clamp_iff (disk : Disk) (file : OpenFile) (calls : List ReadCall)
    (hsize : file.inode.size.toNat ≤ 4096) (hstart : file.position = 0) :
    Runs.Each (ReadCall.next disk) (OpenFile.Clamped disk) file calls ↔
      ∀ before call after, calls = before ++ call :: after → call.buf ≠ 0 →
        min file.inode.size.toNat (totalAsked before) + call.count.toNat < 2^64 := by
  have hzero : file.position.toNat = 0 := by simp [hstart]
  rw [each_clamped_iff disk file calls hsize (by omega), Runs.each_iff, hzero]
  simp only [run_advance (Nat.zero_le _), SumFits, Nat.zero_add, or_iff_not_imp_left, ne_eq]

/-- A file of one full block, at its start. -/
def oneBlockFile : OpenFile := ⟨⟨4096, fun _ => 5⟩, 0⟩

/-- A read with a buffer and nothing behind the temporary block. -/
def readCall (count : U64) : ReadCall := ⟨0x1000, count, fun _ => 0⟩

/-- Reading the block in two halves, and asking for everything after one byte. -/
theorem jarfs_clamp_iff_halves :
    Runs.Each (ReadCall.next fun _ => 0) (OpenFile.Clamped fun _ => 0) oneBlockFile
        [readCall 2048, readCall 2048] ∧
      ¬ Runs.Each (ReadCall.next fun _ => 0) (OpenFile.Clamped fun _ => 0) oneBlockFile
        [readCall 1, readCall 0xFFFFFFFFFFFFFFFF] := by
  constructor
  · refine (jarfs_clamp_iff (fun _ => 0) oneBlockFile _ (by decide) rfl).mpr
      fun before call after hcalls _ => ?_
    have hcall : call ∈ [readCall 2048, readCall 2048] := by
      rw [hcalls]
      exact List.mem_append_right _ List.mem_cons_self
    have hcount : call.count.toNat = 2048 := by
      obtain rfl : call = readCall 2048 := by simpa using hcall
      rfl
    have hsize : oneBlockFile.inode.size.toNat = 4096 := rfl
    omega
  · intro hclamped
    exact absurd ((jarfs_clamp_iff (fun _ => 0) oneBlockFile _ (by decide) rfl).mp hclamped
      [readCall 1] _ [] rfl (by decide)) (by decide)

/-- After one byte, a count of 2^64 - 1 makes the sum 0, and all of it is copied. -/
theorem jarfs_clamp_wraps :
    ¬ Runs.Each (ReadCall.next fun _ => 0) (OpenFile.Clamped fun _ => 0) oneBlockFile
      [readCall 1, readCall 0xFFFFFFFFFFFFFFFF] := by
  rw [each_clamped_iff (fun _ => 0) oneBlockFile _ (by decide) (by decide)]
  simp [Runs.Each, SumFits, advance, ReadCall.asked, readCall, oneBlockFile]

end JarJar.Jarfs
