import JarJar.Types
import JarJar.Lib.Runs
import JarJar.Jarfs
import Mathlib.Algebra.GroupWithZero.Nat

/- Reading a file. `jarfs_read` reads the first block of the file into a temporary
   block and copies from there, starting at the position modulo the block size. It
   does this whatever block the position is in, and copies past the end of the
   temporary block when the read crosses the end of a block.

   Correspondence (C ↔ Lean):
     `jarfs_inode_t`, `jarfs_file_t`     ↔ `Inode`, `OpenFile`
     the bytes of the device             ↔ `disk`
     what lies behind the block `temp`   ↔ `heap`, by its distance from the start
     `jarfs_read`                        ↔ `jarfsRead`
   The file is not NULL, `kmalloc` succeeds and `device->read` delivers the block.
   Fields of the inode that are not looked at are left out. -/
namespace JarJar.Jarfs

structure Inode where
  size : U32
  block : Fin 12 → U32

/-- `inode.block[0]`. -/
def Inode.firstBlock (inode : Inode) : U32 := inode.block 0

structure OpenFile where
  inode : Inode
  position : U64

/-- What `jarfs_read` returns, the bytes it stores in `buf`, and the places of `temp` it
copies them from. -/
structure ReadResult where
  ret : Int
  stored : List U8
  touched : List Nat

/-- Byte `i` of the block with the given number, on the device. -/
def blockByte (disk : U64 → U8) (block : U32) (i : Nat) : U8 :=
  disk (block.setWidth 64 * jarfsBlockSize + BitVec.ofNat 64 i)

def jarfsRead (disk : U64 → U8) (heap : Nat → U8) (file : OpenFile) (buf count : U64) :
    ReadResult × OpenFile :=
  if buf = 0 then (⟨-1, [], []⟩, file)
  else
    let size : U64 := file.inode.size.setWidth 64
    let count := if file.position + count > size then size - file.position else count
    if count = 0 then (⟨0, [], []⟩, file)
    else
      let temp i := if i < 4096 then blockByte disk (file.inode.block 0) i else heap i
      let touched := (List.range count.toNat).map ((file.position % jarfsBlockSize).toNat + ·)
      (⟨count.toInt, touched.map temp, touched⟩, { file with position := file.position + count })

/-! ## What a read should do -/

namespace OpenFile

/-- Byte `k` of the concatenation of the blocks. -/
def content (disk : U64 → U8) (file : OpenFile) (k : Nat) : U8 :=
  if h : k / 4096 < 12 then blockByte disk (file.inode.block ⟨k / 4096, h⟩) (k % 4096) else 0

/-- The number of bytes there are to read. -/
def available (file : OpenFile) (count : Nat) : Nat :=
  min count (file.inode.size.toNat - file.position.toNat)

/-- `n` bytes of the file from byte `p` on. -/
def bytes (disk : U64 → U8) (file : OpenFile) (p n : Nat) : List U8 :=
  (List.range n).map fun i => file.content disk (p + i)

/-- The position is in the file, and the file has no more than its twelve blocks. -/
def Valid (file : OpenFile) : Prop :=
  file.inode.size.toNat ≤ 12 * 4096 ∧ file.position.toNat ≤ file.inode.size.toNat

/-- The read delivers the bytes of the file at its position and goes on behind them. -/
def ReadsRight (disk : U64 → U8) (heap : Nat → U8) (buf : U64) (file : OpenFile) (count : U64) :
    Prop :=
  let read := jarfsRead disk heap file buf count
  let n := file.available count.toNat
  read.1.ret = n ∧ read.1.stored = file.bytes disk file.position.toNat n ∧
    (∀ i ∈ read.1.touched, i < 4096) ∧
    read.2.inode = file.inode ∧ read.2.position.toNat = file.position.toNat + n

/-- The read stays in one block, and what it asks for is in the first block too. -/
def FirstBlockServes (disk : U64 → U8) (file : OpenFile) (count : U64) : Prop :=
  let n := file.available count.toNat
  let start := file.position.toNat % 4096
  n = 0 ∨ start + n ≤ 4096 ∧ ∀ i < n,
    file.content disk (file.position.toNat + i) = blockByte disk (file.inode.block 0) (start + i)

end OpenFile

/-! ## What a read does -/

section
variable {disk : U64 → U8} {heap : Nat → U8} {file : OpenFile} {buf count : U64}

theorem clipped_toNat (hpos : file.position.toNat ≤ file.inode.size.toNat)
    (hcount : file.position.toNat + count.toNat < 2^64) :
    (if file.position + count > file.inode.size.setWidth 64 then
      file.inode.size.setWidth 64 - file.position else count).toNat =
      file.available count.toNat := by
  have hwide : (file.inode.size.setWidth 64).toNat = file.inode.size.toNat := by
    rw [BitVec.toNat_setWidth, Nat.mod_eq_of_lt (by omega)]
  have hsum : (file.position + count).toNat = file.position.toNat + count.toNat := by
    rw [BitVec.toNat_add, Nat.mod_eq_of_lt hcount]
  rw [OpenFile.available]
  by_cases hpast : file.position + count > file.inode.size.setWidth 64
  · have hlt : file.inode.size.toNat < file.position.toNat + count.toNat := by
      rw [← hwide, ← hsum]
      exact hpast
    rw [if_pos hpast, BitVec.toNat_sub_of_le (by show _ ≤ _; rw [BitVec.le_def, hwide]; exact hpos),
      hwide, min_eq_right (by omega)]
  · have hle : ¬ file.inode.size.toNat < file.position.toNat + count.toNat := by
      rw [← hwide, ← hsum]
      exact hpast
    rw [if_neg hpast, min_eq_left (by omega)]

/-- Byte `i` of the temporary block, and of what lies behind it. -/
def tempByte (disk : U64 → U8) (heap : Nat → U8) (file : OpenFile) (i : Nat) : U8 :=
  if i < 4096 then blockByte disk (file.inode.block 0) i else heap i

theorem available_le (hpos : file.position.toNat ≤ file.inode.size.toNat) (count : Nat) :
    file.position.toNat + file.available count ≤ file.inode.size.toNat := by
  rw [OpenFile.available]
  omega

theorem jarfsRead_none (hpos : file.position.toNat ≤ file.inode.size.toNat) (hbuf : buf ≠ 0)
    (hcount : file.position.toNat + count.toNat < 2^64) (hn : file.available count.toNat = 0) :
    jarfsRead disk heap file buf count = (⟨0, [], []⟩, file) := by
  have hclip := clipped_toNat hpos hcount
  rw [jarfsRead, if_neg hbuf]
  dsimp only
  rw [if_pos]
  exact BitVec.eq_of_toNat_eq (hclip.trans hn)

theorem jarfsRead_some (hpos : file.position.toNat ≤ file.inode.size.toNat) (hbuf : buf ≠ 0)
    (hcount : file.position.toNat + count.toNat < 2^64) (hn : file.available count.toNat ≠ 0) :
    jarfsRead disk heap file buf count =
      (⟨file.available count.toNat,
        (List.range (file.available count.toNat)).map fun i =>
          tempByte disk heap file (file.position.toNat % 4096 + i),
        (List.range (file.available count.toNat)).map (file.position.toNat % 4096 + ·)⟩,
       { file with position := file.position + BitVec.ofNat 64 (file.available count.toNat) }) := by
  have hclip := clipped_toNat hpos hcount
  have hle := available_le hpos count.toNat
  rw [jarfsRead, if_neg hbuf]
  dsimp only
  generalize (if file.position + count > file.inode.size.setWidth 64 then
    file.inode.size.setWidth 64 - file.position else count) = clipped at hclip ⊢
  have hpositive : clipped ≠ 0 := by
    intro hzero
    rw [hzero] at hclip
    exact hn hclip.symm
  have hret : clipped.toInt = (file.available count.toNat : Int) := by
    rw [BitVec.toInt_eq_toNat_of_lt (by omega), hclip]
  have hstart : (file.position % jarfsBlockSize).toNat = file.position.toNat % 4096 :=
    BitVec.toNat_umod
  have hword : clipped = BitVec.ofNat 64 (file.available count.toNat) := by
    rw [← hclip, BitVec.ofNat_toNat, BitVec.setWidth_eq]
  rw [if_neg hpositive, hret, hstart, hclip, ← hword, List.map_map]
  rfl

/-! ## When it does what it should -/

theorem map_range_eq_iff {n : Nat} {f g : Nat → U8} :
    (List.range n).map f = (List.range n).map g ↔ ∀ i < n, f i = g i := by
  rw [List.map_inj_left]
  exact ⟨fun h i hi => h i (List.mem_range.mpr hi), fun h i hi => h i (List.mem_range.mp hi)⟩

/-- What is copied is right exactly when the first block has it. -/
theorem readsRight_iff (hvalid : file.Valid) (hbuf : buf ≠ 0)
    (hcount : file.position.toNat + count.toNat < 2^64) :
    file.ReadsRight disk heap buf count ↔ file.FirstBlockServes disk count := by
  by_cases hn : file.available count.toNat = 0
  · refine ⟨fun _ => Or.inl hn, fun _ => ?_⟩
    rw [OpenFile.ReadsRight, jarfsRead_none hvalid.2 hbuf hcount hn]
    dsimp only
    rw [hn]
    exact ⟨rfl, rfl, fun i hi => absurd hi List.not_mem_nil, rfl, rfl⟩
  · have hle := available_le hvalid.2 count.toNat
    have hlt := file.inode.size.isLt
    rw [OpenFile.ReadsRight, jarfsRead_some hvalid.2 hbuf hcount hn, OpenFile.FirstBlockServes]
    dsimp only
    rw [OpenFile.bytes, map_range_eq_iff, or_iff_right hn]
    have htouched : (∀ i ∈ (List.range (file.available count.toNat)).map
        (file.position.toNat % 4096 + ·), i < 4096) ↔
        file.position.toNat % 4096 + file.available count.toNat ≤ 4096 := by
      simp only [List.mem_map, List.mem_range, forall_exists_index, and_imp,
        forall_apply_eq_imp_iff₂]
      refine ⟨fun h => ?_, fun h i hi => by omega⟩
      have hlast := h (file.available count.toNat - 1) (by omega)
      omega
    rw [htouched]
    refine ⟨fun ⟨_, hbytes, hinside, _⟩ => ⟨hinside, fun i hi => ?_⟩,
      fun ⟨hinside, hbytes⟩ => ⟨rfl, fun i hi => ?_, hinside, rfl, ?_⟩⟩
    · rw [← hbytes i hi, tempByte, if_pos (by omega)]
    · rw [hbytes i hi, tempByte, if_pos (by omega)]
    · rw [BitVec.toNat_add, BitVec.toNat_ofNat, Nat.mod_eq_of_lt (by omega),
        Nat.mod_eq_of_lt (by omega)]

/-! ## Consecutive reads -/

/-- One read after the other: all the bytes that are stored, and the file afterwards. -/
def jarfsReads (disk : U64 → U8) (heap : Nat → U8) (buf : U64) :
    OpenFile → List U64 → List U8 × OpenFile
  | file, [] => ([], file)
  | file, count :: counts =>
    let read := jarfsRead disk heap file buf count
    let rest := jarfsReads disk heap buf read.2 counts
    (read.1.stored ++ rest.1, rest.2)

/-- The counts together. -/
def totalCount (counts : List U64) : Nat := (counts.map BitVec.toNat).sum

theorem bytes_append (p m n : Nat) :
    file.bytes disk p (m + n) = file.bytes disk p m ++ file.bytes disk (p + m) n := by
  rw [OpenFile.bytes, OpenFile.bytes, OpenFile.bytes, List.range_add, List.map_append, List.map_map]
  congr 2
  funext i
  rw [Function.comp, Nat.add_assoc]

theorem OpenFile.ReadsRight.valid (h : file.ReadsRight disk heap buf count) (hvalid : file.Valid) :
    (jarfsRead disk heap file buf count).2.Valid := by
  obtain ⟨-, -, -, hinode, hposition⟩ := h
  rw [OpenFile.Valid, hinode, hposition]
  exact ⟨hvalid.1, available_le hvalid.2 count.toNat⟩

/-- Reads that are right one by one are right together: they store the bytes that one
read of all the counts together should store, and go on behind them. -/
theorem jarfsReads_right {counts : List U64} (hvalid : file.Valid)
    (hright : Runs.Each (fun f c => (jarfsRead disk heap f buf c).2)
      (OpenFile.ReadsRight disk heap buf) file counts) :
    (jarfsReads disk heap buf file counts).1 =
        file.bytes disk file.position.toNat (file.available (totalCount counts)) ∧
      (jarfsReads disk heap buf file counts).2.inode = file.inode ∧
      (jarfsReads disk heap buf file counts).2.position.toNat =
        file.position.toNat + file.available (totalCount counts) := by
  induction counts generalizing file with
  | nil =>
    have hnone : file.available (totalCount []) = 0 := Nat.zero_min _
    rw [hnone]
    exact ⟨rfl, rfl, rfl⟩
  | cons count counts ih =>
    obtain ⟨hhead, htail⟩ := hright
    obtain ⟨hstored, hinode, hposition⟩ := ih (hhead.valid hvalid) htail
    obtain ⟨-, hfirst, -, hinode', hposition'⟩ := hhead
    have hpos := hvalid.2
    -- what is left for the rest, seen from the file before the first read
    have hrest : (jarfsRead disk heap file buf count).2.available (totalCount counts) =
        file.available (totalCount (count :: counts)) - file.available count.toNat := by
      rw [OpenFile.available, hinode', hposition', OpenFile.available, OpenFile.available,
        totalCount, totalCount, List.map_cons, List.sum_cons]
      omega
    have hsum : file.available (totalCount (count :: counts)) = file.available count.toNat +
        (jarfsRead disk heap file buf count).2.available (totalCount counts) := by
      rw [hrest, OpenFile.available, OpenFile.available, totalCount, List.map_cons, List.sum_cons]
      omega
    have hbytes (p n : Nat) : (jarfsRead disk heap file buf count).2.bytes disk p n =
        file.bytes disk p n := by
      rw [OpenFile.bytes, OpenFile.bytes]
      apply List.map_congr_left
      intro i _
      rw [OpenFile.content, OpenFile.content, hinode']
    refine ⟨?_, hinode.trans hinode', ?_⟩
    · rw [hsum, bytes_append]
      show (jarfsRead disk heap file buf count).1.stored ++ _ = _
      rw [hfirst, hstored, hposition', hbytes]
    · show (jarfsReads disk heap buf (jarfsRead disk heap file buf count).2 counts).2.position.toNat = _
      rw [hposition, hposition', hsum, Nat.add_assoc]

theorem each_readsRight {counts : List U64} (hvalid : file.Valid) (hbuf : buf ≠ 0)
    (hcounts : file.position.toNat + totalCount counts < 2^64)
    (hserves : Runs.Each (fun f c => (jarfsRead disk heap f buf c).2)
      (OpenFile.FirstBlockServes disk) file counts) :
    Runs.Each (fun f c => (jarfsRead disk heap f buf c).2)
      (OpenFile.ReadsRight disk heap buf) file counts := by
  induction counts generalizing file with
  | nil => trivial
  | cons count counts ih =>
    rw [totalCount, List.map_cons, List.sum_cons] at hcounts
    have hright : file.ReadsRight disk heap buf count :=
      (readsRight_iff hvalid hbuf (by omega)).mpr hserves.1
    have hle : file.available count.toNat ≤ count.toNat := Nat.min_le_left _ _
    refine ⟨hright, ih (hright.valid hvalid) ?_ hserves.2⟩
    rw [hright.2.2.2.2, totalCount]
    omega

end

/-- One read is right exactly when the first block serves it, and reads that the first
block serves one after the other are right however the whole is split. -/
theorem jarfs_read_iff (disk : U64 → U8) (heap : Nat → U8) (file : OpenFile) (buf : U64)
    (hvalid : file.Valid) (hbuf : buf ≠ 0) :
    (∀ count : U64, file.position.toNat + count.toNat < 2^64 →
      (file.ReadsRight disk heap buf count ↔ file.FirstBlockServes disk count)) ∧
    ∀ counts : List U64, file.position.toNat + totalCount counts < 2^64 →
      Runs.Each (fun f c => (jarfsRead disk heap f buf c).2)
        (OpenFile.FirstBlockServes disk) file counts →
      (jarfsReads disk heap buf file counts).1 =
          file.bytes disk file.position.toNat (file.available (totalCount counts)) ∧
        (jarfsReads disk heap buf file counts).2.position.toNat =
          file.position.toNat + file.available (totalCount counts) := by
  refine ⟨fun count hcount => readsRight_iff hvalid hbuf hcount, fun counts hcounts hserves => ?_⟩
  obtain ⟨hstored, -, hposition⟩ := jarfsReads_right hvalid (each_readsRight hvalid hbuf hcounts hserves)
  exact ⟨hstored, hposition⟩

/-- A file of two blocks, the blocks 5 and 6 of the device. -/
def twoBlockFile (position : U64) : OpenFile where
  inode := ⟨8192, fun i => 5 + BitVec.ofNat 32 i⟩
  position := position

/-- Ones up to block 5, twos from block 6 on. -/
def twoBlockDisk (offset : U64) : U8 := if offset < 6 * 4096 then 1 else 2

/-- A read of three bytes at the start of the first block, and one of two bytes at its end. -/
theorem jarfs_read_iff_start :
    (twoBlockFile 0).ReadsRight twoBlockDisk (fun _ => 0) 0x1000 3 ∧
      ¬ (twoBlockFile 4095).ReadsRight twoBlockDisk (fun _ => 0) 0x1000 2 := by
  constructor
  · refine ((jarfs_read_iff twoBlockDisk (fun _ => 0) (twoBlockFile 0) 0x1000
      ⟨by decide, by decide⟩ (by decide)).1 3 (by decide)).mpr (Or.inr ⟨by decide, ?_⟩)
    decide +kernel
  · intro hright
    obtain hnone | ⟨hblock, -⟩ := ((jarfs_read_iff twoBlockDisk (fun _ => 0) (twoBlockFile 4095)
      0x1000 ⟨by decide, by decide⟩ (by decide)).1 2 (by decide)).mp hright
    · exact absurd hnone (by decide)
    · exact absurd hblock (by decide)

/-- Reading one byte of the second block delivers one of the first, and reading on from
the last byte of the first block into the second copies from behind the temporary
block. -/
theorem jarfs_read_second_block :
    (twoBlockFile 4096).Valid ∧ (twoBlockFile 4095).Valid ∧
      (jarfsRead twoBlockDisk (fun _ => 0) (twoBlockFile 4096) 0x1000 1).1.stored = [1] ∧
      (twoBlockFile 4096).bytes twoBlockDisk 4096 1 = [2] ∧
      4096 ∈ (jarfsRead twoBlockDisk (fun _ => 0) (twoBlockFile 4095) 0x1000 2).1.touched ∧
      ¬ (twoBlockFile 4096).ReadsRight twoBlockDisk (fun _ => 0) 0x1000 1 ∧
      ¬ (twoBlockFile 4095).ReadsRight twoBlockDisk (fun _ => 0) 0x1000 2 := by
  have hstored : (jarfsRead twoBlockDisk (fun _ => 0) (twoBlockFile 4096) 0x1000 1).1.stored = [1] := by
    decide +kernel
  have hbytes : (twoBlockFile 4096).bytes twoBlockDisk 4096 1 = [2] := by decide +kernel
  have htouched :
      4096 ∈ (jarfsRead twoBlockDisk (fun _ => 0) (twoBlockFile 4095) 0x1000 2).1.touched := by
    decide +kernel
  refine ⟨⟨by decide, by decide⟩, ⟨by decide, by decide⟩, hstored, hbytes, htouched, fun h => ?_,
    fun h => ?_⟩
  · have havailable : (twoBlockFile 4096).available (1 : U64).toNat = 1 := by decide
    have hright := h.2.1
    rw [hstored, havailable] at hright
    exact absurd (hright.trans hbytes) (by decide)
  · exact absurd (h.2.2.1 4096 htouched) (by decide)

end JarJar.Jarfs
