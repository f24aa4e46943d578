import JarJar.Types
import JarJar.Lib.Exact
import JarJar.JarfsChecksum
import Mathlib.Data.List.GetD
import Mathlib.Data.Set.BooleanAlgebra
import Mathlib.Order.CompletePartialOrder
import Mathlib.Order.Interval.Set.Disjoint

/- Formatting a device. `jarfs_format` divides the blocks of the device into the two
   reserved ones, the two bitmaps, the table of inodes and the data, and writes the
   superblock and the inode of the root.

   Correspondence (C ↔ Lean):
     `div_round_up`                          ↔ `divRoundUp`
     the block numbers of `jarfs_format`     ↔ `Layout`, `layout`
     `jarfs_superblock_t sb`                 ↔ `Layout.superblock`
     `jarfs_inode_t root_inode`              ↔ `Layout.rootInode`
     `device->write(device, offset, p, n)`   ↔ `Write`, with the n bytes at p
     `jarfs_format`                          ↔ `jarfsFormat`
   The arithmetic is that of `MachineArith`, which keeps the record of every
   operation on a `u64`. What a write returns is not looked at. -/
namespace JarJar.Jarfs
open MachineArith LittleEndian

def divRoundUp (n d : U64) : Traced U64 := do
  let sum ← add n d
  let above ← sub sum 1
  div above d

structure Layout where
  blockCount : U64
  inodeCount : U64
  freeBlocks : U64
  freeInodes : U64
  blockBitmapStart : U64
  inodeBitmapStart : U64
  inodeTableStart : U64
  dataStart : U64

def inodeSize : U64 := 84

def layout (size : U64) : Traced Layout := do
  let blockCount ← div size jarfsBlockSize
  let quarter ← div blockCount 4
  let inodeCount := if quarter < 1024 then 1024 else quarter
  let blockBitmapBlock : U64 := 2
  let blockBitmapBlocks ← divRoundUp blockCount (8 * jarfsBlockSize)
  let inodeBitmapBlock ← add blockBitmapBlock blockBitmapBlocks
  let inodeBitmapBlocks ← divRoundUp inodeCount (8 * jarfsBlockSize)
  let inodeTableBlock ← add inodeBitmapBlock inodeBitmapBlocks
  let inodeBytes ← mul inodeCount inodeSize
  let inodeTableBlocks ← divRoundUp inodeBytes jarfsBlockSize
  let dataStartBlock ← add inodeTableBlock inodeTableBlocks
  let notReserved ← sub blockCount dataStartBlock
  let freeBlocks ← sub notReserved 1
  let freeInodes ← sub inodeCount 10
  pure ⟨blockCount, inodeCount, freeBlocks, freeInodes, blockBitmapBlock, inodeBitmapBlock,
    inodeTableBlock, dataStartBlock⟩

/-! ## What is written -/

/-- The fields of the superblock one after the other, the checksum still zero. -/
def Layout.fields (l : Layout) : List U8 :=
  bytes32 jarfsMagic ++ bytes32 1 ++ bytes32 0 ++ bytes32 0 ++ bytes64 l.blockCount ++ bytes64 l.inodeCount ++
  bytes64 l.freeBlocks ++ bytes64 l.freeInodes ++ bytes64 l.blockBitmapStart ++ bytes64 l.inodeBitmapStart ++
  bytes64 l.inodeTableStart ++ bytes64 l.dataStart ++ List.replicate 40 0

/-- The superblock with its checksum. -/
def Layout.superblock (l : Layout) : Superblock :=
  let sb : Superblock := fun i => l.fields.getD i 0
  sb.setChecksum sb.computed

/-- The inode of the root: a directory of one block, the first of the data. -/
def Layout.rootInode (l : Layout) : List U8 :=
  bytes32 (0o755 ||| (2 <<< 12)) ++ bytes32 0 ++ bytes32 0 ++ bytes32 4096 ++ bytes32 0 ++ bytes32 0 ++ bytes32 0 ++
  bytes32 0 ++ bytes32 1 ++ bytes32 (l.dataStart.setWidth 32) ++ List.replicate 44 0

structure Write where
  device : U64
  offset : U64
  data : List U8

/-- The bytes of the device that are written. -/
def Write.extent (w : Write) : Set Nat := Set.Ico w.offset.toNat (w.offset.toNat + w.data.length)

/-- The write of the superblock. -/
def Layout.superblockWrite (l : Layout) (device : U64) : Write :=
  ⟨device, 0, (List.finRange 120).map l.superblock⟩

/-- The write of the root's inode. -/
def Layout.rootWrite (l : Layout) (device offset : U64) : Write := ⟨device, offset, l.rootInode⟩

def jarfsFormat (device size : U64) : Traced (JarResult × List Write) := do
  if device = 0 ∨ size < 16 * 1024 * 1024 then
    pure (.inval, [])
  else
    let l ← layout size
    let inodeOffset ← mul l.inodeTableStart jarfsBlockSize
    pure (.ok, [l.superblockWrite device, l.rootWrite device inodeOffset])

/-! ## The superblock has the layout -/

section
variable {l : Layout}

theorem rootInode_length (l : Layout) : l.rootInode.length = 84 := by
  simp [Layout.rootInode, bytes32]

theorem superblock_eq_fields {i : Fin 120} (hi : i.val < 112) :
    l.superblock i = l.fields.getD i 0 := by
  rw [Layout.superblock]
  exact if_neg (by omega)

theorem superblock_word64 {p : Nat} {x : U64} (front behind : List U8) (hp : p + 8 ≤ 112)
    (hfront : front.length = p) (hfields : l.fields = front ++ (bytes64 x ++ behind)) :
    (word64 fun k => if h : k < 8 then l.superblock ⟨p + k, by omega⟩ else 0) = x := by
  apply word64_spells.eq rfl
  intro k hk
  rw [dif_pos hk, superblock_eq_fields (by show p + k < 112; omega), hfields]
  show (front ++ (bytes64 x ++ behind)).getD (p + k) 0 = _
  rw [List.getD_append_right _ _ _ _ (by omega), hfront, Nat.add_sub_cancel_left,
    List.getD_append _ _ _ _ (by simpa [bytes64] using hk), bytes64, bytesFrom_getD hk,
    Nat.zero_add]

theorem superblock_inodeTableStart (l : Layout) :
    l.superblock.inodeTableStart = l.inodeTableStart :=
  superblock_word64 (p := 64) (bytes32 jarfsMagic ++ bytes32 1 ++ bytes32 0 ++ bytes32 0 ++
    bytes64 l.blockCount ++ bytes64 l.inodeCount ++ bytes64 l.freeBlocks ++ bytes64 l.freeInodes ++
    bytes64 l.blockBitmapStart ++ bytes64 l.inodeBitmapStart)
    (bytes64 l.dataStart ++ List.replicate 40 0) (by decide) (by simp [bytes32, bytes64])
    (by simp only [Layout.fields, List.append_assoc])

theorem superblock_magic (l : Layout) : l.superblock.magic = jarfsMagic := by
  rw [Superblock.magic, superblock_eq_fields (by decide), superblock_eq_fields (by decide),
    superblock_eq_fields (by decide), superblock_eq_fields (by decide)]
  show byteOf jarfsMagic 3 ++ byteOf jarfsMagic 2 ++ byteOf jarfsMagic 1 ++ byteOf jarfsMagic 0 =
    jarfsMagic
  decide

theorem superblock_matches (l : Layout) : l.superblock.Matches :=
  Superblock.matches_setChecksum _

end

/-! ## The areas -/

/-- The areas of a layout for a device of `size` bytes: they follow each other, each is
large enough for what it holds, and what is left for the data is not empty. -/
structure Layout.Sound (l : Layout) (size : Nat) : Prop where
  blockCount_eq : l.blockCount.toNat = size / 4096
  inodeCount_eq : l.inodeCount.toNat = max 1024 (size / 4096 / 4)
  blockBitmap : l.blockBitmapStart.toNat = 2 ∧ 2 < l.inodeBitmapStart.toNat
  inodeBitmap : l.inodeBitmapStart.toNat < l.inodeTableStart.toNat
  inodeTable : l.inodeTableStart.toNat < l.dataStart.toNat
  blockBitmap_holds :
    l.blockCount.toNat ≤ (l.inodeBitmapStart.toNat - l.blockBitmapStart.toNat) * 4096 * 8
  inodeBitmap_holds :
    l.inodeCount.toNat ≤ (l.inodeTableStart.toNat - l.inodeBitmapStart.toNat) * 4096 * 8
  inodeTable_holds :
    l.inodeCount.toNat * 84 ≤ (l.dataStart.toNat - l.inodeTableStart.toNat) * 4096
  data : l.dataStart.toNat < l.blockCount.toNat - 1
  freeBlocks_eq : l.freeBlocks.toNat = l.blockCount.toNat - l.dataStart.toNat - 1
  freeInodes_eq : l.freeInodes.toNat = l.inodeCount.toNat - 10

section
variable {l : Layout} {size : Nat}

theorem Layout.Sound.disjoint (h : l.Sound size) :
    Disjoint (Set.Ico 2 l.inodeBitmapStart.toNat)
      (Set.Ico l.inodeBitmapStart.toNat l.inodeTableStart.toNat) ∧
    Disjoint (Set.Ico 2 l.inodeBitmapStart.toNat)
      (Set.Ico l.inodeTableStart.toNat l.dataStart.toNat) ∧
    Disjoint (Set.Ico l.inodeBitmapStart.toNat l.inodeTableStart.toNat)
      (Set.Ico l.inodeTableStart.toNat l.dataStart.toNat) := by
  have hbitmap := h.inodeBitmap
  simp only [Set.disjoint_left, Set.mem_Ico]
  refine ⟨?_, ?_, ?_⟩ <;> intro b hb hb' <;> omega

theorem Layout.Sound.freeBlocks_pos (h : l.Sound size) : 0 < l.freeBlocks.toNat := by
  have hdata := h.data
  rw [h.freeBlocks_eq]
  omega

theorem Layout.Sound.inode_inside (h : l.Sound size) :
    120 ≤ l.inodeTableStart.toNat * 4096 ∧ l.inodeTableStart.toNat * 4096 + 84 ≤ size := by
  have hbitmap := h.blockBitmap.2
  have hinodes := h.inodeBitmap
  have htable := h.inodeTable
  have hdata := h.data
  rw [h.blockCount_eq] at hdata
  omega

end

/-- The first block of the data on a device of `size` bytes: behind the reserved blocks, the
two bitmaps and the table of inodes. -/
def dataStartOf (size : Nat) : Nat :=
  let blocks := size / 4096
  let inodes := max 1024 (blocks / 4)
  2 + (blocks + 32768 - 1) / 32768 + (inodes + 32768 - 1) / 32768 + (inodes * 84 + 4096 - 1) / 4096

theorem divRoundUp_holds {n d : U64} (hd : 0 < d.toNat) (h : n.toNat + d.toNat < 2^64) :
    Holds (divRoundUp n d) fun q => q.toNat = (n.toNat + d.toNat - 1) / d.toNat := by
  refine (holds_add h).bind fun sum hsum => ?_
  have hone : (1 : U64).toNat ≤ sum.toNat := by rw [hsum]; show 1 ≤ _; omega
  refine (holds_sub hone).bind fun above habove => ?_
  rw [hsum] at habove
  rw [← show above.toNat = n.toNat + d.toNat - 1 from habove]
  exact holds_div (by omega)

theorem roundUp_bounds (n : Nat) {d : Nat} (hd : 0 < d) :
    n ≤ (n + d - 1) / d * d ∧ (n + d - 1) / d * d < n + d := by
  have hle := Nat.div_mul_le_self (n + d - 1) d
  have hlt := Nat.lt_div_mul_add hd (a := n + d - 1)
  omega

/-- Areas of `b`, `b'` and `t` blocks, each just large enough, one behind the other. -/
theorem Layout.sound_of_bounds {l : Layout} {size b b' t : Nat} (hsize : 16 * 1024 * 1024 ≤ size)
    (hblocks : l.blockCount.toNat = size / 4096) (hinodes : l.inodeCount.toNat = size / 4096 / 4)
    (hb : l.blockCount.toNat ≤ b * 32768 ∧ b * 32768 < l.blockCount.toNat + 32768)
    (hb' : l.inodeCount.toNat ≤ b' * 32768 ∧ b' * 32768 < l.inodeCount.toNat + 32768)
    (ht : l.inodeCount.toNat * 84 ≤ t * 4096 ∧ t * 4096 < l.inodeCount.toNat * 84 + 4096)
    (hbitmap : l.blockBitmapStart.toNat = 2) (hinodeBitmap : l.inodeBitmapStart.toNat = 2 + b)
    (htable : l.inodeTableStart.toNat = 2 + b + b') (hdata : l.dataStart.toNat = 2 + b + b' + t)
    (hfree : l.freeBlocks.toNat = l.blockCount.toNat - l.dataStart.toNat - 1)
    (hfree' : l.freeInodes.toNat = l.inodeCount.toNat - 10) : l.Sound size := by
  have hmany : 4096 ≤ l.blockCount.toNat := by omega
  have hmost : 1024 ≤ size / 4096 / 4 := by omega
  have hquarter : l.inodeCount.toNat * 4 ≤ l.blockCount.toNat ∧
      l.blockCount.toNat < l.inodeCount.toNat * 4 + 4 := by omega
  have hcount : l.inodeCount.toNat = max 1024 (size / 4096 / 4) := by rw [hinodes, max_eq_right hmost]
  refine ⟨hblocks, hcount, ?_, ?_, ?_, ?_, ?_, ?_, ?_, hfree, hfree'⟩ <;>
    clear hblocks hinodes hcount hmost hsize <;> omega

/-- Every operation is exact, and the areas are sound. -/
theorem layout_holds {size : U64} (hsize : 16 * 1024 * 1024 ≤ size.toNat) :
    Holds (layout size) fun l =>
      l.Sound size.toNat ∧ l.dataStart.toNat = dataStartOf size.toNat := by
  have hlt := size.isLt
  have hblock : jarfsBlockSize.toNat = 4096 := rfl
  have hbits : (8 * jarfsBlockSize).toNat = 32768 := rfl
  have htwo : (2 : U64).toNat = 2 := rfl
  have hinodeSize : inodeSize.toNat = 84 := rfl
  refine (holds_div (by decide)).bind fun blockCount hblocks => ?_
  rw [hblock] at hblocks
  refine (holds_div (by decide)).bind fun quarter hquarter => ?_
  rw [show (4 : U64).toNat = 4 from rfl] at hquarter
  -- at these sizes a quarter of the blocks is not too few
  have hmost : 1024 ≤ quarter.toNat := by omega
  have hless : ¬ quarter < 1024 := fun h => absurd hmost (Nat.not_le.mpr h)
  rw [if_neg hless]
  have hmany : quarter.toNat ≤ 2^50 ∧ blockCount.toNat ≤ 2^52 := by omega
  refine (divRoundUp_holds (by decide) (by rw [hbits]; omega)).bind fun bitmap hbitmap => ?_
  rw [hbits] at hbitmap
  have hb := roundUp_bounds blockCount.toNat (by decide : 0 < 32768)
  rw [← hbitmap] at hb
  refine (holds_add (by rw [htwo]; omega)).bind fun inodeBitmap hinodeBitmap => ?_
  rw [htwo] at hinodeBitmap
  refine (divRoundUp_holds (by decide) (by rw [hbits]; omega)).bind fun bitmap' hbitmap' => ?_
  rw [hbits] at hbitmap'
  have hb' := roundUp_bounds quarter.toNat (by decide : 0 < 32768)
  rw [← hbitmap'] at hb'
  refine (holds_add (by omega)).bind fun inodeTable hinodeTable => ?_
  refine (holds_mul (by rw [hinodeSize]; omega)).bind fun inodeBytes hinodeBytes => ?_
  rw [hinodeSize] at hinodeBytes
  refine (divRoundUp_holds (by decide) (by rw [hblock]; omega)).bind fun table htable => ?_
  rw [hblock, hinodeBytes] at htable
  have ht := roundUp_bounds (quarter.toNat * 84) (by decide : 0 < 4096)
  rw [← htable] at ht
  refine (holds_add (by omega)).bind fun dataStart hdataStart => ?_
  refine (holds_sub (by omega)).bind fun notReserved hnotReserved => ?_
  refine (holds_sub (by show 1 ≤ _; omega)).bind fun freeBlocks hfreeBlocks => ?_
  refine (holds_sub (by show 10 ≤ _; omega)).bind fun freeInodes hfreeInodes => ?_
  rw [hinodeBitmap] at hinodeTable
  rw [hinodeTable] at hdataStart
  rw [hnotReserved] at hfreeBlocks
  have hquarter' : quarter.toNat = size.toNat / 4096 / 4 := by rw [hquarter, hblocks]
  apply Holds.pure
  refine ⟨Layout.sound_of_bounds hsize hblocks hquarter' hb hb' ht htwo hinodeBitmap hinodeTable
    hdataStart hfreeBlocks hfreeInodes, ?_⟩
  rw [hquarter'] at hmost
  dsimp only [dataStartOf]
  rw [max_eq_right hmost, hdataStart, hbitmap, hbitmap', htable, hquarter', hblocks]

section
variable {l : Layout} {device offset : U64}

theorem superblockWrite_extent : (l.superblockWrite device).extent = Set.Ico 0 120 := by
  rw [Write.extent, Layout.superblockWrite]
  dsimp only
  rw [List.length_map, List.length_finRange]
  rfl

theorem rootWrite_extent : (l.rootWrite device offset).extent =
    Set.Ico offset.toNat (offset.toNat + 84) := by
  rw [Write.extent, Layout.rootWrite]
  dsimp only
  rw [rootInode_length]

end

theorem jarfsFormat_holds {device size : U64} (hdevice : device ≠ 0)
    (hsize : 16 * 1024 * 1024 ≤ size.toNat) :
    Holds (jarfsFormat device size) fun r => ∃ (l : Layout) (offset : U64),
      r = (.ok, [l.superblockWrite device, l.rootWrite device offset]) ∧ l.Sound size.toNat ∧
        l.dataStart.toNat = dataStartOf size.toNat ∧
        offset = l.inodeTableStart * jarfsBlockSize ∧
        offset.toNat = l.inodeTableStart.toNat * 4096 := by
  have hguard : ¬ (device = 0 ∨ size < 16 * 1024 * 1024) := by
    refine not_or.mpr ⟨hdevice, ?_⟩
    show ¬ size.toNat < 16 * 1024 * 1024
    omega
  rw [jarfsFormat, if_neg hguard]
  refine (layout_holds hsize).bind fun l ⟨hsound, hdata⟩ => ?_
  have hinside := hsound.inode_inside.2
  have hlt := size.isLt
  have hblock : jarfsBlockSize.toNat = 4096 := rfl
  refine (holds_mul (by rw [hblock]; omega)).bind fun offset hoffset => ?_
  rw [hblock] at hoffset
  refine Holds.pure ⟨l, offset, rfl, hsound, hdata, BitVec.eq_of_toNat_eq ?_, hoffset⟩
  rw [hoffset, BitVec.toNat_mul, hblock, Nat.mod_eq_of_lt (by omega)]

/-- Formatting a device of at least 16 MiB: every operation is exact, the layout is
sound, and the two writes are the superblock and the root's inode, at disjoint
places inside the device. -/
theorem jarfs_format_sound (device size : U64) (hdevice : device ≠ 0)
    (hsize : 16 * 1024 * 1024 ≤ size.toNat) :
    (jarfsFormat device size).wasExact = true ∧
    ∃ (l : Layout) (offset : U64),
      (jarfsFormat device size).val =
        (.ok, [l.superblockWrite device, l.rootWrite device offset]) ∧
      l.Sound size.toNat ∧ 0 < l.freeBlocks.toNat ∧
      Disjoint (Set.Ico 2 l.inodeBitmapStart.toNat)
        (Set.Ico l.inodeBitmapStart.toNat l.inodeTableStart.toNat) ∧
      Disjoint (Set.Ico 2 l.inodeBitmapStart.toNat)
        (Set.Ico l.inodeTableStart.toNat l.dataStart.toNat) ∧
      Disjoint (Set.Ico l.inodeBitmapStart.toNat l.inodeTableStart.toNat)
        (Set.Ico l.inodeTableStart.toNat l.dataStart.toNat) ∧
      offset.toNat = l.inodeTableStart.toNat * 4096 ∧
      Disjoint (l.superblockWrite device).extent (l.rootWrite device offset).extent ∧
      (l.superblockWrite device).extent ⊆ Set.Iio size.toNat ∧
      (l.rootWrite device offset).extent ⊆ Set.Iio size.toNat := by
  obtain ⟨hexact, l, offset, hval, hsound, -, -, hoffset⟩ := jarfsFormat_holds hdevice hsize
  obtain ⟨habove, hinside⟩ := hsound.inode_inside
  obtain ⟨hd₁, hd₂, hd₃⟩ := hsound.disjoint
  refine ⟨hexact, l, offset, hval, hsound, hsound.freeBlocks_pos, hd₁, hd₂, hd₃, hoffset, ?_, ?_, ?_⟩
  · rw [superblockWrite_extent, rootWrite_extent, hoffset, Set.disjoint_left]
    intro i hi hi'
    rw [Set.mem_Ico] at hi hi'
    omega
  · rw [superblockWrite_extent]
    intro i hi
    rw [Set.mem_Ico] at hi
    rw [Set.mem_Iio]
    omega
  · rw [rootWrite_extent, hoffset]
    intro i hi
    rw [Set.mem_Ico] at hi
    rw [Set.mem_Iio]
    omega

/-- The smallest device. -/
theorem jarfs_format_sound_16MiB :
    (jarfsFormat 0x100 0x1000000).wasExact = true ∧
    ∃ (l : Layout) (offset : U64),
      (jarfsFormat 0x100 0x1000000).val =
        (.ok, [l.superblockWrite 0x100, l.rootWrite 0x100 offset]) ∧
      l.Sound 0x1000000 ∧ 0 < l.freeBlocks.toNat ∧
      offset.toNat = l.inodeTableStart.toNat * 4096 := by
  obtain ⟨hexact, l, offset, hval, hsound, hfree, -, -, -, hoffset, -⟩ :=
    jarfs_format_sound 0x100 0x1000000 (by decide) (by decide)
  exact ⟨hexact, l, offset, hval, hsound, hfree, hoffset⟩

theorem jarfsFormat_refuses {device size : U64} (h : device = 0 ∨ size.toNat < 16 * 1024 * 1024) :
    jarfsFormat device size = ⟨(.inval, []), true⟩ := by
  have hguard : device = 0 ∨ size < 16 * 1024 * 1024 := h
  rw [jarfsFormat, if_pos hguard]
  rfl

end JarJar.Jarfs
