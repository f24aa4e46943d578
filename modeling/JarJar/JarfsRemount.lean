import JarJar.JarfsDevice
import JarJar.JarfsMountErrors
import JarJar.JarfsRead

/- A device that is formatted and then mounted. The block numbers are computed with 64
   bits, and the superblock keeps them so; the blocks of an inode have 32.

   Correspondence (C ↔ Lean):
     `device->read` of a device with its bytes     ↔ `Disk.device`
     `jarfs_inode_t`, from its bytes               ↔ `Inode.ofBytes`
     the fields `block_count`, `data_start`        ↔ `Superblock.blockCount`, `Superblock.dataStart`

   What is proved (`remount_iff`): the root that is mounted is the one that was written, and
   its block is the first of the data, exactly when the device is smaller than
   3405971945144320 bytes. -/
namespace JarJar.Jarfs
open MachineArith LittleEndian

/-- The field `block_count`, at byte 16. -/
def Superblock.blockCount (sb : Superblock) : U64 :=
  sb 23 ++ sb 22 ++ sb 21 ++ sb 20 ++ sb 19 ++ sb 18 ++ sb 17 ++ sb 16

/-- The field `data_start`, at byte 72. -/
def Superblock.dataStart (sb : Superblock) : U64 :=
  sb 79 ++ sb 78 ++ sb 77 ++ sb 76 ++ sb 75 ++ sb 74 ++ sb 73 ++ sb 72

/-- The inode with the given bytes: the size at byte 12, the blocks from byte 36 on. -/
def Inode.ofBytes (bytes : List U8) : Inode where
  size := word32 fun k => bytes.getD (12 + k) 0
  block i := word32 fun k => bytes.getD (36 + 4 * i.val + k) 0

/-- `n` bytes of the disk from `offset` on. -/
def Disk.read (disk : Disk) (offset : U64) (n : Nat) : List U8 :=
  (List.range n).map fun k => disk (offset + BitVec.ofNat 64 k)

/-- The device with the bytes of `disk`, which reads all that it is asked for. -/
def Disk.device (disk : Disk) (ptr : U64) : BlockDevice where
  ptr := ptr
  readSuperblock := (120, fun i => disk (0 + BitVec.ofNat 64 i))
  readInode offset := disk.read offset 84

section
variable {disk : Disk} {l : Layout} {device offset : U64}

/-! ## What is read back -/

theorem readSuperblock_of_has (h : disk.Has (l.superblockWrite device)) (ptr : U64) :
    (disk.device ptr).readSuperblock = (120, l.superblock) := by
  have hbyte (i : Fin 120) : disk (0 + BitVec.ofNat 64 i) = l.superblock i := by
    have hi := h i.val (by rw [superblockWrite_length]; exact i.isLt)
    rw [Layout.superblockWrite] at hi
    simpa using hi
  rw [Disk.device]
  dsimp only
  rw [funext hbyte]

theorem readInode_of_has (h : disk.Has (l.rootWrite device offset)) (ptr : U64) :
    (disk.device ptr).readInode offset = l.rootInode := by
  apply List.ext_getElem
  · simp [Disk.device, Disk.read, rootInode_length]
  · intro k _ hk
    have hbyte := h k hk
    rw [Layout.rootWrite] at hbyte
    simpa [Disk.device, Disk.read, hk] using hbyte

theorem superblock_blockCount (l : Layout) : l.superblock.blockCount = l.blockCount :=
  superblock_word64 (p := 16) (bytes32 jarfsMagic ++ bytes32 1 ++ bytes32 0 ++ bytes32 0)
    (bytes64 l.inodeCount ++ bytes64 l.freeBlocks ++ bytes64 l.freeInodes ++
      bytes64 l.blockBitmapStart ++ bytes64 l.inodeBitmapStart ++ bytes64 l.inodeTableStart ++
      bytes64 l.dataStart ++ List.replicate 40 0) (by decide) (by simp [bytes32])
    (by simp only [Layout.fields, List.append_assoc])

theorem superblock_dataStart (l : Layout) : l.superblock.dataStart = l.dataStart :=
  superblock_word64 (p := 72) (bytes32 jarfsMagic ++ bytes32 1 ++ bytes32 0 ++ bytes32 0 ++
    bytes64 l.blockCount ++ bytes64 l.inodeCount ++ bytes64 l.freeBlocks ++ bytes64 l.freeInodes ++
    bytes64 l.blockBitmapStart ++ bytes64 l.inodeBitmapStart ++ bytes64 l.inodeTableStart)
    (List.replicate 40 0) (by decide) (by simp [bytes32, bytes64])
    (by simp only [Layout.fields, List.append_assoc])

theorem word32_of_bytes {bytes : List U8} {p : Nat} {x : U32} (front behind : List U8)
    (hfront : front.length = p) (hbytes : bytes = front ++ (bytes32 x ++ behind)) :
    (word32 fun k => bytes.getD (p + k) 0) = x := by
  apply word32_spells.eq rfl
  intro k hk
  rw [hbytes, List.getD_append_right _ _ _ _ (by omega), hfront, Nat.add_sub_cancel_left,
    List.getD_append _ _ _ _ (by simpa [bytes32] using hk), bytes32, bytesFrom_getD hk,
    Nat.zero_add]

theorem rootInode_size (l : Layout) : (Inode.ofBytes l.rootInode).size = 4096 :=
  word32_of_bytes (bytes32 (0o755 ||| (2 <<< 12)) ++ bytes32 0 ++ bytes32 0)
    (bytes32 0 ++ bytes32 0 ++ bytes32 0 ++ bytes32 0 ++ bytes32 1 ++
      bytes32 (l.dataStart.setWidth 32) ++ List.replicate 44 0)
    (by simp [bytes32]) (by simp only [Layout.rootInode, List.append_assoc])

/-- The block of the root has the low half of the first block of the data. -/
theorem rootInode_block (l : Layout) :
    (Inode.ofBytes l.rootInode).firstBlock = l.dataStart.setWidth 32 :=
  word32_of_bytes (bytes32 (0o755 ||| (2 <<< 12)) ++ bytes32 0 ++ bytes32 0 ++ bytes32 4096 ++
      bytes32 0 ++ bytes32 0 ++ bytes32 0 ++ bytes32 0 ++ bytes32 1) (List.replicate 44 0)
    (by simp [bytes32]) (by simp only [Layout.rootInode, List.append_assoc])

end

/-! ## The size up to which the block number fits -/

theorem dataStartOf_mono {a b : Nat} (h : a ≤ b) : dataStartOf a ≤ dataStartOf b := by
  have hblocks : a / 4096 ≤ b / 4096 := Nat.div_le_div_right h
  have hinodes : max 1024 (a / 4096 / 4) ≤ max 1024 (b / 4096 / 4) := by omega
  have hblockBitmap : (a / 4096 + 32768 - 1) / 32768 ≤ (b / 4096 + 32768 - 1) / 32768 :=
    Nat.div_le_div_right (by omega)
  have hinodeBitmap : (max 1024 (a / 4096 / 4) + 32768 - 1) / 32768 ≤
      (max 1024 (b / 4096 / 4) + 32768 - 1) / 32768 := Nat.div_le_div_right (by omega)
  have htable : (max 1024 (a / 4096 / 4) * 84 + 4096 - 1) / 4096 ≤
      (max 1024 (b / 4096 / 4) * 84 + 4096 - 1) / 4096 := Nat.div_le_div_right (by omega)
  rw [dataStartOf, dataStartOf]
  exact Nat.add_le_add (Nat.add_le_add (Nat.add_le_add_left hblockBitmap 2) hinodeBitmap) htable

theorem dataStartOf_lt_iff (size : Nat) :
    dataStartOf size < 2^32 ↔ size < 3405971945144320 := by
  have hlast : dataStartOf 3405971945144319 < 2^32 := by decide
  have hfirst : 2^32 ≤ dataStartOf 3405971945144320 := by decide
  refine ⟨fun h => ?_, fun h => ?_⟩
  · by_contra hlarge
    have hmono := dataStartOf_mono (Nat.le_of_not_lt hlarge)
    omega
  · have hmono := dataStartOf_mono (Nat.le_of_lt_succ h)
    omega

/-- A format, and a mount of what it left on the disk: the root's inode is the one that was
written, and its block is the first of the data, inside the device. -/
def RemountsAtData (disk : Disk) (device size : U64) (block file : U64) (s : Machine) : Prop :=
  let ws := (jarfsFormat device size).val.2
  let (mount, s') := jarfsMount (some ((disk.storeAll ws).device device)) block file s
  mount ≠ 0 ∧ ∃ m f, s'.mounts mount = some m ∧ s'.files m.root = some f ∧
    (∃ l offset, Layout.rootWrite l device offset ∈ ws ∧ f.inode = l.rootInode) ∧
    (Inode.ofBytes f.inode).firstBlock.toNat = m.superblock.dataStart.toNat ∧
    (Inode.ofBytes f.inode).firstBlock.toNat < m.superblock.blockCount.toNat

section
variable {d : BlockDevice} {l : Layout} {block file : U64}

theorem rootOf_inode (block : U64) (hsuperblock : d.readSuperblock = (120, l.superblock))
    (hinode : d.readInode (l.inodeTableStart * jarfsBlockSize) = l.rootInode) :
    (rootOf d block).inode = l.rootInode := by
  rw [rootOf, hsuperblock]
  dsimp only
  rw [superblock_inodeTableStart, hinode]

theorem succeeds_of_readSuperblock (hblock : block ≠ 0)
    (hsuperblock : d.readSuperblock = (120, l.superblock)) :
    (Op.mount (some d) block file).Succeeds := by
  refine ⟨hblock, ?_, ?_⟩
  · rw [hsuperblock]
  · rw [hsuperblock]
    exact superblock_magic l

end

theorem block_eq_iff (l : Layout) :
    (Inode.ofBytes l.rootInode).firstBlock.toNat = l.dataStart.toNat ↔ l.dataStart.toNat < 2^32 := by
  have hlow : (Inode.ofBytes l.rootInode).firstBlock.toNat = l.dataStart.toNat % 2^32 := by
    rw [rootInode_block, BitVec.toNat_setWidth]
  rw [hlow]
  exact ⟨fun h => by rw [← h]; exact Nat.mod_lt _ (by decide), Nat.mod_eq_of_lt⟩

theorem formatted_device {device size : U64} (hdevice : device ≠ 0)
    (hsize : 16 * 1024 * 1024 ≤ size.toNat) (disk : Disk) :
    ∃ l : Layout, (jarfsFormat device size).val.2 = [l.superblockWrite device,
        l.rootWrite device (l.inodeTableStart * jarfsBlockSize)] ∧
      l.Sound size.toNat ∧ l.dataStart.toNat = dataStartOf size.toNat ∧
      ((disk.storeAll (jarfsFormat device size).val.2).device device).readSuperblock =
        (120, l.superblock) ∧
      ((disk.storeAll (jarfsFormat device size).val.2).device device).readInode
        (l.inodeTableStart * jarfsBlockSize) = l.rootInode := by
  obtain ⟨-, l, _, hval, hsound, hdata, rfl, hoffset⟩ := jarfsFormat_holds hdevice hsize
  have hhas := format_has hsound size.isLt hoffset device disk
  rw [List.forall_mem_cons, List.forall_mem_singleton] at hhas
  rw [hval]
  exact ⟨l, rfl, hsound, hdata, readSuperblock_of_has hhas.1 device, readInode_of_has hhas.2 device⟩

theorem remountsAtData_iff {disk : Disk} {device size block file : U64} {s : Machine}
    (hdevice : device ≠ 0) (hsize : 16 * 1024 * 1024 ≤ size.toNat) (hblock : block ≠ 0)
    (hfile : file ≠ 0) :
    RemountsAtData disk device size block file s ↔ dataStartOf size.toNat < 2^32 := by
  obtain ⟨l, hwrites, hsound, hdata, hsuperblock, hinode⟩ := formatted_device hdevice hsize disk
  rw [RemountsAtData, ← hdata, ← block_eq_iff]
  dsimp only
  rw [jarfsMount_of_succeeds (succeeds_of_readSuperblock hblock hsuperblock)]
  generalize (disk.storeAll _).device device = d at *
  have hroot := rootOf_inode block hsuperblock hinode
  have hmount : (mountOf d file s).superblock = l.superblock := by rw [mountOf, hsuperblock]
  have hmounts := mountedMachine_mounts d block file s
  have hfiles := mountedMachine_files d block s hfile
  refine ⟨fun h => ?_, fun h => ⟨hblock, _, _, hmounts, hfiles, ?_⟩⟩
  · obtain ⟨-, m, f, hm, hf, -, hsame, -⟩ := h
    obtain rfl := Option.some.inj (hmounts.symm.trans hm)
    obtain rfl := Option.some.inj (hfiles.symm.trans hf)
    rw [hroot, hmount, superblock_dataStart] at hsame
    exact hsame
  · have hinside := hsound.data
    rw [hroot, hmount, superblock_dataStart, superblock_blockCount, h]
    rw [hwrites]
    exact ⟨⟨l, _, List.mem_cons_of_mem _ List.mem_cons_self, rfl⟩, rfl, by omega⟩

/-- **When the root of a formatted device is where its data starts.** The root that is
mounted is the one that was written, and the block of its inode is the first of the data,
exactly below 3405971945144320 bytes. -/
theorem remount_iff (disk : Disk) (device size : U64) (block file : U64) (s : Machine)
    (hdevice : device ≠ 0) (hsize : 16 * 1024 * 1024 ≤ size.toNat) (hblock : block ≠ 0)
    (hfile : file ≠ 0) :
    RemountsAtData disk device size block file s ↔ size.toNat < 3405971945144320 := by
  rw [remountsAtData_iff hdevice hsize hblock hfile, dataStartOf_lt_iff]

/-- A device of 16 MiB. -/
theorem remount_iff_16MiB :
    RemountsAtData (fun _ => 0) 0x100 0x1000000 0x1000 0x2000 Machine.initial := by
  rw [remount_iff _ _ _ _ _ _ (by decide) (by decide) (by decide) (by decide)]
  decide

/-- At the first size that is too large the data starts at block 2^32, and the block of the
root is 0, that of the superblock. -/
theorem remount_truncates :
    let size : U64 := 3405971945144320
    (layout size).val.dataStart.toNat = 2^32 ∧
      (Inode.ofBytes (layout size).val.rootInode).firstBlock = 0 ∧
      ¬ RemountsAtData (fun _ => 0) 0x100 size 0x1000 0x2000 Machine.initial := by
  intro size
  have hdata : (layout size).val.dataStart.toNat = 2^32 := by
    have hsize : 16 * 1024 * 1024 ≤ size.toNat := by decide
    rw [(layout_holds hsize).2.2]
    decide
  refine ⟨hdata, ?_, ?_⟩
  · rw [rootInode_block]
    apply BitVec.eq_of_toNat_eq
    rw [BitVec.toNat_setWidth, hdata]
    rfl
  · rw [remountsAtData_iff (by decide) (by decide) (by decide) (by decide)]
    decide

end JarJar.Jarfs
