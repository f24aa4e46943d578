import JarJar.JarfsRemount

/- What a file takes over from the block it is in. `jarfs_open` stores every field of the
   file but the position, which is what `kmalloc` hands out, and `jarfs_read` starts there;
   a read that crosses the end of a block copies from the heap behind its temporary block.

   Correspondence (C ↔ Lean):
     the block of a `jarfs_file_t`        ↔ `FileBlock`
     the stores of `jarfs_open`           ↔ `FileBlock.opened`
     `jarfs_read`, one count after the other   ↔ `deliveries`

   What is proved (`open_read_iff`): two runs over the same device deliver the same, whatever
   the heap held, exactly when both blocks held a position of 0 and no read crosses the end
   of a block. -/
namespace JarJar.Jarfs

/-- `jarfs_file_t`, with the bytes of the inode. -/
structure FileBlock where
  inodeNum : U32
  inode : List U8
  mount : U64
  position : U64
  flags : U32
  refcount : U32

/-- What the block holds after `jarfs_open`, from what it held before. -/
def FileBlock.opened (stale : FileBlock) (mount : U64) (device : BlockDevice)
    (superblock : Superblock) (flags : U32) : FileBlock :=
  let offset := superblock.inodeTableStart * jarfsBlockSize
  { stale with inodeNum := 1, mount, flags, refcount := 1, inode := device.readInode offset }

def FileBlock.toFile (b : FileBlock) : JarfsFile := ⟨b.inodeNum, b.inode, b.mount, b.flags, b.refcount⟩

/-- The file as `jarfs_read` sees it. -/
def FileBlock.toOpenFile (b : FileBlock) : OpenFile := ⟨Inode.ofBytes b.inode, b.position⟩

/-- The file that `jarfs_open` puts on the heap has the fields it stores. -/
theorem jarfsOpen_file (stale : FileBlock) {file : U64} (mount : U64) (device : BlockDevice)
    (superblock : Superblock) (flags : U32) (s : Machine) (hfile : file ≠ 0) :
    (jarfsOpen file mount device superblock flags s).2.files file =
      some (stale.opened mount device superblock flags).toFile := by
  rw [jarfsOpen, if_neg hfile]
  exact Function.update_self _ _ _

/-- What the calls of `jarfs_read` return, and the bytes each of them stores. -/
def deliveries (disk : Disk) (heap : Nat → U8) (buf : U64) : OpenFile → List U64 → List (Int × List U8)
  | _, [] => []
  | file, count :: counts =>
    let read := jarfsRead disk heap file buf count
    (read.1.ret, read.1.stored) :: deliveries disk heap buf read.2 counts

/-- Reads one after the other from byte `p` of a file of `size` bytes, none of which goes on
behind the block it starts in. -/
def StaysInBlocks (size : Nat) : Nat → List U64 → Prop
  | _, [] => True
  | p, count :: counts =>
    let n := min count.toNat (size - p)
    p + count.toNat < 2^64 ∧ p % 4096 + n ≤ 4096 ∧ StaysInBlocks size (p + n) counts

/-- The two runs start at the beginning of the file and deliver the same, whatever lies
behind the temporary block. -/
def DeviceAlone (disk : Disk) (superblock : Superblock) (ptr mount buf : U64) (flags : U32)
    (counts : List U64) (stale stale' : FileBlock) : Prop :=
  let file := (stale.opened mount (disk.device ptr) superblock flags).toOpenFile
  let file' := (stale'.opened mount (disk.device ptr) superblock flags).toOpenFile
  file.position = 0 ∧ file'.position = 0 ∧
    ∀ heap heap', deliveries disk heap buf file counts = deliveries disk heap' buf file' counts

/-! ## One read and the heap -/

section
variable {disk : Disk} {heap : Nat → U8} {file : OpenFile} {buf count : U64}

theorem jarfsRead_eq (hpos : file.position.toNat ≤ file.inode.size.toNat) (hbuf : buf ≠ 0)
    (hcount : file.position.toNat + count.toNat < 2^64) :
    jarfsRead disk heap file buf count =
      (⟨file.available count.toNat,
        (List.range (file.available count.toNat)).map fun i =>
          tempByte disk heap file (file.position.toNat % 4096 + i),
        (List.range (file.available count.toNat)).map (file.position.toNat % 4096 + ·)⟩,
       { file with position := file.position + BitVec.ofNat 64 (file.available count.toNat) }) := by
  by_cases hn : file.available count.toNat = 0
  · rw [jarfsRead_none hpos hbuf hcount hn, hn]
    simp
  · exact jarfsRead_some hpos hbuf hcount hn

/-- A sum that wraps is not past the end of the file, and the count is not shortened. -/
theorem jarfsRead_wraps (hpos : file.position.toNat ≤ file.inode.size.toNat) (hbuf : buf ≠ 0)
    (hcount : 2^64 ≤ file.position.toNat + count.toNat) :
    (jarfsRead disk heap file buf count).1.stored = (List.range count.toNat).map fun i =>
      tempByte disk heap file (file.position.toNat % 4096 + i) := by
  have hlt := count.isLt
  have hposlt := file.position.isLt
  have hsize := file.inode.size.isLt
  have hwide : (file.inode.size.setWidth 64).toNat = file.inode.size.toNat := by
    rw [BitVec.toNat_setWidth, Nat.mod_eq_of_lt (by omega)]
  have hinside : ¬ file.position + count > file.inode.size.setWidth 64 := by
    show ¬ (file.inode.size.setWidth 64).toNat < (file.position + count).toNat
    rw [hwide, BitVec.toNat_add]
    omega
  have hsome : count ≠ 0 := by
    intro hzero
    have hnone : count.toNat = 0 := by rw [hzero]; rfl
    omega
  have hstart : (file.position % jarfsBlockSize).toNat = file.position.toNat % 4096 :=
    BitVec.toNat_umod
  rw [jarfsRead, if_neg hbuf]
  dsimp only
  rw [if_neg hinside, if_neg hsome, hstart, List.map_map]
  rfl

/-- Bytes copied from the temporary block and from behind it are the same for all heaps
exactly if none is from behind it. -/
theorem copied_independent_iff (disk : Disk) (file : OpenFile) (start n : Nat) (hstart : start < 4096) :
    (∀ heap heap', (List.range n).map (fun i => tempByte disk heap file (start + i)) =
      (List.range n).map fun i => tempByte disk heap' file (start + i)) ↔ start + n ≤ 4096 := by
  refine ⟨fun h => ?_, fun h heap heap' => ?_⟩
  · by_contra hlong
    have hbyte := map_range_eq_iff.mp (h (fun _ => 0) fun _ => 1) (4096 - start) (by omega)
    rw [tempByte, tempByte, if_neg (by omega), if_neg (by omega)] at hbyte
    exact absurd hbyte (by decide)
  · apply map_range_eq_iff.mpr
    intro i hi
    rw [tempByte, tempByte, if_pos (by omega), if_pos (by omega)]

end

/-! ## All the reads -/

section
variable {disk : Disk} {buf : U64}

theorem deliveries_null (heap : Nat → U8) (file : OpenFile) (counts : List U64) :
    deliveries disk heap 0 file counts = counts.map fun _ => (-1, []) := by
  induction counts with
  | nil => rfl
  | cons count counts ih =>
    rw [deliveries, jarfsRead, if_pos rfl, ih, List.map_cons]

theorem deliveries_independent_iff (hbuf : buf ≠ 0) (file : OpenFile) (counts : List U64)
    (hpos : file.position.toNat ≤ file.inode.size.toNat) :
    (∀ heap heap', deliveries disk heap buf file counts = deliveries disk heap' buf file counts) ↔
      StaysInBlocks file.inode.size.toNat file.position.toNat counts := by
  induction counts generalizing file with
  | nil => exact ⟨fun _ => trivial, fun _ _ _ => rfl⟩
  | cons count counts ih =>
    have hstart : file.position.toNat % 4096 < 4096 := Nat.mod_lt _ (by decide)
    by_cases hcount : file.position.toNat + count.toNat < 2^64
    · -- the file after the read is the same for every heap
      let after : OpenFile :=
        { file with position := file.position + BitVec.ofNat 64 (file.available count.toNat) }
      have hle := available_le hpos count.toNat
      have hsize := file.inode.size.isLt
      have hafter : after.position.toNat = file.position.toNat + file.available count.toNat := by
        show (file.position + BitVec.ofNat 64 (file.available count.toNat)).toNat = _
        rw [BitVec.toNat_add, BitVec.toNat_ofNat]
        omega
      have hcons (heap : Nat → U8) : deliveries disk heap buf file (count :: counts) =
          ((file.available count.toNat : Int), (List.range (file.available count.toNat)).map fun i =>
            tempByte disk heap file (file.position.toNat % 4096 + i)) ::
            deliveries disk heap buf after counts := by
        rw [deliveries, jarfsRead_eq hpos hbuf hcount]
      have hrest := ih after (by rw [hafter]; exact hle)
      rw [hafter] at hrest
      simp only [hcons, List.cons.injEq, Prod.mk.injEq, true_and, forall_and]
      rw [copied_independent_iff disk file _ _ hstart, hrest]
      exact ⟨fun h => ⟨hcount, h⟩, fun h => h.2⟩
    · refine ⟨fun h => ?_, fun h => absurd h.1 hcount⟩
      have hcopied : ∀ heap heap', (List.range count.toNat).map
          (fun i => tempByte disk heap file (file.position.toNat % 4096 + i)) =
          (List.range count.toNat).map fun i =>
            tempByte disk heap' file (file.position.toNat % 4096 + i) := by
        intro heap heap'
        rw [← jarfsRead_wraps hpos hbuf (by omega), ← jarfsRead_wraps hpos hbuf (by omega)]
        exact congrArg Prod.snd (List.cons.inj (h heap heap')).1
      have hsize := file.inode.size.isLt
      have hlong := (copied_independent_iff disk file _ _ hstart).mp hcopied
      omega

end

/-- **When a file that was just opened depends on the device alone.** For every device,
every sequence of counts and any two contents of the block of the file: exactly when the
position is 0 in both contents and, with a buffer to read to, no read crosses the end of a
block. -/
theorem open_read_iff (disk : Disk) (superblock : Superblock) (ptr mount buf : U64) (flags : U32)
    (counts : List U64) (stale stale' : FileBlock) :
    DeviceAlone disk superblock ptr mount buf flags counts stale stale' ↔
      stale.position = 0 ∧ stale'.position = 0 ∧
        (buf = 0 ∨ StaysInBlocks (Inode.ofBytes
          (disk.read (superblock.inodeTableStart * jarfsBlockSize) 84)).size.toNat 0 counts) := by
  let inode := Inode.ofBytes (disk.read (superblock.inodeTableStart * jarfsBlockSize) 84)
  have hopened (b : FileBlock) :
      (b.opened mount (disk.device ptr) superblock flags).toOpenFile = ⟨inode, b.position⟩ := rfl
  rw [DeviceAlone, hopened, hopened]
  refine and_congr_right fun hpos => and_congr_right fun hpos' => ?_
  dsimp only at hpos hpos'
  rw [hpos, hpos']
  by_cases hbuf : buf = 0
  · rw [hbuf]
    refine ⟨fun _ => .inl rfl, fun _ heap heap' => ?_⟩
    rw [deliveries_null, deliveries_null]
  · rw [or_iff_right hbuf]
    exact deliveries_independent_iff hbuf ⟨inode, 0⟩ counts (Nat.zero_le _)

/-- A block of the heap that held `position` where the position of a file goes. -/
def blockWith (position : U64) : FileBlock := ⟨0, [], 0, position, 0, 0⟩

/-- A formatted device of 16 MiB, mounted, and 4096 bytes read from its root: all of them are
delivered from a block that held a position of 0, and one less if it held 1. -/
theorem open_keeps_position :
    let disk := Disk.storeAll (fun _ => 0) (jarfsFormat 0x100 0x1000000).val.2
    let superblock := (disk.device 0x100).readSuperblock.2
    let file stale := (FileBlock.opened stale 0x1000 (disk.device 0x100) superblock 0).toOpenFile
    (Op.mount (some (disk.device 0x100)) 0x1000 0x2000).Succeeds ∧
      (deliveries disk (fun _ => 0) 0x3000 (file (blockWith 0)) [4096]).map Prod.fst = [4096] ∧
      (deliveries disk (fun _ => 0) 0x3000 (file (blockWith 1)) [4096]).map Prod.fst = [4095] ∧
      ¬ DeviceAlone disk superblock 0x100 0x1000 0x3000 0 [4096] (blockWith 0) (blockWith 1) := by
  intro disk superblock file
  have hdevice : (0x100 : U64) ≠ 0 := by decide
  have hsize : 16 * 1024 * 1024 ≤ (0x1000000 : U64).toNat := by decide
  obtain ⟨l, -, -, -, hsuperblock, hinode⟩ := formatted_device hdevice hsize fun _ => 0
  have hfile (position : U64) : file (blockWith position) = ⟨Inode.ofBytes l.rootInode, position⟩ := by
    show OpenFile.mk (Inode.ofBytes ((disk.device 0x100).readInode
      ((disk.device 0x100).readSuperblock.2.inodeTableStart * jarfsBlockSize))) position = _
    rw [hsuperblock, superblock_inodeTableStart, hinode]
  have hcount (position : U64) (hpos : position.toNat ≤ 1) :
      (deliveries disk (fun _ => 0) 0x3000 (file (blockWith position)) [4096]).map Prod.fst =
        [((4096 - position.toNat : Nat) : Int)] := by
    have hsize : (Inode.ofBytes l.rootInode).size.toNat = 4096 := by rw [rootInode_size]; rfl
    have hcounts : (4096 : U64).toNat = 4096 := rfl
    rw [hfile, deliveries, jarfsRead_eq (by dsimp only; omega) (by decide) (by dsimp only; omega)]
    dsimp only [deliveries, OpenFile.available]
    rw [hsize, hcounts, Nat.min_eq_right (Nat.sub_le _ _)]
    rfl
  refine ⟨succeeds_of_readSuperblock (by decide) hsuperblock, hcount 0 (by decide),
    hcount 1 (by decide), fun h => ?_⟩
  have hstale : (1 : U64) = 0 := h.2.1
  exact absurd hstale (by decide)

end JarJar.Jarfs
