import JarJar.Types
import JarJar.Lib.Chain
import JarJar.Lib.Runs

/- Mounting and unmounting of the file system. `jarfs_mount` puts the new mount in
   front of the list that starts at `mount_list`; `jarfs_unmount` frees the mount
   and leaves the list and `mount_count` as they are.

   Correspondence (C ↔ Lean):
     `jarfs_superblock_t`                    ↔ `Superblock`
     `jarfs_mount_t`, `jarfs_file_t`         ↔ `JarfsMount`, `JarfsFile`
     `struct block_device`                   ↔ `BlockDevice`
     `mount_list`, `mount_count`, the heap   ↔ `Machine`
     `jarfs_mount`, `jarfs_unmount`          ↔ `jarfsMount`, `jarfsUnmount`
     `jarfs_open`, `jarfs_close`             ↔ `jarfsOpen`, `jarfsClose`
     `jarfs_sync`, `calculate_checksum`      ↔ `jarfsSync`, `calculateChecksum`
   The results of `kmalloc` are arguments, 0 for NULL; blocks that were freed are
   gone from the heap. Fields that stay zero, the path and the mount point are
   left out, and so is the line on the console. -/
namespace JarJar.Jarfs

def jarfsMagic : U32 := 0x4A415256#32
def jarfsBlockSize : U64 := 4096#64

/-- The 120 bytes of a superblock, as they are on the device. -/
abbrev Superblock := Fin 120 → U8

namespace Superblock

/-- The field `magic`. -/
def magic (sb : Superblock) : U32 := sb 3 ++ sb 2 ++ sb 1 ++ sb 0

/-- The field `inode_table_start`, at byte 64. -/
def inodeTableStart (sb : Superblock) : U64 :=
  sb 71 ++ sb 70 ++ sb 69 ++ sb 68 ++ sb 67 ++ sb 66 ++ sb 65 ++ sb 64

/-- Storing the field `checksum`, the last eight bytes. -/
def setChecksum (sb : Superblock) (checksum : U64) : Superblock :=
  fun i => if 112 ≤ i.val then (checksum >>> (8 * (i.val - 112))).setWidth 8 else sb i

end Superblock

def calculateChecksum (data : List U8) : U64 :=
  data.foldl (fun checksum b => (checksum <<< 1) ^^^ b.setWidth 64) 0

/-- A device: what reading the superblock returns and leaves in the buffer, and
what reading an inode at an offset leaves in the buffer. -/
structure BlockDevice where
  ptr : U64
  readSuperblock : Int × Superblock
  readInode : U64 → List U8

structure JarfsFile where
  inodeNum : U32
  inode : List U8
  mount : U64
  flags : U32
  refcount : U32

structure JarfsMount where
  device : U64
  superblock : Superblock
  root : U64
  cwd : U64
  next : U64

/-- What jarfs.c works on: the two statics, its blocks on the heap, and the
superblocks written to devices. -/
structure Machine where
  mountList : U64
  mountCount : U32
  mounts : U64 → Option JarfsMount
  files : U64 → Option JarfsFile
  written : List (U64 × Superblock)

namespace Machine

/-- The statics at the start, and no block. -/
def initial : Machine where
  mountList := 0
  mountCount := 0
  mounts := fun _ => none
  files := fun _ => none
  written := []

def setMount (s : Machine) (p : U64) (m : Option JarfsMount) : Machine :=
  { s with mounts := Function.update s.mounts p m }

def setFile (s : Machine) (p : U64) (f : Option JarfsFile) : Machine :=
  { s with files := Function.update s.files p f }

/-- The link in the mount at `p`. -/
def next (s : Machine) (p : U64) : Option U64 := (s.mounts p).map JarfsMount.next

end Machine

/-- `file` is the block `kmalloc` returns; the device is that of `mount`. -/
def jarfsOpen (file mount : U64) (device : BlockDevice) (superblock : Superblock) (flags : U32)
    (s : Machine) : U64 × Machine :=
  if file = 0 then (0, s)
  else
    let offset := superblock.inodeTableStart * jarfsBlockSize
    (file, s.setFile file (some
      { inodeNum := 1, inode := device.readInode offset, mount, flags, refcount := 1 }))

def jarfsClose (file : U64) (s : Machine) : Machine :=
  match s.files file with
  | none => s
  | some f =>
    if f.refcount - 1 = 0 then s.setFile file none
    else s.setFile file (some { f with refcount := f.refcount - 1 })

/-- `block` and `file` are what `kmalloc` returns for the mount and its root. -/
def jarfsMount (device : Option BlockDevice) (block file : U64) (s : Machine) : U64 × Machine :=
  match device with
  | none => (0, s)
  | some device =>
    if block = 0 then (0, s)
    else
      let (read, superblock) := device.readSuperblock
      let s := s.setMount block (some ⟨0, superblock, 0, 0, 0⟩)
      if read ≠ 120 then (0, s.setMount block none)
      else if superblock.magic ≠ jarfsMagic then (0, s.setMount block none)
      else
        let (root, s) := jarfsOpen file block device superblock 0 s
        let mount : JarfsMount :=
          { device := device.ptr, superblock, root, cwd := root, next := s.mountList }
        (block, { s.setMount block (some mount) with
          mountList := block, mountCount := s.mountCount + 1 })

def jarfsSync (mount : U64) (s : Machine) : JarResult × Machine :=
  match s.mounts mount with
  | none => (.inval, s)
  | some m =>
    let data := (List.finRange 120).take 112
    let superblock := m.superblock.setChecksum (calculateChecksum (data.map m.superblock))
    (.ok, { s.setMount mount (some { m with superblock }) with
      written := (m.device, superblock) :: s.written })

/-- Only called with NULL or a mount that is there. -/
def jarfsUnmount (mount : U64) (s : Machine) : JarResult × Machine :=
  match s.mounts mount with
  | none => (.inval, s)
  | some m =>
    let s := (jarfsSync mount s).2
    let s := if m.root ≠ 0 then jarfsClose m.root s else s
    (.ok, s.setMount mount none)

/-! ## The system -/

/-- The calls: of `jarfs_mount` with a device and the blocks `kmalloc` returns, and
of `jarfs_unmount`. -/
inductive Op where
  | mount (device : Option BlockDevice) (block file : U64)
  | unmount (mount : U64)

/-- The machine, and the mounts that succeeded and were not unmounted since, as
the callers know them. -/
structure System where
  machine : Machine
  mounted : List U64

namespace System

def initial : System := ⟨Machine.initial, []⟩

def step (S : System) : Op → System
  | .mount device block file =>
    let (r, s) := jarfsMount device block file S.machine
    ⟨s, if r = 0 then S.mounted else r :: S.mounted⟩
  | .unmount mount =>
    let (_, s) := jarfsUnmount mount S.machine
    ⟨s, S.mounted.erase mount⟩

/-- `kmalloc` returns NULL or a block that is not in use, and only a mounted file
system is unmounted. -/
def Legal (S : System) : Op → Prop
  | .mount _ block file =>
    S.machine.mounts block = none ∧ S.machine.files block = none ∧
      S.machine.mounts file = none ∧ S.machine.files file = none ∧ (file ≠ 0 → file ≠ block)
  | .unmount mount => mount ∈ S.mounted

/-- The list starting at `mount_list` ends at NULL and has each mount that is
mounted once and no other block, and `mount_count` is its length. -/
def ListExact (S : System) : Prop :=
  ∃ l, LinkedList.Chain 0 S.machine.next S.machine.mountList l ∧ l.Nodup ∧
    (∀ p, p ∈ l ↔ p ∈ S.mounted) ∧ S.machine.mountCount.toNat = l.length

end System

/-- The call mounts a file system. -/
def Op.Succeeds : Op → Prop
  | .mount (some device) block _ =>
    block ≠ 0 ∧ device.readSuperblock.1 = 120 ∧ device.readSuperblock.2.magic = jarfsMagic
  | _ => False

instance (op : Op) : Decidable op.Succeeds := by
  unfold Op.Succeeds
  split <;> infer_instance

def Op.isUnmount : Op → Bool
  | .mount .. => false
  | .unmount _ => true

end JarJar.Jarfs
