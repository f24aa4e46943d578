import JarJar.JarfsMounts

/- What `jarfs_mount` leaves behind when something fails. It makes two allocations
   and two reads. It checks the block of the mount, the read of the superblock and
   the magic number, and takes everything back when one of them fails. The root
   comes from `jarfs_open`: a NULL from there is stored in the mount, and the result
   of reading the inode is not looked at.

   Correspondence (C ↔ Lean):
     the result of reading an inode   ↔ `InodeDevice.inodeRead`
     `file->inode`                    ↔ `JarfsFile.inode`, read in full when 84 bytes were -/
namespace JarJar.Jarfs

/-- A device, with what reading an inode at an offset returns. -/
structure InodeDevice extends BlockDevice where
  inodeRead : U64 → Int

/-- Where `jarfs_open` reads the inode of the root. -/
def InodeDevice.rootOffset (device : InodeDevice) : U64 :=
  device.readSuperblock.2.inodeTableStart * jarfsBlockSize

/-- The call got as far as opening the root, which then failed: there was no block
for it, or its inode was not read in full. -/
def RootFails (device : Option InodeDevice) (block file : U64) : Prop :=
  ∃ d, device = some d ∧ (Op.mount (some d.toBlockDevice) block file).Succeeds ∧
    (file = 0 ∨ d.inodeRead d.rootOffset ≠ 84)

/-- `jarfs_mount` returned NULL and changed nothing. -/
def NothingChanged (r : U64) (s s' : Machine) : Prop :=
  r = 0 ∧ s'.mountList = s.mountList ∧ s'.mountCount = s.mountCount ∧
    s'.mounts = s.mounts ∧ s'.files = s.files

/-- `jarfs_mount` returned a mount, once in the list and at its head, with a root, and
both were read in full. -/
def MountedInFull (device : Option InodeDevice) (r : U64) (s s' : Machine) : Prop :=
  ∃ d m f, device = some d ∧ r ≠ 0 ∧ s'.mounts r = some m ∧
    s'.mountList = r ∧ m.next = s.mountList ∧
    (∀ l, LinkedList.Chain 0 s.next s.mountList l → LinkedList.Chain 0 s'.next r (r :: l)) ∧
    m.root ≠ 0 ∧ s'.files m.root = some f ∧
    d.readSuperblock.1 = 120 ∧ m.superblock = d.readSuperblock.2 ∧
    d.inodeRead d.rootOffset = 84 ∧ f.inode = d.readInode d.rootOffset

/-- The call did the one or the other. -/
def MountClean (device : Option InodeDevice) (block file : U64) (s : Machine) : Prop :=
  let (r, s') := jarfsMount (device.map (·.toBlockDevice)) block file s
  NothingChanged r s s' ∨ MountedInFull device r s s'

/-! ## The two ways through the call -/

section
variable {device : Option BlockDevice} {d : BlockDevice} {block file : U64} {s : Machine}

theorem setMount_freed (m : Option JarfsMount) (hfresh : s.mounts block = none) :
    (s.setMount block m).setMount block none = s := by
  rw [Machine.setMount, Machine.setMount, Function.update_idem, ← hfresh, Function.update_eq_self]

theorem jarfsMount_of_fails (hfresh : s.mounts block = none)
    (hfails : ¬ (Op.mount device block file).Succeeds) :
    jarfsMount device block file s = (0, s) := by
  cases device with
  | none => rfl
  | some d =>
    rw [jarfsMount]
    by_cases hblock : block = 0
    · rw [if_pos hblock]
    · rw [if_neg hblock]
      dsimp only
      rw [setMount_freed _ hfresh]
      by_cases hread : d.readSuperblock.1 = 120
      · rw [if_neg (not_not.mpr hread), if_pos fun hmagic => hfails ⟨hblock, hread, hmagic⟩]
      · rw [if_pos hread]

/-- The mount that is made, with the root at `file`. -/
def mountOf (d : BlockDevice) (file : U64) (s : Machine) : JarfsMount where
  device := d.ptr
  superblock := d.readSuperblock.2
  root := file
  cwd := file
  next := s.mountList

/-- The root that is opened for the mount at `block`. -/
def rootOf (d : BlockDevice) (block : U64) : JarfsFile where
  inodeNum := 1
  inode := d.readInode (d.readSuperblock.2.inodeTableStart * jarfsBlockSize)
  mount := block
  flags := 0
  refcount := 1

/-- The machine after a mount that succeeded. -/
def mountedMachine (d : BlockDevice) (block file : U64) (s : Machine) : Machine where
  mountList := block
  mountCount := s.mountCount + 1
  mounts := Function.update s.mounts block (some (mountOf d file s))
  files := if file = 0 then s.files else Function.update s.files file (some (rootOf d block))
  written := s.written

theorem jarfsMount_of_succeeds (h : (Op.mount (some d) block file).Succeeds) :
    jarfsMount (some d) block file s = (block, mountedMachine d block file s) := by
  obtain ⟨hblock, hread, hmagic⟩ := h
  rw [jarfsMount, if_neg hblock]
  dsimp only
  rw [if_neg (not_not.mpr hread), if_neg (not_not.mpr hmagic), mountedMachine, jarfsOpen]
  by_cases hfile : file = 0
  · rw [if_pos hfile, if_pos hfile, hfile]
    simp [Machine.setMount, mountOf]
  · rw [if_neg hfile, if_neg hfile]
    simp [Machine.setMount, Machine.setFile, mountOf, rootOf]

theorem mountedMachine_next (d : BlockDevice) (block file : U64) (s : Machine) :
    (mountedMachine d block file s).next = Function.update s.next block (some s.mountList) := by
  have hmounts : (mountedMachine d block file s).mounts =
      Function.update s.mounts block (some (mountOf d file s)) := rfl
  rw [next_setMount hmounts]
  rfl

theorem mountedMachine_mounts (d : BlockDevice) (block file : U64) (s : Machine) :
    (mountedMachine d block file s).mounts block = some (mountOf d file s) :=
  Function.update_self _ _ _

theorem mountedMachine_files (d : BlockDevice) (block : U64) {file : U64} (s : Machine)
    (hfile : file ≠ 0) :
    (mountedMachine d block file s).files file = some (rootOf d block) := by
  rw [mountedMachine]
  dsimp only
  rw [if_neg hfile, Function.update_self]

end

/-! ## When the outcome is clean -/

section
variable {device : Option InodeDevice} {block file : U64} {s : Machine}

theorem mountedInFull_of_root {d : InodeDevice} (hfresh : s.mounts block = none)
    (hsucc : (Op.mount (some d.toBlockDevice) block file).Succeeds) (hfile : file ≠ 0)
    (hread : d.inodeRead d.rootOffset = 84) :
    MountedInFull (some d) block s (mountedMachine d.toBlockDevice block file s) := by
  refine ⟨d, mountOf d.toBlockDevice file s, rootOf d.toBlockDevice block, rfl, hsucc.1,
    mountedMachine_mounts _ _ _ _, rfl, rfl, fun l hl => ?_, hfile, mountedMachine_files _ _ _ hfile,
    hsucc.2.1, rfl, hread, rfl⟩
  rw [mountedMachine_next]
  refine hl.push hsucc.1 fun hmem => ?_
  apply hl.node hmem
  rw [Machine.next, hfresh]
  rfl

/-- A call whose root failed leaves a mount, and not a complete one. -/
theorem not_mountClean_of_rootFails (hroot : RootFails device block file) :
    ¬ MountClean device block file s := by
  obtain ⟨d, rfl, hsucc, hfail⟩ := hroot
  rw [MountClean, Option.map_some, jarfsMount_of_succeeds hsucc]
  intro hclean
  cases hclean with
  | inl hnothing => exact hsucc.1 hnothing.1
  | inr hfull =>
    obtain ⟨d', m, f, hd', -, hm, -, -, -, hne, -, -, -, hread, -⟩ := hfull
    obtain rfl := Option.some.inj hd'
    rw [mountedMachine_mounts] at hm
    obtain rfl := Option.some.inj hm
    cases hfail with
    | inl hfile => exact hne hfile
    | inr hshort => exact hshort hread

/-- The call leaves everything as it was or mounts in full, exactly when opening the
root did not fail. -/
theorem jarfs_mount_clean_iff (device : Option InodeDevice) (block file : U64) (s : Machine)
    (mounted : List U64)
    (hlegal : System.Legal ⟨s, mounted⟩ (.mount (device.map (·.toBlockDevice)) block file)) :
    MountClean device block file s ↔ ¬ RootFails device block file := by
  have hfresh : s.mounts block = none := hlegal.1
  refine ⟨fun hclean hroot => not_mountClean_of_rootFails hroot hclean, fun hroot => ?_⟩
  by_cases hsucc : (Op.mount (device.map (·.toBlockDevice)) block file).Succeeds
  · cases device with
    | none => exact absurd hsucc id
    | some d =>
      have hfile : file ≠ 0 := fun h => hroot ⟨d, rfl, hsucc, Or.inl h⟩
      have hread : d.inodeRead d.rootOffset = 84 := by
        by_contra h
        exact hroot ⟨d, rfl, hsucc, Or.inr h⟩
      rw [MountClean, Option.map_some, jarfsMount_of_succeeds hsucc]
      exact Or.inr (mountedInFull_of_root hfresh hsucc hfile hread)
  · rw [MountClean, jarfsMount_of_fails hfresh hsucc]
    exact Or.inl ⟨rfl, rfl, rfl, rfl, rfl⟩

/-- `blankDevice`, with reads of an inode that return `n`. -/
def blankInodeDevice (n : Int) : InodeDevice := { blankDevice with inodeRead := fun _ => n }

theorem legal_blank (file : U64) (n : Int) (hfile : file ≠ 0x1000) :
    System.Legal ⟨Machine.initial, []⟩
      (.mount ((some (blankInodeDevice n)).map (·.toBlockDevice)) 0x1000 file) :=
  ⟨rfl, rfl, rfl, rfl, fun _ => hfile⟩

theorem blank_succeeds (n : Int) (file : U64) :
    (Op.mount (some (blankInodeDevice n).toBlockDevice) 0x1000 file).Succeeds := by
  refine ⟨by decide, rfl, ?_⟩
  show blankDevice.readSuperblock.2.magic = jarfsMagic
  decide

/-- Everything succeeds, and the root's inode is not read in full. -/
theorem jarfs_mount_clean_iff_blank :
    MountClean (some (blankInodeDevice 84)) 0x1000 0x2000 Machine.initial ∧
      ¬ MountClean (some (blankInodeDevice 83)) 0x1000 0x2000 Machine.initial := by
  constructor
  · refine (jarfs_mount_clean_iff (some (blankInodeDevice 84)) 0x1000 0x2000 Machine.initial []
      (legal_blank 0x2000 84 (by decide))).mpr fun hroot => ?_
    obtain ⟨d, hd, -, hfile | hread⟩ := hroot
    · exact absurd hfile (by decide)
    · obtain rfl := Option.some.inj hd
      exact hread rfl
  · intro hclean
    exact (jarfs_mount_clean_iff (some (blankInodeDevice 83)) 0x1000 0x2000 Machine.initial []
      (legal_blank 0x2000 83 (by decide))).mp hclean
      ⟨_, rfl, blank_succeeds 83 0x2000, Or.inr (by decide)⟩

/-- `kmalloc` has no block for the root, or the device fails to read its inode: the
call returns a mount all the same, without a root or with an inode nobody read. -/
theorem jarfs_mount_rootless :
    (let (r, s') := jarfsMount (some blankDevice) 0x1000 0 Machine.initial
    r = 0x1000 ∧ (s'.mounts r).map JarfsMount.root = some 0) ∧
    ¬ MountClean (some (blankInodeDevice 84)) 0x1000 0 Machine.initial ∧
    ¬ MountClean (some (blankInodeDevice (-1))) 0x1000 0x2000 Machine.initial := by
  refine ⟨⟨by decide +kernel, by decide +kernel⟩, ?_, ?_⟩
  · exact not_mountClean_of_rootFails ⟨_, rfl, blank_succeeds 84 0, Or.inl rfl⟩
  · exact not_mountClean_of_rootFails ⟨_, rfl, blank_succeeds (-1) 0x2000, Or.inr (by decide)⟩

end

end JarJar.Jarfs
