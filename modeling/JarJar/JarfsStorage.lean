import JarJar.JarfsRemount
import JarJar.JarfsClamp

/- The file system and its devices, over whole runs. Any number of devices are formatted,
   mounted, synced and unmounted in any order, and files are opened, read and closed in
   between; the devices have bytes, and the writes of jarfs.c change them.

   Correspondence (C ↔ Lean):
     the statics, the heap and the devices        ↔ `Storage`
     the functions of jarfs.c                     ↔ `Call`
     a call                                       ↔ `Storage.step`
     the field `position` of the file at `p`      ↔ `Storage.positions p`
     `file->mount->device`, as `jarfs_read` sees it  ↔ `Storage.opened`
   What `kmalloc` returns is an argument, and so is the position it leaves in the block of a
   file. A device reads all it is asked for and takes all of a format. Of what a sync writes
   it takes `taken` bytes, or all when there are fewer: the power may fail in between.

   What is proved: the bytes of the devices are those the formats left, whatever else is
   called (`disks_as_formatted`), and the blocks on the heap belong to each other
   (`storage_sound`). -/
namespace JarJar.Jarfs
open LittleEndian

structure Storage where
  machine : Machine
  disks : U64 → Disk
  positions : U64 → U64

/-- The calls, with the blocks `kmalloc` returns and the position it leaves in that of a
file. -/
inductive Call where
  | format (device size : U64)
  | mount (device block file stale : U64)
  | sync (mount : U64) (taken : Nat)
  | unmount (mount : U64) (taken : Nat)
  | openRoot (mount file : U64) (flags : U32) (stale : U64)
  | close (file : U64)
  | read (file buf count : U64) (heap : Nat → U8)

/-- The devices after some writes, of each of which so many bytes are taken. -/
def writeEach (taken : Write → Nat) (disks : U64 → Disk) (ws : List Write) : U64 → Disk :=
  ws.foldl (fun disks w =>
    Function.update disks w.device ((disks w.device).store w (taken w))) disks

/-- The superblock as it is on the device. -/
def Disk.superblock (disk : Disk) : Superblock := fun i => disk (0 + BitVec.ofNat 64 i)

/-- What a device holds is no file system, or one whose checksum matches. -/
def Disk.Sealed (disk : Disk) : Prop :=
  disk.superblock.magic = jarfsMagic → disk.superblock.Matches

namespace Storage

/-- The device with this address, NULL for 0. -/
def device (S : Storage) (ptr : U64) : Option BlockDevice :=
  if ptr = 0 then none else some ((S.disks ptr).device ptr)

/-- After a call that wrote to devices, which took `taken` bytes. -/
def wrote (S : Storage) (taken : Nat) (after : Machine) : Storage :=
  { S with
    machine := after
    disks := writeEach (fun _ => taken) S.disks (issued S.machine after) }

/-- The file in the block at `file`, and the device it is on. -/
def opened (S : Storage) (file : U64) : Option (OpenFile × U64) := do
  let f ← S.machine.files file
  let m ← S.machine.mounts f.mount
  some (⟨Inode.ofBytes f.inode, S.positions file⟩, m.device)

/-- What `jarfs_read` does with the file at `file`. -/
def readFile (S : Storage) (file buf count : U64) (heap : Nat → U8) :
    Option (ReadResult × OpenFile) :=
  (S.opened file).map fun f => jarfsRead (S.disks f.2) heap f.1 buf count

def step (S : Storage) : Call → Storage
  | .format device size =>
    { S with disks := writeEach (fun w => w.data.length) S.disks (jarfsFormat device size).val.2 }
  | .mount device block file stale =>
    { S with
      machine := (jarfsMount (S.device device) block file S.machine).2
      positions := Function.update S.positions file stale }
  | .sync mount taken => S.wrote taken (jarfsSync mount S.machine).2
  | .unmount mount taken => S.wrote taken (jarfsUnmount mount S.machine).2
  | .openRoot mount file flags stale =>
    match S.machine.mounts mount with
    | none => S
    | some m =>
      { S with
        machine := (jarfsOpen file mount ((S.disks m.device).device m.device) m.superblock flags
          S.machine).2
        positions := Function.update S.positions file stale }
  | .close file => { S with machine := jarfsClose file S.machine }
  | .read file buf count heap =>
    match S.readFile file buf count heap with
    | none => S
    | some r => { S with positions := Function.update S.positions file r.2.position }

/-- `sizeof(jarfs_mount_t)` and `sizeof(jarfs_file_t)`. -/
def mountSize : Nat := 192

def fileSize : Nat := 112

/-- The `n` bytes at `buf` are no bytes of a mount or of a file. -/
def Clear (S : Storage) (buf : U64) (n : Nat) : Prop :=
  (∀ p, S.machine.mounts p ≠ none →
    p.toNat + mountSize ≤ buf.toNat ∨ buf.toNat + n ≤ p.toNat) ∧
  ∀ p, S.machine.files p ≠ none → p.toNat + fileSize ≤ buf.toNat ∨ buf.toNat + n ≤ p.toNat

/-- What the callers see to: `kmalloc` returns NULL or a block that is not in use, nothing
that was given back is used, no mounted device is formatted, only a file system whose files
are closed is unmounted, its root is left to it, and what is read goes to memory that is not
a mount or a file. -/
def Legal (S : Storage) : Call → Prop
  | .format device _ => ∀ p m, S.machine.mounts p = some m → m.device ≠ device
  | .mount _ block file _ =>
    S.machine.mounts block = none ∧ S.machine.files block = none ∧
      S.machine.mounts file = none ∧ S.machine.files file = none ∧ (file ≠ 0 → file ≠ block)
  | .sync mount _ => S.machine.mounts mount ≠ none
  | .unmount mount _ => ∃ m, S.machine.mounts mount = some m ∧
      ∀ p f, S.machine.files p = some f → f.mount = mount → p = m.root
  | .openRoot mount file _ _ =>
    S.machine.mounts mount ≠ none ∧ S.machine.mounts file = none ∧ S.machine.files file = none
  | .close file =>
    S.machine.files file ≠ none ∧ ∀ p m, S.machine.mounts p = some m → m.root ≠ file
  | .read file buf count heap =>
    S.machine.files file ≠ none ∧
      ∀ r, S.readFile file buf count heap = some r → S.Clear buf r.1.stored.length

/-- Nothing is mounted or open, and the devices hold no file system or a sealed one. -/
structure Start (S : Storage) : Prop where
  mounts : ∀ p, S.machine.mounts p = none
  files : ∀ p, S.machine.files p = none
  sealed : ∀ d, (S.disks d).Sealed

end Storage

/-- The bytes of the devices if formats are the only calls that change them. -/
def formatOnly (disks : U64 → Disk) : Call → U64 → Disk
  | .format device size =>
    writeEach (fun w => w.data.length) disks (jarfsFormat device size).val.2
  | _ => disks

/-! ## Bytes that are there already -/

theorem setChecksum_computed {sb : Superblock} (h : sb.Matches) : sb.setChecksum sb.computed = sb := by
  funext i
  rw [Superblock.setChecksum]
  split
  · next hi =>
    have hlt := i.isLt
    have hbyte : byteOf sb.checksum (i.val - 112) = sb.checksumByte (i.val - 112) := by
      rw [Superblock.checksum_eq_word64, word64_spells.byteOf (by omega)]
    rw [← h]
    calc byteOf sb.checksum (i.val - 112) = sb.checksumByte (i.val - 112) := hbyte
      _ = sb ⟨112 + (i.val - 112), by omega⟩ := dif_pos (by omega)
      _ = sb i := congrArg sb (Fin.ext (by simp only []; omega))
  · rfl

theorem store_superblock (disk : Disk) (device : U64) (n : Nat) :
    disk.store (disk.superblock.write device) n = disk := by
  funext a
  rw [Disk.store]
  split
  · next hk =>
    have hlt : (a - 0).toNat < 120 := by
      have hlength := write_length disk.superblock device
      have hoffset : (disk.superblock.write device).offset = 0 := rfl
      rw [hlength, hoffset] at hk
      omega
    have hback : BitVec.ofNat 64 (a - 0).toNat = a := by
      rw [BitVec.ofNat_toNat, BitVec.setWidth_eq]
      exact BitVec.sub_zero a
    show ((List.finRange 120).map disk.superblock).getD (a - 0).toNat 0 = disk a
    rw [List.getD_eq_getElem _ _ (by simpa using hlt), List.getElem_map, List.getElem_finRange]
    show disk (0 + BitVec.ofNat 64 (a - 0).toNat) = disk a
    rw [hback]
    exact congrArg disk (BitVec.zero_add a)
  · rfl

/-! ## The calls -/

section
variable {S : Storage} {s : Machine} {m : JarfsMount} {mount device size : U64}

theorem jarfsSync_eq (hm : s.mounts mount = some m) (hmatches : m.superblock.Matches) :
    (jarfsSync mount s).2 = { s with written := (m.device, m.superblock) :: s.written } := by
  have hsame : m.superblock.setChecksum
      (calculateChecksum (((List.finRange 120).take 112).map m.superblock)) = m.superblock :=
    setChecksum_computed hmatches
  rw [jarfsSync, hm]
  dsimp only
  rw [hsame, Machine.setMount, ← hm, Function.update_eq_self]

theorem issued_eq {after : Machine} {w : U64 × Superblock} (h : after.written = w :: s.written) :
    issued s after = [w.2.write w.1] := by
  rw [issued, h, List.length_cons, Nat.add_sub_cancel_left]
  rfl

/-- Writing back what a mounted device holds changes nothing. -/
theorem writeEach_issued {after : Machine} (taken : Nat)
    (hwritten : after.written = (m.device, m.superblock) :: S.machine.written)
    (hdisk : m.superblock = (S.disks m.device).superblock) :
    writeEach (fun _ => taken) S.disks (issued S.machine after) = S.disks := by
  have hsame := store_superblock (S.disks m.device) m.device taken
  rw [issued_eq hwritten, hdisk]
  show Function.update S.disks m.device
    ((S.disks m.device).store ((S.disks m.device).superblock.write m.device) taken) = S.disks
  rw [hsame, Function.update_eq_self]

theorem writeEach_full {ws : List Write} (hws : ∀ w ∈ ws, w.device = device) (disks : U64 → Disk) :
    writeEach (fun w => w.data.length) disks ws =
      Function.update disks device ((disks device).storeAll ws) := by
  induction ws generalizing disks with
  | nil => exact (Function.update_eq_self device disks).symm
  | cons w ws ih =>
    rw [List.forall_mem_cons] at hws
    show writeEach _ (Function.update disks w.device ((disks w.device).store w w.data.length)) ws = _
    rw [hws.1, ih hws.2, Function.update_idem, Function.update_self, storeAll_cons]

theorem writeEach_format (disks : U64 → Disk) :
    writeEach (fun w => w.data.length) disks (jarfsFormat device size).val.2 =
      Function.update disks device ((disks device).storeAll (jarfsFormat device size).val.2) := by
  apply writeEach_full
  by_cases hrefused : device = 0 ∨ size.toNat < 16 * 1024 * 1024
  · rw [jarfsFormat_refuses hrefused]
    exact fun w hw => absurd hw List.not_mem_nil
  · obtain ⟨hdevice, hsize⟩ := not_or.mp hrefused
    obtain ⟨-, l, offset, hval, -⟩ := jarfsFormat_holds hdevice (Nat.not_lt.mp hsize)
    rw [hval]
    exact List.forall_mem_cons.mpr ⟨rfl, List.forall_mem_singleton.mpr rfl⟩

theorem formatted_superblock (disk : Disk) (hdevice : device ≠ 0)
    (hsize : 16 * 1024 * 1024 ≤ size.toNat) :
    ∃ l : Layout, (disk.storeAll (jarfsFormat device size).val.2).superblock = l.superblock := by
  obtain ⟨l, -, -, -, hread, -⟩ := formatted_device hdevice hsize disk
  exact ⟨l, congrArg Prod.snd hread⟩

theorem sealed_format (disk : Disk) (h : disk.Sealed) (device size : U64) :
    (disk.storeAll (jarfsFormat device size).val.2).Sealed := by
  by_cases hrefused : device = 0 ∨ size.toNat < 16 * 1024 * 1024
  · rw [jarfsFormat_refuses hrefused]
    exact h
  · obtain ⟨hdevice, hsize⟩ := not_or.mp hrefused
    obtain ⟨l, hsuperblock⟩ := formatted_superblock disk hdevice (Nat.not_lt.mp hsize)
    intro _
    rw [hsuperblock]
    exact superblock_matches l

end

/-! ## What holds of every state -/

/-- The mounts hold the superblocks of their devices; a mount owns its root, and a file that
is open is open once and on a file system that is mounted. -/
structure Sound (disks : U64 → Disk) (s : Machine) : Prop where
  sealed : ∀ d, (disks d).Sealed
  shows : ∀ p m, s.mounts p = some m →
    m.superblock = (disks m.device).superblock ∧ m.superblock.magic = jarfsMagic
  root : ∀ p m, s.mounts p = some m → m.root ≠ 0 → ∃ f, s.files m.root = some f ∧ f.mount = p
  file : ∀ p f, s.files p = some f → p ≠ 0 ∧ f.refcount = 1 ∧ s.mounts f.mount ≠ none

section
variable {d : BlockDevice} {block file p : U64} {s : Machine}

theorem mountedMachine_mounts_of_ne (hp : p ≠ block) :
    (mountedMachine d block file s).mounts p = s.mounts p := Function.update_of_ne hp _ _

theorem mountedMachine_mounts_ne_none (h : s.mounts p ≠ none) :
    (mountedMachine d block file s).mounts p ≠ none := by
  by_cases hp : p = block
  · rw [hp, mountedMachine_mounts]
    exact Option.some_ne_none _
  · rw [mountedMachine_mounts_of_ne hp]
    exact h

theorem mountedMachine_files_of_ne (hp : p ≠ file) :
    (mountedMachine d block file s).files p = s.files p := by
  rw [mountedMachine]
  dsimp only
  split
  · rfl
  · exact Function.update_of_ne hp _ _

end

namespace Sound
variable {disks : U64 → Disk} {s : Machine} {device mount block file size : U64} {m : JarfsMount}

theorem checksums (h : Sound disks s) (hm : s.mounts mount = some m) : m.superblock.Matches := by
  obtain ⟨hshows, hmagic⟩ := h.shows mount m hm
  rw [hshows] at hmagic ⊢
  exact h.sealed m.device hmagic

theorem format (h : Sound disks s) (hfree : ∀ p m, s.mounts p = some m → m.device ≠ device) :
    Sound (Function.update disks device
      ((disks device).storeAll (jarfsFormat device size).val.2)) s := by
  refine ⟨fun d => ?_, fun p m hm => ?_, h.root, h.file⟩
  · by_cases hd : d = device
    · rw [hd, Function.update_self]
      exact sealed_format _ (h.sealed device) device size
    · rw [Function.update_of_ne hd]
      exact h.sealed d
  · rw [Function.update_of_ne (hfree p m hm)]
    exact h.shows p m hm

theorem mounted (h : Sound disks s) (hfile : s.files file = none)
    (hmagic : (disks device).superblock.magic = jarfsMagic) :
    Sound disks (mountedMachine ((disks device).device device) block file s) := by
  refine ⟨h.sealed, fun p m hm => ?_, fun p m hm hroot => ?_, fun p f hf => ?_⟩
  · by_cases hp : p = block
    · subst hp
      obtain rfl := Option.some.inj ((mountedMachine_mounts _ _ _ _).symm.trans hm)
      exact ⟨rfl, hmagic⟩
    · rw [mountedMachine_mounts_of_ne hp] at hm
      exact h.shows p m hm
  · by_cases hp : p = block
    · subst hp
      obtain rfl := Option.some.inj ((mountedMachine_mounts _ _ _ _).symm.trans hm)
      exact ⟨_, mountedMachine_files _ _ _ hroot, rfl⟩
    · rw [mountedMachine_mounts_of_ne hp] at hm
      obtain ⟨f, hf, hfm⟩ := h.root p m hm hroot
      refine ⟨f, ?_, hfm⟩
      rw [mountedMachine_files_of_ne, hf]
      intro heq
      rw [heq, hfile] at hf
      cases hf
  · by_cases hp : p = file ∧ file ≠ 0
    · obtain ⟨rfl, hz⟩ := hp
      obtain rfl := Option.some.inj ((mountedMachine_files _ _ _ hz).symm.trans hf)
      refine ⟨hz, rfl, ?_⟩
      rw [rootOf, mountedMachine_mounts]
      exact Option.some_ne_none _
    · have hold : s.files p = some f := by
        rw [mountedMachine] at hf
        dsimp only at hf
        split at hf
        · exact hf
        · next hz =>
          rw [Function.update_of_ne fun heq => hp ⟨heq, hz⟩] at hf
          exact hf
      obtain ⟨hz, hcount, hlive⟩ := h.file p f hold
      exact ⟨hz, hcount, mountedMachine_mounts_ne_none hlive⟩

theorem opened (h : Sound disks s) (hm : s.mounts mount = some m) (hfile : s.files file = none)
    (device : BlockDevice) (flags : U32) :
    Sound disks (jarfsOpen file mount device m.superblock flags s).2 := by
  rw [jarfsOpen]
  split
  · exact h
  · next hz =>
    refine ⟨h.sealed, h.shows, fun p m hm hroot => ?_, fun p f hf => ?_⟩
    · obtain ⟨f, hf, hfm⟩ := h.root p m hm hroot
      refine ⟨f, (Function.update_of_ne ?_ _ _).trans hf, hfm⟩
      intro heq
      rw [heq, hfile] at hf
      cases hf
    · by_cases hp : p = file
      · subst hp
        obtain rfl := Option.some.inj ((Function.update_self p _ _).symm.trans hf)
        refine ⟨hz, rfl, ?_⟩
        show s.mounts mount ≠ none
        rw [hm]
        exact Option.some_ne_none _
      · exact h.file p f ((Function.update_of_ne hp _ _).symm.trans hf)

theorem close_eq (h : Sound disks s) {f : JarfsFile} (hf : s.files file = some f) :
    jarfsClose file s = s.setFile file none := by
  have hlast : f.refcount - 1 = 0 := by
    rw [(h.file file f hf).2.1]
    rfl
  rw [jarfsClose, hf]
  exact if_pos hlast

theorem closed (h : Sound disks s) (hlive : s.files file ≠ none)
    (hroot : ∀ p m, s.mounts p = some m → m.root ≠ file) : Sound disks (jarfsClose file s) := by
  obtain ⟨f, hf⟩ := Option.ne_none_iff_exists'.mp hlive
  rw [h.close_eq hf]
  refine ⟨h.sealed, h.shows, fun p m hm hz => ?_, fun p f hp => ?_⟩
  · obtain ⟨g, hg, hgm⟩ := h.root p m hm hz
    exact ⟨g, (Function.update_of_ne (hroot p m hm) _ _).trans hg, hgm⟩
  · by_cases hsame : p = file
    · subst hsame
      have hgone : (s.setFile p none).files p = none := Function.update_self _ _ _
      cases hgone.symm.trans hp
    · exact h.file p f ((Function.update_of_ne hsame _ _).symm.trans hp)

theorem unmount_eq (h : Sound disks s) (hm : s.mounts mount = some m) :
    (jarfsUnmount mount s).2 =
      { s with
        mounts := Function.update s.mounts mount none
        files := if m.root = 0 then s.files else Function.update s.files m.root none
        written := (m.device, m.superblock) :: s.written } := by
  rw [jarfsUnmount, hm]
  dsimp only
  rw [jarfsSync_eq hm (h.checksums hm)]
  by_cases hroot : m.root = 0
  · rw [if_pos hroot, if_neg (not_not.mpr hroot)]
    rfl
  · obtain ⟨f, hf, -⟩ := h.root mount m hm hroot
    have hwritten : Sound disks { s with written := (m.device, m.superblock) :: s.written } :=
      ⟨h.sealed, h.shows, h.root, h.file⟩
    rw [if_neg hroot, if_pos hroot, hwritten.close_eq hf]
    rfl

theorem unmounted (h : Sound disks s) (hm : s.mounts mount = some m)
    (halone : ∀ p f, s.files p = some f → f.mount = mount → p = m.root) :
    Sound disks (jarfsUnmount mount s).2 := by
  have hleft {p : U64} {m' : JarfsMount} (hp : Function.update s.mounts mount none p = some m') :
      p ≠ mount ∧ s.mounts p = some m' := by
    have hne : p ≠ mount := by
      rintro rfl
      rw [Function.update_self] at hp
      cases hp
    exact ⟨hne, (Function.update_of_ne hne _ _).symm.trans hp⟩
  rw [h.unmount_eq hm]
  refine ⟨h.sealed, fun p m' hp => h.shows p m' (hleft hp).2, fun p m' hp hroot => ?_,
    fun p f hf => ?_⟩
  · obtain ⟨hother, hp⟩ := hleft hp
    obtain ⟨f, hf, hfm⟩ := h.root p m' hp hroot
    refine ⟨f, ?_, hfm⟩
    dsimp only
    split
    · exact hf
    · next hz =>
      -- a root that two mounts share would be a file on both
      obtain ⟨g, hg, hgm⟩ := h.root mount m hm hz
      rw [Function.update_of_ne, hf]
      intro heq
      rw [heq, hg] at hf
      obtain rfl := Option.some.inj hf
      exact hother (hfm.symm.trans hgm)
  · have hold : s.files p = some f ∧ (m.root ≠ 0 → p ≠ m.root) := by
      dsimp only at hf
      split at hf
      · next hz => exact ⟨hf, fun hne => absurd hz hne⟩
      · have hne : p ≠ m.root := by
          rintro rfl
          rw [Function.update_self] at hf
          cases hf
        exact ⟨(Function.update_of_ne hne _ _).symm.trans hf, fun _ => hne⟩
    obtain ⟨hf, hp⟩ := hold
    obtain ⟨hz, hcount, hlive⟩ := h.file p f hf
    refine ⟨hz, hcount, ?_⟩
    dsimp only
    rw [Function.update_of_ne]
    · exact hlive
    · intro hfm
      have hroot := halone p f hf hfm
      exact hp (hroot ▸ hz) hroot

end Sound

/-! ## Runs -/

namespace Storage
variable {S : Storage}

theorem Start.sound (h : S.Start) : Sound S.disks S.machine where
  sealed := h.sealed
  shows := fun p m hm => by cases (h.mounts p).symm.trans hm
  root := fun p m hm => by cases (h.mounts p).symm.trans hm
  file := fun p f hf => by cases (h.files p).symm.trans hf

theorem mount_eq {device block file stale : U64} (hdevice : device ≠ 0) (hblock : block ≠ 0)
    (hmagic : (S.disks device).superblock.magic = jarfsMagic) :
    (S.step (.mount device block file stale)).machine =
      mountedMachine ((S.disks device).device device) block file S.machine := by
  have hsucc : (Op.mount (some ((S.disks device).device device)) block file).Succeeds :=
    ⟨hblock, rfl, hmagic⟩
  show (jarfsMount (S.device device) block file S.machine).2 = _
  rw [Storage.device, if_neg hdevice, jarfsMount_of_succeeds hsucc]

theorem mount_cases {device block file stale : U64}
    (hlegal : S.Legal (.mount device block file stale)) :
    (S.step (.mount device block file stale)).machine = S.machine ∨
      (S.step (.mount device block file stale)).machine =
          mountedMachine ((S.disks device).device device) block file S.machine ∧
        (S.disks device).superblock.magic = jarfsMagic := by
  by_cases hsucc : device ≠ 0 ∧ block ≠ 0 ∧ (S.disks device).superblock.magic = jarfsMagic
  · obtain ⟨hdevice, hblock, hmagic⟩ := hsucc
    exact Or.inr ⟨mount_eq hdevice hblock hmagic, hmagic⟩
  · left
    show (jarfsMount (S.device device) block file S.machine).2 = _
    rw [jarfsMount_of_fails hlegal.1]
    rw [Storage.device]
    split
    · exact id
    · next hdevice => exact fun hworks => hsucc ⟨hdevice, hworks.1, hworks.2.2⟩

/-- What a call does to the bytes, and that everything stays sound. -/
theorem step_sound (h : Sound S.disks S.machine) {c : Call} (hlegal : S.Legal c) :
    (S.step c).disks = formatOnly S.disks c ∧ Sound (S.step c).disks (S.step c).machine := by
  cases c with
  | format device size =>
    refine ⟨rfl, ?_⟩
    show Sound (writeEach _ S.disks _) S.machine
    rw [writeEach_format]
    exact h.format hlegal
  | mount device block file stale =>
    refine ⟨rfl, ?_⟩
    obtain hsame | ⟨hmachine, hmagic⟩ := mount_cases hlegal
    · rw [hsame]
      exact h
    · rw [hmachine]
      exact h.mounted hlegal.2.2.2.1 hmagic
  | sync mount taken =>
    obtain ⟨m, hm⟩ := Option.ne_none_iff_exists'.mp hlegal
    have hsync := jarfsSync_eq hm (h.checksums hm)
    have hdisks : (S.step (.sync mount taken)).disks = S.disks :=
      writeEach_issued taken (by rw [hsync]) (h.shows mount m hm).1
    rw [hdisks]
    refine ⟨rfl, ?_⟩
    show Sound S.disks (jarfsSync mount S.machine).2
    rw [hsync]
    exact ⟨h.sealed, h.shows, h.root, h.file⟩
  | unmount mount taken =>
    obtain ⟨m, hm, halone⟩ := hlegal
    have hdisks : (S.step (.unmount mount taken)).disks = S.disks :=
      writeEach_issued taken (by rw [h.unmount_eq hm]) (h.shows mount m hm).1
    rw [hdisks]
    exact ⟨rfl, h.unmounted hm halone⟩
  | openRoot mount file flags stale =>
    obtain ⟨hmount, -, hfile⟩ := hlegal
    obtain ⟨m, hm⟩ := Option.ne_none_iff_exists'.mp hmount
    rw [step, hm]
    exact ⟨rfl, h.opened hm hfile _ flags⟩
  | close file => exact ⟨rfl, h.closed hlegal.1 hlegal.2⟩
  | read file buf count heap =>
    rw [step]
    split
    · exact ⟨rfl, h⟩
    · exact ⟨rfl, h⟩

theorem run_sound (h : Sound S.disks S.machine) {calls : List Call}
    (hlegal : Runs.Each step Legal S calls) :
    (Runs.run step S calls).disks = Runs.run formatOnly S.disks calls ∧
      Sound (Runs.run step S calls).disks (Runs.run step S calls).machine := by
  induction calls generalizing S with
  | nil => exact ⟨rfl, h⟩
  | cons c calls ih =>
    obtain ⟨hdisks, hsound⟩ := step_sound h hlegal.1
    obtain ⟨hrun, hend⟩ := ih hsound hlegal.2
    refine ⟨?_, hend⟩
    rw [hdisks] at hrun
    exact hrun

end Storage

/-- **Only a format changes a device.** However many devices are mounted, synced, read and
unmounted, in whatever order, and even if the power fails in the middle of what a sync
writes: every device has, byte for byte, what the formats alone would have left on it. -/
theorem disks_as_formatted (S : Storage) (calls : List Call) (hstart : S.Start)
    (hlegal : Runs.Each Storage.step Storage.Legal S calls) :
    (Runs.run Storage.step S calls).disks = Runs.run formatOnly S.disks calls :=
  (Storage.run_sound hstart.sound hlegal).1

/-- No device holds anything, and nothing is mounted. -/
def blankStorage : Storage := ⟨Machine.initial, fun _ _ => 0, fun _ => 0⟩

theorem blankStorage_start : blankStorage.Start where
  mounts := fun _ => rfl
  files := fun _ => rfl
  sealed := fun _ h => absurd h (by decide : Superblock.magic (fun _ => 0) ≠ jarfsMagic)

/-- The first device is formatted and mounted. -/
def mountCalls : List Call := [.format 0x100 0x1000000, .mount 0x100 0x1000 0x2000 0]

theorem mountCalls_legal : Runs.Each Storage.step Storage.Legal blankStorage mountCalls := by
  have hnone : ∀ p, blankStorage.machine.mounts p = none := fun _ => rfl
  refine ⟨fun p m h => ?_, ⟨rfl, rfl, rfl, rfl, by decide⟩, trivial⟩
  cases (hnone p).symm.trans h

theorem blankFormatted_magic :
    ((blankStorage.step (.format 0x100 0x1000000)).disks 0x100).superblock.magic = jarfsMagic := by
  have hdevice : (0x100 : U64) ≠ 0 := by decide
  have hsize : 16 * 1024 * 1024 ≤ (0x1000000 : U64).toNat := by decide
  obtain ⟨l, hsuperblock⟩ := formatted_superblock (blankStorage.disks 0x100) hdevice hsize
  have hdisk : (blankStorage.step (.format 0x100 0x1000000)).disks 0x100 =
      (blankStorage.disks 0x100).storeAll (jarfsFormat 0x100 0x1000000).val.2 := by
    show writeEach _ blankStorage.disks _ 0x100 = _
    rw [writeEach_format, Function.update_self]
  rw [hdisk, hsuperblock]
  exact superblock_magic l

theorem mountCalls_machine : ∃ d : BlockDevice, d.ptr = 0x100 ∧
    (Runs.run Storage.step blankStorage mountCalls).machine =
      mountedMachine d 0x1000 0x2000 Machine.initial :=
  ⟨_, rfl, Storage.mount_eq (by decide) (by decide) blankFormatted_magic⟩

theorem mountCalls_mounted :
    (Runs.run Storage.step blankStorage mountCalls).machine.mounts 0x1000 ≠ none := by
  obtain ⟨d, -, hmachine⟩ := mountCalls_machine
  rw [hmachine, mountedMachine_mounts]
  exact Option.some_ne_none _

/-- The power fails in the middle of a sync, and the file system is still there. -/
theorem disks_as_formatted_sync :
    let S := Runs.run Storage.step blankStorage (mountCalls ++ [.sync 0x1000 60])
    S.disks = Runs.run formatOnly blankStorage.disks (mountCalls ++ [.sync 0x1000 60]) ∧
      (S.disks 0x100).superblock.magic = jarfsMagic := by
  intro S
  have hdisks : S.disks = Runs.run formatOnly blankStorage.disks (mountCalls ++ [.sync 0x1000 60]) :=
    disks_as_formatted blankStorage _ blankStorage_start
      (Runs.each_append.mpr ⟨mountCalls_legal, mountCalls_mounted, trivial⟩)
  refine ⟨hdisks, ?_⟩
  rw [hdisks]
  exact blankFormatted_magic

/-- **Mounts, devices and files agree.** In every state that is reached: a mount holds the
superblock that is on its device, with the right checksum; an open file has one reference and
is on a file system that is mounted; the root of a mount is open, on that mount and on no other.
So an unmount gives back a block that is in use, and when nothing is mounted no block is left. -/
theorem storage_sound (S : Storage) (calls : List Call) (hstart : S.Start)
    (hlegal : Runs.Each Storage.step Storage.Legal S calls) :
    let S' := Runs.run Storage.step S calls
    (∀ p m, S'.machine.mounts p = some m → m.superblock = (S'.disks m.device).superblock ∧
      m.superblock.Matches ∧
      (m.root ≠ 0 → ∃ f, S'.machine.files m.root = some f ∧ f.mount = p)) ∧
    (∀ p f, S'.machine.files p = some f → f.refcount = 1 ∧ S'.machine.mounts f.mount ≠ none) ∧
    ((∀ p, S'.machine.mounts p = none) → ∀ p, S'.machine.files p = none) := by
  intro S'
  obtain ⟨-, h⟩ := Storage.run_sound hstart.sound hlegal
  refine ⟨fun p m hm => ⟨(h.shows p m hm).1, h.checksums hm, h.root p m hm⟩,
    fun p f hf => (h.file p f hf).2, fun hnone p => ?_⟩
  cases hf : S'.machine.files p with
  | none => rfl
  | some f => exact absurd (hnone f.mount) (h.file p f hf).2.2

/-- The mount has the right checksum, and its root is open once. -/
theorem storage_sound_mount :
    ∃ m f, (Runs.run Storage.step blankStorage mountCalls).machine.mounts 0x1000 = some m ∧
      m.superblock.Matches ∧
      (Runs.run Storage.step blankStorage mountCalls).machine.files m.root = some f ∧
      f.mount = 0x1000 ∧ f.refcount = 1 := by
  obtain ⟨hmounts, hfiles, -⟩ :=
    storage_sound blankStorage mountCalls blankStorage_start mountCalls_legal
  obtain ⟨d, -, hmachine⟩ := mountCalls_machine
  have hm : (Runs.run Storage.step blankStorage mountCalls).machine.mounts 0x1000 =
      some (mountOf d 0x2000 Machine.initial) := by
    rw [hmachine]
    exact mountedMachine_mounts d 0x1000 0x2000 _
  obtain ⟨-, hmatches, hroot⟩ := hmounts 0x1000 _ hm
  have hfile : (0x2000 : U64) ≠ 0 := by decide
  obtain ⟨f, hf, hon⟩ := hroot hfile
  exact ⟨_, f, hm, hmatches, hf, hon, (hfiles _ f hf).1⟩

end JarJar.Jarfs
