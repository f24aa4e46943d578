import JarJar.JarfsFormat

/- The bytes of a device, and what a write does to them. A device answers every write with
   the number of bytes it took, or with a negative number; neither `jarfs_format` nor
   `jarfs_sync` looks at the answer, while `jarfs_mount` compares what its read returned.

   Correspondence (C ↔ Lean):
     what `device->write` returns            ↔ `answers`, by the number of the write
     what it leaves on the device            ↔ `Disk.store`
     the writes of a call of `jarfs_sync`    ↔ `issued`

   What is proved (`ok_means_written_iff`): `JAR_OK` means that everything was written
   exactly when the device takes all of every write. -/
namespace JarJar.Jarfs
open MachineArith

abbrev Disk := U64 → U8

/-- Address `a` is one of those the write is for. -/
def Write.Covers (w : Write) (a : U64) : Prop := (a - w.offset).toNat < w.data.length

namespace Disk

/-- The device takes the first `n` bytes of a write. -/
def store (disk : Disk) (w : Write) (n : Nat) : Disk := fun a =>
  let k := (a - w.offset).toNat
  if k < min n w.data.length then w.data.getD k 0 else disk a

/-- The writes one after the other, the first with the answer `i`. -/
def perform (answers : Nat → Int) : Nat → List Write → Disk → Disk
  | _, [], disk => disk
  | i, w :: ws, disk => perform answers (i + 1) ws (disk.store w (answers i).toNat)

/-- The writes one after the other, each in full. -/
def storeAll (disk : Disk) (ws : List Write) : Disk :=
  ws.foldl (fun disk w => disk.store w w.data.length) disk

/-- The bytes of the write are on the disk. -/
def Has (disk : Disk) (w : Write) : Prop :=
  ∀ k, k < w.data.length → disk (w.offset + BitVec.ofNat 64 k) = w.data.getD k 0

end Disk

/-- The device answers every write with its size, the first with the answer `i`. -/
def Transferred (answers : Nat → Int) : Nat → List Write → Prop
  | _, [] => True
  | i, w :: ws => answers i = w.data.length ∧ Transferred answers (i + 1) ws

/-! ## What is on the disk after some writes -/

section
variable {disk : Disk} {w : Write} {ws : List Write}

theorem store_of_not_covers {a : U64} {n : Nat} (h : ¬ w.Covers a) : disk.store w n a = disk a := by
  rw [Write.Covers] at h
  rw [Disk.store]
  exact if_neg (by omega)

theorem store_has (hlength : w.data.length ≤ 2^64) : (disk.store w w.data.length).Has w := by
  intro k hk
  have hback : (w.offset + BitVec.ofNat 64 k - w.offset).toNat = k := by
    rw [BitVec.add_comm, BitVec.add_sub_cancel, BitVec.toNat_ofNat, Nat.mod_eq_of_lt (by omega)]
  rw [Disk.store, hback, Nat.min_self]
  exact if_pos hk

theorem storeAll_cons (disk : Disk) (w : Write) (ws : List Write) :
    disk.storeAll (w :: ws) = (disk.store w w.data.length).storeAll ws := rfl

theorem storeAll_of_not_covers {a : U64} (h : ∀ w ∈ ws, ¬ w.Covers a) :
    disk.storeAll ws a = disk a := by
  induction ws generalizing disk with
  | nil => rfl
  | cons w ws ih =>
    rw [List.forall_mem_cons] at h
    rw [storeAll_cons, ih h.2, store_of_not_covers h.1]

theorem storeAll_has (hapart : ws.Pairwise fun w w' => ∀ a, w.Covers a → ¬ w'.Covers a)
    (hlength : ∀ w ∈ ws, w.data.length ≤ 2^64) : ∀ w ∈ ws, (disk.storeAll ws).Has w := by
  induction ws generalizing disk with
  | nil => simp
  | cons w ws ih =>
    rw [List.pairwise_cons] at hapart
    rw [List.forall_mem_cons] at hlength ⊢
    refine ⟨fun k hk => ?_, ih hapart.2 hlength.2⟩
    have hcovers : w.Covers (w.offset + BitVec.ofNat 64 k) := by
      rw [Write.Covers, BitVec.add_comm, BitVec.add_sub_cancel, BitVec.toNat_ofNat,
        Nat.mod_eq_of_lt (Nat.lt_of_lt_of_le hk hlength.1)]
      exact hk
    rw [storeAll_cons, storeAll_of_not_covers fun w' hw' => hapart.1 w' hw' _ hcovers]
    exact store_has hlength.1 k hk

theorem perform_eq_storeAll {answers : Nat → Int} {i : Nat} (h : Transferred answers i ws) :
    disk.perform answers i ws = disk.storeAll ws := by
  induction ws generalizing i disk with
  | nil => rfl
  | cons w ws ih => rw [Disk.perform, ih h.2, h.1, Int.toNat_natCast, storeAll_cons]

/-- What a device does not take leaves the disk alone. -/
theorem perform_of_failed {answers : Nat → Int} {i : Nat} (h : ∀ i, answers i ≤ 0) :
    disk.perform answers i ws = disk := by
  induction ws generalizing i with
  | nil => rfl
  | cons w ws ih =>
    have hnone : disk.store w (answers i).toNat = disk := by
      funext a
      rw [Disk.store, Int.toNat_of_nonpos (h i), Nat.zero_min]
      simp
    rw [Disk.perform, hnone, ih]

theorem covers_iff (hfits : w.offset.toNat + w.data.length ≤ 2^64) (a : U64) :
    w.Covers a ↔ a.toNat ∈ w.extent := by
  have ha := a.isLt
  rw [Write.Covers, Write.extent, Set.mem_Ico, BitVec.toNat_sub]
  omega

end

/-! ## The writes of a format -/

theorem superblockWrite_length (l : Layout) (device : U64) :
    (l.superblockWrite device).data.length = 120 := by
  simp [Layout.superblockWrite]

/-- The two writes are for different addresses, and both are on the disk at the end. -/
theorem format_has {l : Layout} {size : Nat} {offset : U64} (hsound : l.Sound size)
    (hsize : size < 2^64) (hoffset : offset.toNat = l.inodeTableStart.toNat * 4096)
    (device : U64) (disk : Disk) :
    ∀ w ∈ [l.superblockWrite device, l.rootWrite device offset],
      (disk.storeAll [l.superblockWrite device, l.rootWrite device offset]).Has w := by
  obtain ⟨habove, hinside⟩ := hsound.inode_inside
  have hroot : (l.rootWrite device offset).data.length = 84 := rootInode_length l
  apply storeAll_has
  · rw [List.pairwise_pair]
    intro a ha hb
    rw [covers_iff, superblockWrite_extent, Set.mem_Ico] at ha
    · rw [covers_iff, rootWrite_extent, Set.mem_Ico] at hb
      · omega
      · rw [hroot]
        show offset.toNat + 84 ≤ 2^64
        rw [hoffset]
        exact Nat.le_trans hinside (Nat.le_of_lt hsize)
    · rw [superblockWrite_length]
      show 0 + 120 ≤ 2^64
      omega
  · simp [superblockWrite_length, hroot]

/-! ## What a result says about the device -/

/-- `JAR_OK` from `jarfs_format` means that both writes were taken in full, and that the
superblock and the inode of the root are on the disk. -/
def FormatTruthful (answers : Nat → Int) (disk : Disk) (device size : U64) : Prop :=
  let (result, ws) := (jarfsFormat device size).val
  result = .ok → Transferred answers 0 ws ∧ ∃ (l : Layout) (offset : U64),
    ws = [l.superblockWrite device, l.rootWrite device offset] ∧
      (disk.perform answers 0 ws).Has (l.superblockWrite device) ∧
      (disk.perform answers 0 ws).Has (l.rootWrite device offset)

def Superblock.write (sb : Superblock) (device : U64) : Write :=
  ⟨device, 0, (List.finRange 120).map sb⟩

/-- The writes between two states. -/
def issued (before after : Machine) : List Write :=
  (after.written.take (after.written.length - before.written.length)).reverse.map fun p =>
    p.2.write p.1

/-- `JAR_OK` from `jarfs_sync` means that the superblock was taken in full and is on the
disk. -/
def SyncTruthful (answers : Nat → Int) (disk : Disk) (mount : U64) (s : Machine) : Prop :=
  let (result, s') := jarfsSync mount s
  result = .ok → Transferred answers 0 (issued s s') ∧ ∃ m, s'.mounts mount = some m ∧
    issued s s' = [m.superblock.write m.device] ∧
      (disk.perform answers 0 (issued s s')).Has (m.superblock.write m.device)

theorem formatTruthful_iff (answers : Nat → Int) (disk : Disk) (device size : U64) :
    FormatTruthful answers disk device size ↔
      device = 0 ∨ size.toNat < 16 * 1024 * 1024 ∨ answers 0 = 120 ∧ answers 1 = 84 := by
  rw [← or_assoc]
  by_cases hrefused : device = 0 ∨ size.toNat < 16 * 1024 * 1024
  · rw [FormatTruthful, jarfsFormat_refuses hrefused]
    exact ⟨fun _ => .inl hrefused, fun _ h => by cases h⟩
  · obtain ⟨hdevice, hsize⟩ := not_or.mp hrefused
    obtain ⟨-, l, offset, hval, hsound, -, -, hoffset⟩ := jarfsFormat_holds hdevice (Nat.not_lt.mp hsize)
    have htransferred :
        Transferred answers 0 [l.superblockWrite device, l.rootWrite device offset] ↔
          answers 0 = 120 ∧ answers 1 = 84 := by
      have hroot : (l.rootWrite device offset).data.length = 84 := rootInode_length l
      simp [Transferred, superblockWrite_length, hroot]
    rw [FormatTruthful, hval, or_iff_right hrefused, ← htransferred]
    refine ⟨fun h => (h rfl).1, fun h _ => ⟨h, l, offset, rfl, ?_⟩⟩
    have hhas := format_has hsound size.isLt hoffset device disk
    rw [List.forall_mem_cons, List.forall_mem_singleton] at hhas
    rw [perform_eq_storeAll h]
    exact hhas

theorem write_length (sb : Superblock) (device : U64) : (sb.write device).data.length = 120 := by
  simp [Superblock.write]

theorem issued_sync {mount : U64} {s : Machine} {m : JarfsMount} (hm : s.mounts mount = some m) :
    ∃ sb, (jarfsSync mount s).1 = .ok ∧
      (jarfsSync mount s).2.mounts mount = some { m with superblock := sb } ∧
      issued s (jarfsSync mount s).2 = [sb.write m.device] := by
  rw [jarfsSync, hm]
  refine ⟨_, rfl, Function.update_self _ _ _, ?_⟩
  simp [issued]

theorem syncTruthful_iff (answers : Nat → Int) (disk : Disk) (mount : U64) (s : Machine) :
    SyncTruthful answers disk mount s ↔ s.mounts mount = none ∨ answers 0 = 120 := by
  cases hm : s.mounts mount with
  | none =>
    rw [SyncTruthful, jarfsSync, hm]
    exact ⟨fun _ => .inl rfl, fun _ h => by cases h⟩
  | some m =>
    obtain ⟨sb, hok, hmounts, hissued⟩ := issued_sync hm
    have htransferred : Transferred answers 0 [sb.write m.device] ↔ answers 0 = 120 := by
      simp [Transferred, write_length]
    rw [SyncTruthful, or_iff_right (Option.some_ne_none m), ← htransferred]
    dsimp only
    rw [hissued]
    refine ⟨fun h => (h hok).1, fun h _ => ⟨h, _, hmounts, rfl, ?_⟩⟩
    rw [perform_eq_storeAll h]
    exact store_has (by rw [write_length]; omega)

/-- **When `JAR_OK` means that everything is written.** For every device: `jarfs_format`
refuses, or the device takes all of the superblock and of the inode; `jarfs_sync` refuses,
or the device takes all of the superblock. -/
theorem ok_means_written_iff (answers : Nat → Int) (disk : Disk) :
    (∀ device size, FormatTruthful answers disk device size ↔
      device = 0 ∨ size.toNat < 16 * 1024 * 1024 ∨ answers 0 = 120 ∧ answers 1 = 84) ∧
    (∀ mount s, SyncTruthful answers disk mount s ↔ s.mounts mount = none ∨ answers 0 = 120) :=
  ⟨formatTruthful_iff answers disk, syncTruthful_iff answers disk⟩

/-- A device on which every write fails: both calls return `JAR_OK`, and the disk is as it
was. -/
theorem ok_without_writing :
    let answers : Nat → Int := fun _ => -1
    let disk : Disk := fun _ => 0
    let s := Machine.initial.setMount 0x1000 (some ⟨0x100, fun _ => 0, 0, 0, 0⟩)
    (jarfsFormat 0x100 0x1000000).val.1 = .ok ∧
      disk.perform answers 0 (jarfsFormat 0x100 0x1000000).val.2 = disk ∧
      ¬ FormatTruthful answers disk 0x100 0x1000000 ∧
      (jarfsSync 0x1000 s).1 = .ok ∧
      disk.perform answers 0 (issued s (jarfsSync 0x1000 s).2) = disk ∧
      ¬ SyncTruthful answers disk 0x1000 s := by
  intro answers disk s
  have hfails : ∀ i, answers i ≤ 0 := fun i => by decide
  have hm : s.mounts 0x1000 = some ⟨0x100, fun _ => 0, 0, 0, 0⟩ := by
    simp [s, Machine.setMount]
  obtain ⟨sb, hok, -, -⟩ := issued_sync hm
  have hdevice : (0x100 : U64) ≠ 0 := by decide
  have hsize : 16 * 1024 * 1024 ≤ (0x1000000 : U64).toNat := by decide
  obtain ⟨-, l, offset, hval, -⟩ := jarfsFormat_holds hdevice hsize
  refine ⟨by rw [hval], perform_of_failed hfails, ?_, hok, perform_of_failed hfails, ?_⟩
  · rw [formatTruthful_iff]
    decide
  · rw [syncTruthful_iff]
    rintro (hnone | hfull)
    · exact absurd (hm.symm.trans hnone) (by simp)
    · exact absurd hfull (by decide)

end JarJar.Jarfs
