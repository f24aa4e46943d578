import JarJar.JarfsContents

/- The free space. `jarfs_get_free_space` multiplies a field of the superblock that only
   `jarfs_format` ever computes, so what it answers is decided by the size the device was
   formatted with.

   Correspondence (C ↔ Lean):
     `mount->superblock.free_blocks`   ↔ `Superblock.freeBlocks`
     `jarfs_get_free_space`            ↔ `jarfsGetFreeSpace`, NULL is `none` -/
namespace JarJar.Jarfs
open LittleEndian

/-- The field `free_blocks`, at byte 32. -/
def Superblock.freeBlocks (sb : Superblock) : U64 :=
  sb 39 ++ sb 38 ++ sb 37 ++ sb 36 ++ sb 35 ++ sb 34 ++ sb 33 ++ sb 32

def jarfsGetFreeSpace : Option JarfsMount → U64
  | none => 0
  | some mount => mount.superblock.freeBlocks * jarfsBlockSize

theorem superblock_freeBlocks (l : Layout) : l.superblock.freeBlocks = l.freeBlocks :=
  superblock_word64 (p := 32) (bytes32 jarfsMagic ++ bytes32 1 ++ bytes32 0 ++ bytes32 0 ++
    bytes64 l.blockCount ++ bytes64 l.inodeCount)
    (bytes64 l.freeInodes ++ bytes64 l.blockBitmapStart ++ bytes64 l.inodeBitmapStart ++
      bytes64 l.inodeTableStart ++ bytes64 l.dataStart ++ List.replicate 40 0)
    (by decide) (by simp [bytes32, bytes64]) (by simp only [Layout.fields, List.append_assoc])

theorem free_space_of_sound {l : Layout} {size : U64} (h : l.Sound size.toNat) :
    (l.freeBlocks * jarfsBlockSize).toNat =
        (size.toNat / 4096 - l.dataStart.toNat - 1) * 4096 ∧
      0 < (l.freeBlocks * jarfsBlockSize).toNat ∧
      (l.dataStart.toNat + 1) * 4096 + (l.freeBlocks * jarfsBlockSize).toNat ≤ size.toNat := by
  have hblock : jarfsBlockSize.toNat = 4096 := rfl
  have hlt := size.isLt
  have hpos := h.freeBlocks_pos
  have hdata := h.data
  have hfree := h.freeBlocks_eq
  rw [h.blockCount_eq] at hdata hfree
  have hbytes : (l.freeBlocks * jarfsBlockSize).toNat = l.freeBlocks.toNat * 4096 := by
    rw [BitVec.toNat_mul, hblock, Nat.mod_eq_of_lt (by omega)]
  rw [hbytes, hfree]
  exact ⟨rfl, by omega, by omega⟩

/-- **The free space of a formatted device.** Whatever is called after the format, a format of
the device itself apart, `jarfs_get_free_space` gives for every mount of the device the bytes
of its whole blocks behind the first one of the data; that is more than 0 and fits behind it. -/
theorem formatted_free_space (S : Storage) (before after : List Call) (device size : U64)
    (hstart : S.Start) (hdevice : device ≠ 0) (hsize : 16 * 1024 * 1024 ≤ size.toNat)
    (hlegal : Runs.Each Storage.step Storage.Legal S (before ++ .format device size :: after))
    (hother : ∀ c ∈ after, ¬ c.formats device) :
    ∀ p m, (Runs.run Storage.step S (before ++ .format device size :: after)).machine.mounts p =
        some m → m.device = device →
      (jarfsGetFreeSpace (some m)).toNat =
          (size.toNat / 4096 - dataStartOf size.toNat - 1) * 4096 ∧
        0 < (jarfsGetFreeSpace (some m)).toNat ∧
        (dataStartOf size.toNat + 1) * 4096 + (jarfsGetFreeSpace (some m)).toNat ≤
          size.toNat := by
  intro p m hm hd
  obtain ⟨hbefore, hformat, hafter⟩ := Runs.each_append.mp hlegal
  obtain ⟨-, hsound⟩ := Storage.run_sound hstart.sound hbefore
  have hnext := (Storage.step_sound hsound hformat).2
  have hdisk := disks_run hnext hafter hother
  have hrun : Runs.run Storage.step S (before ++ .format device size :: after) =
      Runs.run Storage.step ((Runs.run Storage.step S before).step (.format device size)) after :=
    List.foldl_append
  rw [← hrun] at hdisk
  obtain ⟨-, hsound'⟩ := Storage.run_sound hstart.sound hlegal
  obtain ⟨l, -, hl, hdata, hsuperblock, -⟩ :=
    formatted_device hdevice hsize ((Runs.run Storage.step S before).disks device)
  have hheld : m.superblock = l.superblock := by
    rw [(hsound'.shows p m hm).1, hd, hdisk]
    show (writeEach _ _ _ device).superblock = _
    rw [writeEach_format, Function.update_self]
    exact congrArg Prod.snd hsuperblock
  rw [jarfsGetFreeSpace, hheld, superblock_freeBlocks, ← hdata]
  exact free_space_of_sound hl

/-- A device of 16 MiB that was blank, formatted and mounted. -/
theorem formatted_free_space_blank : ∃ p m,
    (Runs.run Storage.step blankStorage mountCalls).machine.mounts p = some m ∧
      0 < (jarfsGetFreeSpace (some m)).toNat := by
  obtain ⟨d, hd, hmachine⟩ := mountCalls_machine
  have hm : (Runs.run Storage.step blankStorage mountCalls).machine.mounts 0x1000 =
      some (mountOf d 0x2000 blankStorage.machine) := by
    rw [hmachine]
    exact mountedMachine_mounts d 0x1000 0x2000 _
  have hdevice : (0x100 : U64) ≠ 0 := by decide
  have hsize : 16 * 1024 * 1024 ≤ (0x1000000 : U64).toNat := by decide
  have hother : ¬ (Call.mount 0x100 0x1000 0x2000 0).formats 0x100 := by
    rintro ⟨size, h⟩
    cases h
  have hspace := formatted_free_space blankStorage [] [.mount 0x100 0x1000 0x2000 0]
    0x100 0x1000000 blankStorage_start hdevice hsize mountCalls_legal
    (List.forall_mem_singleton.mpr hother) 0x1000
  have hcalls : [] ++ Call.format 0x100 0x1000000 :: [.mount 0x100 0x1000 0x2000 0] = mountCalls := rfl
  rw [hcalls] at hspace
  obtain ⟨-, hpos, -⟩ := hspace _ hm hd
  exact ⟨_, _, hm, hpos⟩

end JarJar.Jarfs
