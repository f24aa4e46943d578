import JarJar.JarfsStorage

/- What is read from a device that was formatted. No function of jarfs.c writes data, so a
   file on the device shows what its first block of data held at the format.

   What is proved (`formatted_reads`): after a format, and any calls on any devices that do
   not format this one again, every read of every file on the device delivers the bytes that
   were in the first block of the data before the format, up to the end of that block. -/
namespace JarJar.Jarfs

/-- The position `kmalloc` leaves in the block of a file that is opened. -/
def Call.stale : Call → U64
  | .mount _ _ _ stale => stale
  | .openRoot _ _ _ stale => stale
  | _ => 0

def Call.formats (c : Call) (device : U64) : Prop := ∃ size, c = .format device size

/-! ## The position -/

/-- A read does not go behind the end of the file, whatever count it is given. -/
theorem jarfsRead_position {disk : Disk} {heap : Nat → U8} {file : OpenFile} {buf count : U64}
    (hpos : file.position.toNat ≤ file.inode.size.toNat) :
    (jarfsRead disk heap file buf count).2.position.toNat ≤ file.inode.size.toNat := by
  have hwide : (file.inode.size.setWidth 64).toNat = file.inode.size.toNat := by
    have hlt := file.inode.size.isLt
    rw [BitVec.toNat_setWidth, Nat.mod_eq_of_lt (by omega)]
  have hsum : (file.position + (if file.position + count > file.inode.size.setWidth 64 then
      file.inode.size.setWidth 64 - file.position else count)).toNat ≤ file.inode.size.toNat := by
    split
    · rw [BitVec.add_comm, BitVec.sub_add_cancel, hwide]
    · next hfits =>
      rw [← hwide]
      exact Nat.le_of_not_lt hfits
  rw [jarfsRead]
  dsimp only
  generalize (if file.position + count > file.inode.size.setWidth 64 then
    file.inode.size.setWidth 64 - file.position else count) = clipped at hsum ⊢
  split
  · exact hpos
  · split
    · exact hpos
    · exact hsum

/-! ## The files of a device -/

/-- The device holds the file system with layout `l`, and the files on it are its root. -/
structure Rooted (l : Layout) (device : U64) (S : Storage) : Prop where
  superblock : (S.disks device).superblock = l.superblock
  inode : ((S.disks device).device device).readInode (l.inodeTableStart * jarfsBlockSize) =
    l.rootInode
  file : ∀ p f m, S.machine.files p = some f → S.machine.mounts f.mount = some m →
    m.device = device → f.inode = l.rootInode ∧ (S.positions p).toNat ≤ 4096

section
variable {S S' : Storage} {l : Layout} {device mount block file : U64} {m : JarfsMount}

theorem opened_eq {p : U64} {f : JarfsFile} (hf : S.machine.files p = some f)
    (hm : S.machine.mounts f.mount = some m) :
    S.opened p = some (⟨Inode.ofBytes f.inode, S.positions p⟩, m.device) := by
  simp [Storage.opened, hf, hm]

theorem Rooted.tableStart (h : Rooted l device S) (hsound : Sound S.disks S.machine)
    (hm : S.machine.mounts mount = some m) (hdevice : m.device = device) :
    m.superblock.inodeTableStart = l.inodeTableStart := by
  rw [(hsound.shows mount m hm).1, hdevice, h.superblock, superblock_inodeTableStart]

theorem Rooted.fewer (h : Rooted l device S) (hdisk : S'.disks device = S.disks device)
    (hfiles : ∀ p f, S'.machine.files p = some f →
      S.machine.files p = some f ∧ S'.positions p = S.positions p)
    (hmounts : ∀ p m, S'.machine.mounts p = some m → S.machine.mounts p = some m) :
    Rooted l device S' := by
  refine ⟨by rw [hdisk]; exact h.superblock, by rw [hdisk]; exact h.inode, fun p f m hf hm hd => ?_⟩
  obtain ⟨hf, hpos⟩ := hfiles p f hf
  rw [hpos]
  exact h.file p f m hf (hmounts _ _ hm) hd

theorem Rooted.more (file : U64) (h : Rooted l device S) (hdisk : S'.disks device = S.disks device)
    (hold : ∀ p f m, p ≠ file → S'.machine.files p = some f →
      S'.machine.mounts f.mount = some m → S.machine.files p = some f ∧
        S.machine.mounts f.mount = some m ∧ S'.positions p = S.positions p)
    (hnew : ∀ f m, S'.machine.files file = some f → S'.machine.mounts f.mount = some m →
      m.device = device → f.inode = l.rootInode ∧ (S'.positions file).toNat ≤ 4096) :
    Rooted l device S' := by
  refine ⟨by rw [hdisk]; exact h.superblock, by rw [hdisk]; exact h.inode, fun p f m hf hm hd => ?_⟩
  by_cases hp : p = file
  · subst hp
    exact hnew f m hf hm hd
  · obtain ⟨hf, hm, hpos⟩ := hold p f m hp hf hm
    rw [hpos]
    exact h.file p f m hf hm hd

theorem Rooted.mounted (h : Rooted l device S) (hsound : Sound S.disks S.machine) {ptr : U64}
    (hlegal : S.Legal (.mount ptr block file 0)) :
    Rooted l device (S.step (.mount ptr block file 0)) := by
  have hzero : ((S.step (.mount ptr block file 0)).positions file).toNat ≤ 4096 := by
    show (Function.update S.positions file 0 file).toNat ≤ 4096
    rw [Function.update_self]
    decide
  have hpositions (p : U64) (hp : p ≠ file) :
      (S.step (.mount ptr block file 0)).positions p = S.positions p :=
    Function.update_of_ne hp _ _
  have hcases := Storage.mount_cases hlegal
  obtain ⟨hblock, -, -, hfile, -⟩ := hlegal
  refine h.more file rfl (fun p f m hp hf hm => ?_) (fun f m hf hm hd => ⟨?_, hzero⟩)
  · obtain hsame | ⟨hmachine, -⟩ := hcases
    · rw [hsame] at hf hm
      exact ⟨hf, hm, hpositions p hp⟩
    · rw [hmachine, mountedMachine_files_of_ne hp] at hf
      have hne : f.mount ≠ block := fun heq => (hsound.file p f hf).2.2 (heq ▸ hblock)
      rw [hmachine, mountedMachine_mounts_of_ne hne] at hm
      exact ⟨hf, hm, hpositions p hp⟩
  · obtain hsame | ⟨hmachine, -⟩ := hcases
    · rw [hsame, hfile] at hf
      cases hf
    · have hz : file ≠ 0 := by
        rintro rfl
        rw [hmachine, mountedMachine, if_pos rfl, hfile] at hf
        cases hf
      rw [hmachine, mountedMachine_files _ _ _ hz] at hf
      obtain rfl := Option.some.inj hf
      rw [rootOf, hmachine, mountedMachine_mounts] at hm
      obtain rfl := Option.some.inj hm
      obtain rfl : ptr = device := hd
      exact rootOf_inode block (Prod.ext rfl h.superblock) h.inode

theorem Rooted.opened (h : Rooted l device S) (hsound : Sound S.disks S.machine) {flags : U32}
    (hlegal : S.Legal (.openRoot mount file flags 0)) :
    Rooted l device (S.step (.openRoot mount file flags 0)) := by
  obtain ⟨hmount, -, hfile⟩ := hlegal
  obtain ⟨m, hm⟩ := Option.ne_none_iff_exists'.mp hmount
  rw [Storage.step, hm]
  dsimp only
  rw [jarfsOpen]
  split
  · refine h.fewer rfl (fun p f hf => ⟨hf, ?_⟩) fun p m hm => hm
    have hne : p ≠ file := by
      rintro rfl
      rw [hfile] at hf
      cases hf
    exact Function.update_of_ne hne _ _
  · refine h.more file rfl (fun p f m hp hf hm => ?_) (fun f m' hf hm' hd => ?_)
    · exact ⟨(Function.update_of_ne hp _ _).symm.trans hf, hm, Function.update_of_ne hp _ _⟩
    · obtain rfl := Option.some.inj ((Function.update_self file _ _).symm.trans hf)
      obtain rfl := Option.some.inj (hm.symm.trans hm')
      subst hd
      refine ⟨?_, ?_⟩
      · show ((S.disks m.device).device m.device).readInode _ = _
        rw [h.tableStart hsound hm rfl, h.inode]
      · show (Function.update S.positions file 0 file).toNat ≤ 4096
        rw [Function.update_self]
        decide

theorem Rooted.step (h : Rooted l device S) (hsound : Sound S.disks S.machine) {c : Call}
    (hlegal : S.Legal c) (hother : ¬ c.formats device) (hfresh : c.stale = 0) :
    Rooted l device (S.step c) := by
  cases c with
  | format other size =>
    have hne : device ≠ other := fun heq => hother ⟨size, by rw [heq]⟩
    refine h.fewer ?_ (fun p f hf => ⟨hf, rfl⟩) fun p m hm => hm
    show writeEach _ S.disks _ device = S.disks device
    rw [writeEach_format, Function.update_of_ne hne]
  | mount ptr block file stale =>
    obtain rfl : stale = 0 := hfresh
    exact h.mounted hsound hlegal
  | sync mount taken =>
    obtain ⟨m, hm⟩ := Option.ne_none_iff_exists'.mp hlegal
    have hdisks := (Storage.step_sound hsound (c := .sync mount taken) hlegal).1
    have hmachine : (S.step (.sync mount taken)).machine =
        { S.machine with written := (m.device, m.superblock) :: S.machine.written } :=
      jarfsSync_eq hm (hsound.checksums hm)
    refine h.fewer (congrFun hdisks device) (fun p f hf => ⟨?_, rfl⟩) fun p m hm => ?_
    · rw [hmachine] at hf
      exact hf
    · rw [hmachine] at hm
      exact hm
  | unmount mount taken =>
    have hdisks := (Storage.step_sound hsound (c := .unmount mount taken) hlegal).1
    obtain ⟨m, hm, -⟩ := hlegal
    have hmachine : (S.step (.unmount mount taken)).machine = _ := hsound.unmount_eq hm
    refine h.fewer (congrFun hdisks device) (fun p f hf => ⟨?_, rfl⟩) fun p m' hm' => ?_
    · rw [hmachine] at hf
      dsimp only at hf
      split at hf
      · exact hf
      · rw [Function.update_apply] at hf
        split at hf
        · cases hf
        · exact hf
    · rw [hmachine] at hm'
      dsimp only at hm'
      rw [Function.update_apply] at hm'
      split at hm'
      · cases hm'
      · exact hm'
  | openRoot mount file flags stale =>
    obtain rfl : stale = 0 := hfresh
    exact h.opened hsound hlegal
  | close file =>
    obtain ⟨f, hf⟩ := Option.ne_none_iff_exists'.mp hlegal.1
    have hmachine : (S.step (.close file)).machine = S.machine.setFile file none :=
      hsound.close_eq hf
    refine h.fewer rfl (fun p f hf => ⟨?_, rfl⟩) fun p m hm => ?_
    · rw [hmachine, Machine.setFile] at hf
      dsimp only at hf
      rw [Function.update_apply] at hf
      split at hf
      · cases hf
      · exact hf
    · rw [hmachine] at hm
      exact hm
  | read file buf count heap =>
    rw [Storage.step]
    cases hr : S.readFile file buf count heap with
    | none => exact h
    | some r =>
      refine h.more file rfl
        (fun p f m hp hf hm => ⟨hf, hm, Function.update_of_ne hp _ _⟩) fun f m hf hm hd => ?_
      obtain ⟨hinode, hpos⟩ := h.file file f m hf hm hd
      refine ⟨hinode, ?_⟩
      have hopened : S.opened file = some (⟨Inode.ofBytes f.inode, S.positions file⟩, m.device) :=
        opened_eq hf hm
      rw [Storage.readFile, hopened] at hr
      obtain rfl := Option.some.inj hr
      have hsize : (Inode.ofBytes f.inode).size = 4096 := by rw [hinode, rootInode_size]
      dsimp only
      rw [Function.update_self]
      exact (jarfsRead_position (by rw [hsize]; exact hpos)).trans (by rw [hsize]; exact Nat.le_refl _)

/-- Calls that do not format a device do not change it. -/
theorem disks_run (hsound : Sound S.disks S.machine) {calls : List Call}
    (hlegal : Runs.Each Storage.step Storage.Legal S calls)
    (hother : ∀ c ∈ calls, ¬ c.formats device) :
    (Runs.run Storage.step S calls).disks device = S.disks device := by
  induction calls generalizing S with
  | nil => rfl
  | cons c calls ih =>
    obtain ⟨hformat, hothers⟩ := List.forall_mem_cons.mp hother
    obtain ⟨hdisks, hnext⟩ := Storage.step_sound hsound hlegal.1
    refine (ih hnext hlegal.2 hothers).trans ?_
    rw [hdisks]
    cases c with
    | format other size =>
      have hne : device ≠ other := fun heq => hformat ⟨size, by rw [heq]⟩
      rw [formatOnly, writeEach_format, Function.update_of_ne hne]
    | _ => rfl

theorem Rooted.run (h : Rooted l device S) (hsound : Sound S.disks S.machine) {calls : List Call}
    (hlegal : Runs.Each Storage.step Storage.Legal S calls)
    (hother : ∀ c ∈ calls, ¬ c.formats device ∧ c.stale = 0) :
    Rooted l device (Runs.run Storage.step S calls) := by
  induction calls generalizing S with
  | nil => exact h
  | cons c calls ih =>
    obtain ⟨⟨hformat, hstale⟩, hothers⟩ := List.forall_mem_cons.mp hother
    exact ih (h.step hsound hlegal.1 hformat hstale) (Storage.step_sound hsound hlegal.1).2
      hlegal.2 hothers

/-- A format leaves its layout on the device, no file, and the data as they were. -/
theorem Rooted.formatted {size : U64} (hdevice : device ≠ 0)
    (hsize : 16 * 1024 * 1024 ≤ size.toNat) (hlegal : S.Legal (.format device size)) :
    ∃ l : Layout, l.dataStart.toNat = dataStartOf size.toNat ∧
      Rooted l device (S.step (.format device size)) ∧
      ∀ i < 4096, (S.step (.format device size)).disks device
          (BitVec.ofNat 64 (dataStartOf size.toNat * 4096 + i)) =
        S.disks device (BitVec.ofNat 64 (dataStartOf size.toNat * 4096 + i)) := by
  obtain ⟨l, hwrites, hsound, hdata, hsuperblock, hinode⟩ :=
    formatted_device hdevice hsize (S.disks device)
  have hdisks : (S.step (.format device size)).disks device =
      (S.disks device).storeAll (jarfsFormat device size).val.2 := by
    show writeEach _ S.disks _ device = _
    rw [writeEach_format, Function.update_self]
  refine ⟨l, hdata, ⟨?_, ?_, fun p f m hf hm hd => absurd hd (hlegal _ m hm)⟩, fun i hi => ?_⟩
  · rw [hdisks]
    exact congrArg Prod.snd hsuperblock
  · rw [hdisks]
    exact hinode
  · rw [hdisks, hwrites]
    apply storeAll_of_not_covers
    have hlt := size.isLt
    obtain ⟨hbehind, hfits⟩ := hsound.inode_inside
    have hinside := hsound.data
    have htable := hsound.inodeTable
    rw [hsound.blockCount_eq, hdata] at hinside
    rw [hdata] at htable
    have haddress : (BitVec.ofNat 64 (dataStartOf size.toNat * 4096 + i)).toNat =
        dataStartOf size.toNat * 4096 + i := by
      rw [BitVec.toNat_ofNat, Nat.mod_eq_of_lt (by omega)]
    have hstart : (l.inodeTableStart * jarfsBlockSize).toNat = l.inodeTableStart.toNat * 4096 := by
      have hblock : jarfsBlockSize.toNat = 4096 := rfl
      rw [BitVec.toNat_mul, hblock, Nat.mod_eq_of_lt (by omega)]
    have hends : (l.superblockWrite device).offset.toNat +
        (l.superblockWrite device).data.length ≤ 2^64 := by
      rw [superblockWrite_length]
      show 0 + 120 ≤ 2^64
      omega
    have hends' : (l.rootWrite device (l.inodeTableStart * jarfsBlockSize)).offset.toNat +
        (l.rootWrite device (l.inodeTableStart * jarfsBlockSize)).data.length ≤ 2^64 := by
      show (l.inodeTableStart * jarfsBlockSize).toNat + l.rootInode.length ≤ 2^64
      rw [rootInode_length, hstart]
      omega
    rw [List.forall_mem_cons, List.forall_mem_singleton, covers_iff hends, covers_iff hends',
      superblockWrite_extent, rootWrite_extent, Set.mem_Ico, Set.mem_Ico, haddress, hstart]
    exact ⟨by omega, by omega⟩

theorem rootRead (disk : Disk) (heap : Nat → U8) {f : OpenFile} {buf count : U64}
    (hinode : f.inode = Inode.ofBytes l.rootInode) (hpos : f.position.toNat ≤ 4096)
    (hdata : l.dataStart.toNat < 2^32) (hbuf : buf ≠ 0)
    (hcount : f.position.toNat + count.toNat < 2^64) :
    let r := jarfsRead disk heap f buf count
    let n := min count.toNat (4096 - f.position.toNat)
    r.1.ret = n ∧
      r.1.stored = (List.range n).map (fun i =>
        disk (BitVec.ofNat 64 (l.dataStart.toNat * 4096 + (f.position.toNat + i)))) ∧
      (∀ i ∈ r.1.touched, i < 4096) ∧ r.2.position.toNat = f.position.toNat + n := by
  intro r n
  have hsize : f.inode.size.toNat = 4096 := by
    rw [hinode, rootInode_size]
    rfl
  have hn : f.available count.toNat = n := by rw [OpenFile.available, hsize]
  have hle : f.position.toNat + n ≤ 4096 := by omega
  by_cases hzero : n = 0
  · have hread : r = (⟨0, [], []⟩, f) :=
      jarfsRead_none (by rw [hsize]; exact hpos) hbuf hcount (hn.trans hzero)
    rw [hread, hzero]
    exact ⟨rfl, rfl, fun i hi => absurd hi List.not_mem_nil, rfl⟩
  · have hread := @jarfsRead_some disk heap f buf count (by rw [hsize]; exact hpos) hbuf
      hcount (hn ▸ hzero)
    have hstart : f.position.toNat % 4096 = f.position.toNat := Nat.mod_eq_of_lt (by omega)
    rw [hn, hstart] at hread
    have hblock : (f.inode.block 0).setWidth 64 = l.dataStart := by
      have hfirst : f.inode.block 0 = l.dataStart.setWidth 32 := by
        rw [hinode]
        exact rootInode_block l
      apply BitVec.eq_of_toNat_eq
      rw [hfirst, BitVec.toNat_setWidth, BitVec.toNat_setWidth]
      omega
    have hbyte (i : Nat) (hi : i < n) : tempByte disk heap f (f.position.toNat + i) =
        disk (BitVec.ofNat 64 (l.dataStart.toNat * 4096 + (f.position.toNat + i))) := by
      have haddress (k : Nat) : BitVec.ofNat 64 (l.dataStart.toNat * 4096 + k) =
          l.dataStart * jarfsBlockSize + BitVec.ofNat 64 k := by
        rw [BitVec.ofNat_add, BitVec.ofNat_mul, BitVec.ofNat_toNat, BitVec.setWidth_eq]
        rfl
      rw [tempByte, if_pos (by omega), blockByte, hblock, haddress]
    have hr : r = _ := hread
    rw [hr]
    refine ⟨rfl, map_range_eq_iff.mpr hbyte, fun i hi => ?_, ?_⟩
    · obtain ⟨k, hk, rfl⟩ := List.mem_map.mp hi
      have hkn := List.mem_range.mp hk
      omega
    · show (f.position + BitVec.ofNat 64 n).toNat = _
      rw [BitVec.toNat_add, BitVec.toNat_ofNat, Nat.mod_eq_of_lt (by omega),
        Nat.mod_eq_of_lt (by omega)]

end

/-- **What a formatted device delivers.** A device below 3405971945144320 bytes is formatted in
a run, and not again; files are opened in blocks whose position is 0. Whatever else is called
on this device and on others, every read of every file on the device delivers the bytes that
were in its first block of data before the format, from the position of the file on and up to
the end of the block, and moves the position behind them. -/
theorem formatted_reads (S : Storage) (before after : List Call) (device size : U64)
    (hstart : S.Start) (hdevice : device ≠ 0) (hsize : 16 * 1024 * 1024 ≤ size.toNat)
    (hlimit : size.toNat < 3405971945144320)
    (hlegal : Runs.Each Storage.step Storage.Legal S (before ++ .format device size :: after))
    (hother : ∀ c ∈ after, ¬ c.formats device ∧ c.stale = 0) :
    let disk := (Runs.run Storage.step S before).disks device
    let S' := Runs.run Storage.step S (before ++ .format device size :: after)
    ∀ (p buf count : U64) (heap : Nat → U8) (f : OpenFile), S'.opened p = some (f, device) →
      buf ≠ 0 → f.position.toNat + count.toNat < 2^64 →
      ∃ r, S'.readFile p buf count heap = some r ∧
        let n := min count.toNat (4096 - f.position.toNat)
        r.1.ret = n ∧
        r.1.stored = (List.range n).map (fun i =>
          disk (BitVec.ofNat 64 (dataStartOf size.toNat * 4096 + (f.position.toNat + i)))) ∧
        (∀ i ∈ r.1.touched, i < 4096) ∧ r.2.position.toNat = f.position.toNat + n := by
  intro disk S' p buf count heap f hopened hbuf hcount
  obtain ⟨hbefore, hformat, hafter⟩ := Runs.each_append.mp hlegal
  obtain ⟨-, hsound⟩ := Storage.run_sound hstart.sound hbefore
  obtain ⟨l, hdata, hrooted, hkept⟩ := Rooted.formatted hdevice hsize hformat
  have hnext := (Storage.step_sound hsound hformat).2
  have hrooted' := hrooted.run hnext hafter hother
  have hdisk := disks_run hnext hafter fun c hc => (hother c hc).1
  have hS' : S' = Runs.run Storage.step ((Runs.run Storage.step S before).step
      (.format device size)) after := List.foldl_append
  rw [← hS'] at hrooted' hdisk
  obtain ⟨g, m, hg, hm, rfl, hd⟩ : ∃ g m, S'.machine.files p = some g ∧
      S'.machine.mounts g.mount = some m ∧ f = ⟨Inode.ofBytes g.inode, S'.positions p⟩ ∧
      m.device = device := by
    rw [Storage.opened] at hopened
    obtain ⟨g, hg, hopened⟩ := Option.bind_eq_some_iff.mp hopened
    obtain ⟨m, hm, hopened⟩ := Option.bind_eq_some_iff.mp hopened
    obtain ⟨rfl, rfl⟩ := Prod.mk.inj (Option.some.inj hopened)
    exact ⟨g, m, hg, hm, rfl, rfl⟩
  obtain ⟨hinode, hpos⟩ := hrooted'.file p g m hg hm hd
  have hlast : l.dataStart.toNat < 2^32 := by
    rw [hdata]
    exact (dataStartOf_lt_iff size.toNat).mpr hlimit
  refine ⟨_, by rw [Storage.readFile, hopened]; rfl, ?_⟩
  obtain ⟨hret, hstored, htouched, hmoved⟩ := rootRead (S'.disks device) heap
    (f := ⟨Inode.ofBytes g.inode, S'.positions p⟩) (congrArg Inode.ofBytes hinode) hpos hlast hbuf
    hcount
  refine ⟨hret, hstored.trans (map_range_eq_iff.mpr fun i hi => ?_), htouched, hmoved⟩
  rw [hdisk, hdata]
  exact hkept _ (by omega)

theorem opened_root {S : Storage} {d : BlockDevice} {block file : U64} {s : Machine}
    (hmachine : S.machine = mountedMachine d block file s) (hfile : file ≠ 0) :
    S.opened file = some (⟨Inode.ofBytes (rootOf d block).inode, S.positions file⟩, d.ptr) := by
  have hf : S.machine.files file = some (rootOf d block) := by
    rw [hmachine, mountedMachine_files _ _ _ hfile]
  have hm : S.machine.mounts (rootOf d block).mount = some (mountOf d file s) := by
    rw [hmachine]
    exact mountedMachine_mounts d block file s
  exact opened_eq hf hm

theorem mountCalls_position : (Runs.run Storage.step blankStorage mountCalls).positions 0x2000 = 0 := by
  have hmount (S : Storage) (ptr block file stale : U64) :
      (S.step (.mount ptr block file stale)).positions file = stale := Function.update_self _ _ _
  exact hmount _ _ _ _ _

/-- The first bytes of a device that held nothing. -/
theorem formatted_reads_blank :
    ∃ r, (Runs.run Storage.step blankStorage mountCalls).readFile 0x2000 0x5000 3 (fun _ => 7) =
      some r ∧ r.1.stored = [0, 0, 0] := by
  obtain ⟨d, hd, hmachine⟩ := mountCalls_machine
  have hopened : (Runs.run Storage.step blankStorage mountCalls).opened 0x2000 =
      some (⟨Inode.ofBytes (rootOf d 0x1000).inode, 0⟩, 0x100) := by
    rw [opened_root hmachine (by decide), hd, mountCalls_position]
  have hother : ¬ (Call.mount 0x100 0x1000 0x2000 0).formats 0x100 := by
    rintro ⟨size, h⟩
    cases h
  have hcount : (0 : U64).toNat + (3 : U64).toNat < 2^64 := by decide
  obtain ⟨r, hr, -, hstored, -⟩ := formatted_reads blankStorage [] [.mount 0x100 0x1000 0x2000 0]
    0x100 0x1000000 blankStorage_start (by decide) (by decide) (by decide) mountCalls_legal
    (List.forall_mem_singleton.mpr ⟨hother, rfl⟩) 0x2000 0x5000 3 (fun _ => 7)
    _ hopened (by decide) hcount
  exact ⟨r, hr, hstored⟩

end JarJar.Jarfs
