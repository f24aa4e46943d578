import JarJar.Jarfs
import Mathlib.Data.List.Induction

/- The list of mounts over whole runs. As long as nothing is unmounted every mount
   that succeeds becomes the new head of a chain. An unmounted file system stays in
   the list after its block is freed, and no later mount mends that: whatever
   comes in front, the links still run into the freed block, or, when `kmalloc`
   returns that block again, in a circle. -/
namespace JarJar.Jarfs

/-! ## What one call does to the list -/

section
variable {s s' : Machine} {block file mount r : U64} {device : Option BlockDevice}

theorem jarfsOpen_frame (file mount : U64) (device : BlockDevice) (superblock : Superblock)
    (flags : U32) (s : Machine) :
    (jarfsOpen file mount device superblock flags s).2.mounts = s.mounts ∧
      (jarfsOpen file mount device superblock flags s).2.mountList = s.mountList ∧
      (jarfsOpen file mount device superblock flags s).2.mountCount = s.mountCount := by
  unfold jarfsOpen
  split
  · exact ⟨rfl, rfl, rfl⟩
  · exact ⟨rfl, rfl, rfl⟩

theorem jarfsClose_frame (file : U64) (s : Machine) :
    (jarfsClose file s).mounts = s.mounts ∧ (jarfsClose file s).mountList = s.mountList ∧
      (jarfsClose file s).mountCount = s.mountCount := by
  unfold jarfsClose
  split
  · exact ⟨rfl, rfl, rfl⟩
  · split
    · exact ⟨rfl, rfl, rfl⟩
    · exact ⟨rfl, rfl, rfl⟩

/-- A mount that fails frees its block again; one that succeeds becomes the head of
the list. -/
theorem jarfsMount_cases (h : jarfsMount device block file s = (r, s'))
    (hfresh : s.mounts block = none) :
    (¬ (Op.mount device block file).Succeeds ∧ r = 0 ∧ s'.mounts = s.mounts ∧
      s'.mountList = s.mountList ∧ s'.mountCount = s.mountCount) ∨
    ((Op.mount device block file).Succeeds ∧ r = block ∧
      (∃ m : JarfsMount, m.next = s.mountList ∧ s'.mounts = Function.update s.mounts block (some m)) ∧
      s'.mountList = block ∧ s'.mountCount = s.mountCount + 1) := by
  have freed : ∀ m, ((s.setMount block m).setMount block none).mounts = s.mounts := by
    intro m
    show Function.update (Function.update s.mounts block m) block none = s.mounts
    rw [Function.update_idem, ← hfresh, Function.update_eq_self]
  cases device with
  | none =>
    obtain ⟨rfl, rfl⟩ := Prod.mk.inj h
    exact Or.inl ⟨id, rfl, rfl, rfl, rfl⟩
  | some device =>
    rw [jarfsMount] at h
    by_cases hblock : block = 0
    · rw [if_pos hblock] at h
      obtain ⟨rfl, rfl⟩ := Prod.mk.inj h
      exact Or.inl ⟨fun hs => hs.1 hblock, rfl, rfl, rfl, rfl⟩
    · rw [if_neg hblock] at h
      dsimp only at h
      by_cases hread : device.readSuperblock.1 = 120
      · rw [if_neg (not_not.mpr hread)] at h
        by_cases hmagic : device.readSuperblock.2.magic = jarfsMagic
        · rw [if_neg (not_not.mpr hmagic)] at h
          obtain ⟨hmounts, hlist, hcount⟩ := jarfsOpen_frame file block device
            device.readSuperblock.2 0 (s.setMount block (some ⟨0, device.readSuperblock.2, 0, 0, 0⟩))
          generalize jarfsOpen file block device device.readSuperblock.2 0
            (s.setMount block (some ⟨0, device.readSuperblock.2, 0, 0, 0⟩)) = opened at *
          obtain ⟨rfl, rfl⟩ := Prod.mk.inj h
          have hupdate : ∀ m : JarfsMount, (opened.2.setMount block (some m)).mounts =
              Function.update s.mounts block (some m) := by
            intro m
            show Function.update opened.2.mounts block (some m) = _
            rw [hmounts]
            exact Function.update_idem _ _ _
          exact Or.inr ⟨⟨hblock, hread, hmagic⟩, rfl, ⟨_, hlist, hupdate _⟩, rfl,
            congrArg (· + 1) hcount⟩
        · rw [if_pos hmagic] at h
          obtain ⟨rfl, rfl⟩ := Prod.mk.inj h
          exact Or.inl ⟨fun hs => hmagic hs.2.2, rfl, freed _, rfl, rfl⟩
      · rw [if_pos hread] at h
        obtain ⟨rfl, rfl⟩ := Prod.mk.inj h
        exact Or.inl ⟨fun hs => hread hs.2.1, rfl, freed _, rfl, rfl⟩

theorem jarfsUnmount_frame {r : JarResult} (h : jarfsUnmount mount s = (r, s'))
    (hmount : s.mounts mount ≠ none) :
    r = .ok ∧ s'.mounts = Function.update s.mounts mount none ∧ s'.mountList = s.mountList ∧
      s'.mountCount = s.mountCount := by
  obtain ⟨m, hm⟩ := Option.ne_none_iff_exists'.mp hmount
  have hsync : (jarfsSync mount s).2.mountList = s.mountList ∧
      (jarfsSync mount s).2.mountCount = s.mountCount ∧
      ∃ m', (jarfsSync mount s).2.mounts = Function.update s.mounts mount m' := by
    rw [jarfsSync, hm]
    exact ⟨rfl, rfl, _, rfl⟩
  obtain ⟨hlist, hcount, m', hmounts⟩ := hsync
  rw [jarfsUnmount, hm] at h
  obtain ⟨rfl, rfl⟩ := Prod.mk.inj h
  have hframe : ∀ t : Machine, t.mounts = Function.update s.mounts mount m' →
      t.mountList = s.mountList → t.mountCount = s.mountCount →
      (t.setMount mount none).mounts = Function.update s.mounts mount none ∧
        (t.setMount mount none).mountList = s.mountList ∧
        (t.setMount mount none).mountCount = s.mountCount := by
    intro t ht hl hc
    refine ⟨?_, hl, hc⟩
    show Function.update t.mounts mount none = _
    rw [ht, Function.update_idem]
  refine ⟨rfl, ?_⟩
  split
  · obtain ⟨hm', hl', hc'⟩ := jarfsClose_frame m.root (jarfsSync mount s).2
    exact hframe _ (hm'.trans hmounts) (hl'.trans hlist) (hc'.trans hcount)
  · exact hframe _ hmounts hlist hcount

theorem next_setMount {m : Option JarfsMount}
    (h : s'.mounts = Function.update s.mounts block m) :
    s'.next = Function.update s.next block (m.map JarfsMount.next) := by
  funext p
  rw [Machine.next, h]
  by_cases hp : p = block
  · rw [hp, Function.update_self, Function.update_self]
  · rw [Function.update_of_ne hp, Function.update_of_ne hp]
    rfl

end

/-! ## Whole runs -/

/-- What holds after a run: the counter counts the mounts that succeeded, the
mounted blocks are the live ones, and there is a chain of all of them as long as
nothing was unmounted, and none afterwards. -/
structure MountInv (ops : List Op) (S : System) : Prop where
  count : S.machine.mountCount = BitVec.ofNat 32 (ops.countP (fun op => op.Succeeds))
  live : ∀ p, p ∈ S.mounted ↔ S.machine.next p ≠ none
  nonnull : 0 ∉ S.mounted
  distinct : S.mounted.Nodup
  chain : (∀ op ∈ ops, op.isUnmount = false) →
    LinkedList.Chain 0 S.machine.next S.machine.mountList S.mounted ∧
      S.mounted.length = ops.countP (fun op => op.Succeeds)
  broken : (∃ op ∈ ops, op.isUnmount = true) →
    ∀ l, ¬ LinkedList.Chain 0 S.machine.next S.machine.mountList l

theorem MountInv.initial : MountInv [] System.initial where
  count := rfl
  live := fun p => ⟨fun h => absurd h List.not_mem_nil, fun h => absurd rfl h⟩
  nonnull := List.not_mem_nil
  distinct := List.nodup_nil
  chain := fun _ => ⟨rfl, rfl⟩
  broken := by
    intro h
    obtain ⟨op, hop, -⟩ := h
    exact absurd hop List.not_mem_nil

section
variable {ops : List Op} {S : System}

theorem unmounted_before {device : Option BlockDevice} {block file : U64}
    (hex : ∃ op ∈ ops ++ [.mount device block file], op.isUnmount = true) :
    ∃ op ∈ ops, op.isUnmount = true := by
  obtain ⟨op, hop, hb⟩ := hex
  cases List.mem_append.mp hop with
  | inl hold => exact ⟨op, hold, hb⟩
  | inr hnew =>
    obtain rfl := List.mem_singleton.mp hnew
    cases hb

theorem countP_of_fails (ops : List Op) {op : Op} (h : ¬ op.Succeeds) :
    (ops ++ [op]).countP (fun op => op.Succeeds) = ops.countP (fun op => op.Succeeds) := by
  rw [List.countP_append, List.countP_singleton, if_neg (by simpa using h), Nat.add_zero]

theorem countP_of_succeeds (ops : List Op) {op : Op} (h : op.Succeeds) :
    (ops ++ [op]).countP (fun op => op.Succeeds) = ops.countP (fun op => op.Succeeds) + 1 := by
  rw [List.countP_append, List.countP_singleton, if_pos (by simpa using h)]

theorem Op.Succeeds.block_ne {device : Option BlockDevice} {block file : U64}
    (h : (Op.mount device block file).Succeeds) : block ≠ 0 := by
  cases device with
  | none => exact absurd h id
  | some device => exact h.1

theorem MountInv.mount_failed {device : Option BlockDevice} {block file : U64} {s' : Machine}
    (h : MountInv ops S) (hfail : ¬ (Op.mount device block file).Succeeds)
    (hmounts : s'.mounts = S.machine.mounts) (hlist : s'.mountList = S.machine.mountList)
    (hcount : s'.mountCount = S.machine.mountCount) :
    MountInv (ops ++ [.mount device block file]) ⟨s', S.mounted⟩ := by
  have hsame : s'.next = S.machine.next := by
    funext p
    rw [Machine.next, hmounts]
    rfl
  have hsteps := countP_of_fails ops hfail
  refine ⟨?_, fun p => hsame ▸ h.live p, h.nonnull, h.distinct, fun hall => ?_, fun hex => ?_⟩
  · rw [hsteps, ← h.count]
    exact hcount
  · rw [hsteps]
    show LinkedList.Chain 0 s'.next s'.mountList S.mounted ∧ _
    rw [hsame, hlist]
    exact h.chain fun op hop => hall op (List.mem_append_left _ hop)
  · show ∀ l, ¬ LinkedList.Chain 0 s'.next s'.mountList l
    rw [hsame, hlist]
    exact h.broken (unmounted_before hex)

theorem MountInv.mount_succeeded {device : Option BlockDevice} {block file : U64} {s' : Machine}
    {m : JarfsMount} (h : MountInv ops S) (hsucc : (Op.mount device block file).Succeeds)
    (hfresh : S.machine.mounts block = none) (hnext : m.next = S.machine.mountList)
    (hmounts : s'.mounts = Function.update S.machine.mounts block (some m))
    (hlist : s'.mountList = block) (hcount : s'.mountCount = S.machine.mountCount + 1) :
    MountInv (ops ++ [.mount device block file]) ⟨s', block :: S.mounted⟩ := by
  have hblock := hsucc.block_ne
  have hsteps := countP_of_succeeds ops hsucc
  have hnew : block ∉ S.mounted := by
    intro hr
    apply (h.live block).mp hr
    rw [Machine.next, hfresh]
    rfl
  have hpush : s'.next = Function.update S.machine.next block (some S.machine.mountList) := by
    rw [next_setMount hmounts, Option.map_some, hnext]
  refine ⟨?_, fun p => ?_, ?_, List.nodup_cons.mpr ⟨hnew, h.distinct⟩, fun hall => ?_, fun hex l => ?_⟩
  · show s'.mountCount = _
    rw [hcount, h.count, hsteps, BitVec.ofNat_add]
    rfl
  · show p ∈ block :: S.mounted ↔ s'.next p ≠ none
    rw [hpush]
    by_cases hp : p = block
    · subst hp
      rw [Function.update_self]
      exact ⟨fun _ => Option.some_ne_none _, fun _ => List.mem_cons_self⟩
    · rw [Function.update_of_ne hp, List.mem_cons, ← h.live p]
      exact ⟨fun hor => hor.resolve_left hp, Or.inr⟩
  · intro hz
    cases List.mem_cons.mp hz with
    | inl hr => exact hblock hr.symm
    | inr hold => exact h.nonnull hold
  · obtain ⟨hchain, hlen⟩ := h.chain fun op hop => hall op (List.mem_append_left _ hop)
    rw [hsteps]
    refine ⟨?_, congrArg (· + 1) hlen⟩
    show LinkedList.Chain 0 s'.next s'.mountList (block :: S.mounted)
    rw [hpush, hlist]
    exact hchain.push hblock hnew
  · -- a chain from the new head would go on along the old list
    show ¬ LinkedList.Chain 0 s'.next s'.mountList l
    rw [hpush, hlist]
    intro hchain
    obtain ⟨l', hl'⟩ := hchain.of_push hblock
    exact h.broken (unmounted_before hex) l' hl'

theorem MountInv.mount_step {device : Option BlockDevice} {block file : U64}
    (h : MountInv ops S) (hlegal : S.Legal (.mount device block file)) :
    MountInv (ops ++ [.mount device block file]) (S.step (.mount device block file)) := by
  rw [System.step]
  cases hm : jarfsMount device block file S.machine with
  | mk r s' =>
    dsimp only
    obtain ⟨hfail, rfl, hmounts, hlist, hcount⟩ | ⟨hsucc, rfl, ⟨m, hnext, hmounts⟩, hlist, hcount⟩ :=
      jarfsMount_cases hm hlegal.1
    · rw [if_pos rfl]
      exact h.mount_failed hfail hmounts hlist hcount
    · rw [if_neg hsucc.block_ne]
      exact h.mount_succeeded hsucc hlegal.1 hnext hmounts hlist hcount

/-- A block of the list is freed and stays in the list. -/
theorem MountInv.unmount_step {mount : U64} (h : MountInv ops S) (hlegal : S.Legal (.unmount mount)) :
    MountInv (ops ++ [.unmount mount]) (S.step (.unmount mount)) := by
  have hlive : S.machine.mounts mount ≠ none := by
    intro hn
    apply (h.live mount).mp hlegal
    rw [Machine.next, hn]
    rfl
  rw [System.step]
  cases hm : jarfsUnmount mount S.machine with
  | mk r s' =>
    dsimp only
    obtain ⟨-, hmounts, hlist, hcount⟩ := jarfsUnmount_frame hm hlive
    have hremove : s'.next = Function.update S.machine.next mount none := next_setMount hmounts
    have hfail : ¬ (Op.unmount mount).Succeeds := id
    have hsteps := countP_of_fails ops hfail
    refine ⟨?_, fun p => ?_, ?_, h.distinct.erase mount, fun hall => ?_, fun _ l => ?_⟩
    · rw [hsteps, ← h.count]
      exact hcount
    · show p ∈ S.mounted.erase mount ↔ s'.next p ≠ none
      rw [hremove, h.distinct.mem_erase_iff]
      by_cases hp : p = mount
      · subst hp
        rw [Function.update_self]
        exact ⟨fun hc => absurd rfl hc.1, fun hc => absurd rfl hc⟩
      · rw [Function.update_of_ne hp, ← h.live p]
        exact ⟨fun hc => hc.2, fun hc => ⟨hp, hc⟩⟩
    · exact fun hz => h.nonnull (List.mem_of_mem_erase hz)
    · have hlast := hall (.unmount mount) (List.mem_append_right _ List.mem_cons_self)
      cases hlast
    · show ¬ LinkedList.Chain 0 s'.next s'.mountList l
      rw [hremove, hlist]
      intro hchain
      have hold := hchain.of_remove
      by_cases hall : ∃ op ∈ ops, op.isUnmount = true
      · exact h.broken hall l hold
      · -- the list was the chain of all mounts, this one among them
        push Not at hall
        obtain ⟨hmounted, -⟩ := h.chain fun op hop => Bool.eq_false_iff.mpr (hall op hop)
        obtain rfl := hold.unique hmounted
        apply hchain.node hlegal
        exact Function.update_self _ _ _

theorem MountInv.run (hlegal : Runs.Each System.step System.Legal System.initial ops) :
    MountInv ops (Runs.run System.step System.initial ops) := by
  induction ops using List.reverseRecOn with
  | nil => exact MountInv.initial
  | append_singleton ops op ih =>
    obtain ⟨hbefore, hop, -⟩ := Runs.each_append.mp hlegal
    have hrun : Runs.run System.step System.initial (ops ++ [op]) =
        (Runs.run System.step System.initial ops).step op := by
      rw [Runs.run, List.foldl_append]
      rfl
    rw [hrun]
    cases op with
    | mount device block file => exact (ih hbefore).mount_step hop
    | unmount mount => exact (ih hbefore).unmount_step hop

end

/-- After a run the list is exact exactly when nothing was unmounted and fewer than
2^32 mounts succeeded. -/
theorem jarfs_list_iff (ops : List Op)
    (hlegal : Runs.Each System.step System.Legal System.initial ops) :
    (Runs.run System.step System.initial ops).ListExact ↔
      (∀ op ∈ ops, op.isUnmount = false) ∧ ops.countP (fun op => op.Succeeds) < 2^32 := by
  have h := MountInv.run hlegal
  generalize Runs.run System.step System.initial ops = S at h
  refine ⟨fun hexact => ?_, fun hcond => ?_⟩
  · -- an unmount would have left no chain at all
    obtain ⟨l, hchain, -, -, hcount⟩ := hexact
    have hnone : ∀ op ∈ ops, op.isUnmount = false := by
      intro op hop
      by_contra hb
      exact h.broken ⟨op, hop, Bool.not_eq_false _ ▸ hb⟩ l hchain
    obtain ⟨hmounted, hlen⟩ := h.chain hnone
    refine ⟨hnone, ?_⟩
    calc ops.countP (fun op => op.Succeeds)
        = S.mounted.length := hlen.symm
      _ = l.length := by rw [hchain.unique hmounted]
      _ = S.machine.mountCount.toNat := hcount.symm
      _ < 2^32 := S.machine.mountCount.isLt
  · obtain ⟨hmounted, hlen⟩ := h.chain hcond.1
    refine ⟨S.mounted, hmounted, h.distinct, fun p => Iff.rfl, ?_⟩
    rw [h.count, hlen, BitVec.toNat_ofNat]
    exact Nat.mod_eq_of_lt hcond.2

/-- A device with a superblock that has the magic number and zeros after it. -/
def blankDevice : BlockDevice where
  ptr := 0x100
  readSuperblock := (120, fun i =>
    if i.val = 0 then 0x56 else if i.val = 1 then 0x52 else if i.val = 2 then 0x41
    else if i.val = 3 then 0x4A else 0)
  readInode := fun _ => []

theorem legal_mount (file : U64) (hfile : file ≠ 0x1000) :
    Runs.Each System.step System.Legal System.initial [.mount (some blankDevice) 0x1000 file] :=
  ⟨⟨rfl, rfl, rfl, rfl, fun _ => hfile⟩, trivial⟩

theorem legal_mount_unmount :
    Runs.Each System.step System.Legal System.initial
      [.mount (some blankDevice) 0x1000 0x2000, .unmount 0x1000] := by
  refine ⟨(legal_mount 0x2000 (by decide)).1, ?_, trivial⟩
  show 0x1000 ∈ (System.initial.step (.mount (some blankDevice) 0x1000 0x2000)).mounted
  decide +kernel

/-- One mount, and one that is unmounted again. -/
theorem jarfs_list_iff_mount :
    (Runs.run System.step System.initial [.mount (some blankDevice) 0x1000 0x2000]).ListExact ∧
      ¬ (Runs.run System.step System.initial
        [.mount (some blankDevice) 0x1000 0x2000, .unmount 0x1000]).ListExact := by
  constructor
  · exact (jarfs_list_iff _ (legal_mount 0x2000 (by decide))).mpr
      ⟨List.forall_mem_singleton.mpr rfl, Nat.lt_of_le_of_lt List.countP_le_length (by decide)⟩
  · intro hexact
    have hnone := ((jarfs_list_iff _ legal_mount_unmount).mp hexact).1
    exact absurd (hnone (.unmount 0x1000) (by simp)) (by decide)

/-- A file system is mounted and unmounted again: the list still starts at its
block, which is freed, and the counter is still 1. -/
theorem jarfs_list_dangles :
    Runs.Each System.step System.Legal System.initial
      [.mount (some blankDevice) 0x1000 0x2000, .unmount 0x1000] ∧
    (let S := Runs.run System.step System.initial
      [.mount (some blankDevice) 0x1000 0x2000, .unmount 0x1000]
    S.machine.mountList = 0x1000 ∧ S.machine.mountCount = 1 ∧ S.machine.next 0x1000 = none ∧
      ¬ S.ListExact) := by
  refine ⟨legal_mount_unmount, by decide +kernel, by decide +kernel, by decide +kernel,
    fun hexact => ?_⟩
  obtain ⟨l, hchain, -⟩ := hexact
  exact (MountInv.run legal_mount_unmount).broken ⟨.unmount 0x1000, by simp, rfl⟩ l hchain

end JarJar.Jarfs
