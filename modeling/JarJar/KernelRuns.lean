import JarJar.KernelMemory

/- Runs of the kernel's memory: address spaces are created and fill up with mappings while
   callers outside vmm.c take pages, write to them and give them back, in any order.

   What is proved, for every run in which the allocator has a page whenever vmm.c asks for
   one: the pages free at the start are at every moment the free ones, the held ones and
   the ones under tables, no page in two places (`pages_partitioned`); and nothing the
   callers do with their pages changes what any address of any space translates to
   (`callers_touch_no_walk`). Page 0 is the allocator's failure, so it is not free at the
   start, and memory ends where the kernel's window onto it does. -/
namespace JarJar.KernelMemory
open Vmm

/-- The kernel, the address spaces `vmm_create` returned, and the pages that callers
outside vmm.c hold. -/
structure System where
  kernel : Kernel
  spaces : List VmmT
  held : List U64

/-- What may happen. `write` is a caller storing into a page as if it were a table. -/
inductive Op where
  | alloc
  | free (a : U64)
  | write (a : U64) (i : Fin 512) (e : U64)
  | create (block : U64)
  | map (k : Nat) (virt phys flags : U64)
  | switch (k : Nat)
  deriving DecidableEq

namespace System

/-- The part vmm.c works on. -/
def vm (S : System) : Vmm.System := ⟨S.kernel.vmm, S.spaces⟩

def step (S : System) : Op → System
  | .alloc =>
    let (a, pmm) := Pmm.pmmAllocPage S.kernel.pmm
    { S with kernel := { S.kernel with pmm }, held := Pmm.hold a S.held }
  | .free a =>
    let pmm := Pmm.pmmFreePage a S.kernel.pmm
    { S with kernel := { S.kernel with pmm }, held := S.held.erase a }
  | .write a i e => { S with kernel := { S.kernel with vmm := S.kernel.vmm.store (physToVirt a) i e } }
  | .create block =>
    match vmmCreate block S.kernel with
    | (none, kernel) => { S with kernel }
    | (some new, kernel) => { S with kernel, spaces := S.spaces ++ [new] }
  | .map k virt phys flags =>
    { S with kernel := (vmmMap (S.vm.space k) virt phys flags S.kernel).2 }
  | .switch k => { S with kernel := { S.kernel with vmm := vmmSwitch (S.vm.space k) S.kernel.vmm } }

/-- The pages under tables that vmm.c made. -/
def tablePages (S : System) : List U64 := S.kernel.answers.filter (· ≠ 0)

/-- Callers write to and give back what they hold, and map with plain flags. -/
def Fair (S : System) : Op → Prop
  | .free a => a ∈ S.held
  | .write a _ _ => a ∈ S.held
  | .map _ _ _ flags => FlagsIn spaceFlags flags
  | _ => True

instance (S : System) (op : Op) : Decidable (S.Fair op) := by
  cases op <;> unfold Fair <;> infer_instance

/-- Every call of `pmm_alloc_page` from vmm.c has returned a page. -/
def Served (S : System) : Prop := 0 ∉ S.kernel.answers

end System

/-- The memory a run starts on: page 0 is taken, memory ends where the window does, and the
kernel's tables are a tree none of which stands on a free page or at NULL. -/
structure Start (pmm : Pmm.Machine) (vmm : Vmm.Machine) : Prop where
  pageZero : ¬ Pmm.Free pmm 0
  window : pmm.pmm.totalPages ≤ 2^35
  fresh : vmm.allocs = 0
  tree : KernelTree vmm.mem vmm.kernelVmm.pml4
  apart : ∀ i, Pmm.Free pmm i →
    ¬ KernelTable vmm.mem vmm.kernelVmm.pml4 (physToVirt (BitVec.ofNat 64 (i * 4096)))
  null : ¬ KernelTable vmm.mem vmm.kernelVmm.pml4 0

def start (pmm : Pmm.Machine) (vmm : Vmm.Machine) : System := ⟨⟨pmm, vmm, []⟩, [], []⟩

/-- The kernel's own tables at the start. -/
abbrev Taken (vmm : Vmm.Machine) (t : U64) : Prop := KernelTable vmm.mem vmm.kernelVmm.pml4 t

/-! ## The invariant -/

/-- The allocator accounts for every page, held by callers or under a table, and the tables
stand where the address spaces have them. -/
structure Sound (pmm : Pmm.Machine) (vmm : Vmm.Machine) (S : System)
    (label : U64 → Option Place) : Prop where
  counted : S.kernel.Counted
  tracks : Pmm.Tracks pmm S.kernel.pmm (S.held ++ S.tablePages)
  owned : Owned S.kernel.supply (Taken vmm) S.vm label

theorem tracks_perm {p₀ p : Pmm.Machine} {l l' : List U64} (h : Pmm.Tracks p₀ p l)
    (hperm : l.Perm l') : Pmm.Tracks p₀ p l' where
  pmm := h.pmm
  nodup := hperm.nodup_iff.mp h.nodup
  page := fun a ha => h.page a (hperm.mem_iff.mpr ha)
  conserves := by
    have hpool : Pmm.pool p l' = Pmm.pool p l := by
      simp only [Pmm.pool, Pmm.pagesHeld, hperm.mem_iff]
    rw [hpool]
    exact h.conserves

theorem hold_append (a : U64) (l l' : List U64) : Pmm.hold a (l ++ l') = Pmm.hold a l ++ l' := by
  rw [Pmm.hold, Pmm.hold]
  split
  · rfl
  · rfl

theorem tracks_answer {p₀ p : Pmm.Machine} {held answers : List U64} (h0 : ¬ Pmm.Free p₀ 0)
    (h : Pmm.Tracks p₀ p (held ++ answers.filter (· ≠ 0))) :
    Pmm.Tracks p₀ (Pmm.pmmAllocPage p).2
      (held ++ (answers ++ [(Pmm.pmmAllocPage p).1]).filter (· ≠ 0)) := by
  have hnext := Pmm.alloc_tracks h0 h
  rw [Pmm.hold] at hnext
  rw [List.filter_append, List.filter_singleton]
  split at hnext
  · next hz => simpa [hz] using hnext
  · next hz =>
    refine tracks_perm hnext ?_
    simp only [ne_eq, hz, not_false_eq_true, decide_true]
    rw [← List.append_assoc]
    exact (List.perm_append_singleton _ _).symm

section
variable {pmm : Pmm.Machine} {vmm : Vmm.Machine} {S S' : System} {label : U64 → Option Place}

theorem page_free (ht : Pmm.Tracks pmm S.kernel.pmm (S.held ++ S.tablePages)) {a : U64}
    (ha : a ∈ S.held ++ S.tablePages) : ∃ i, Pmm.Free pmm i ∧ a = BitVec.ofNat 64 (i * 4096) := by
  obtain ⟨i, hi⟩ := ht.page a ha
  have hfree : Pmm.Free pmm i := ht.conserves.held_subset ⟨a, ha, hi⟩
  refine ⟨i, hfree, BitVec.eq_of_toNat_eq ?_⟩
  rw [hi, Pmm.pageAddr_toNat (Pmm.free_lt hfree)]

theorem supply_answers (hstart : Start pmm vmm) (hc : S.kernel.Counted)
    (ht : Pmm.Tracks pmm S.kernel.pmm (S.held ++ S.tablePages)) (hserved : S.Served) :
    Supply S.kernel.supply (fun page => Taken vmm (physToVirt page)) S.kernel.vmm.allocs := by
  have hall : S.tablePages = S.kernel.answers := by
    refine List.filter_eq_self.mpr fun a ha => decide_eq_true ?_
    rintro rfl
    exact hserved ha
  have hmem : ∀ k < S.kernel.vmm.allocs, ∃ i, Pmm.Free pmm i ∧
      S.kernel.supply k = BitVec.ofNat 64 (i * 4096) := by
    intro k hk
    rw [hc] at hk
    rw [S.kernel.supply_answer hk]
    apply page_free ht (List.mem_append_right _ _)
    rw [hall]
    exact List.getElem_mem hk
  have hnat : ∀ k < S.kernel.vmm.allocs, ∃ i, Pmm.Free pmm i ∧ 0 < i ∧
      i < 2^35 ∧ (S.kernel.supply k).toNat = i * 4096 := by
    intro k hk
    obtain ⟨i, hfree, heq⟩ := hmem k hk
    have hlt := hfree.1
    have hwin := hstart.window
    have hpos : i ≠ 0 := by
      rintro rfl
      exact hstart.pageZero hfree
    exact ⟨i, hfree, by omega, by omega, by rw [heq, Pmm.pageAddr_toNat (Pmm.free_lt hfree)]⟩
  refine ⟨fun k hk => ?_, fun k hk hz => ?_, fun k hk hz => ?_, fun k hk htaken => ?_,
    fun k hk j hj heq => ?_⟩
  · obtain ⟨i, -, -, hlt, hi⟩ := hnat k hk
    exact ⟨by omega, by omega⟩
  · obtain ⟨i, -, hpos, hlt, hi⟩ := hnat k hk
    rw [hz] at hi
    simp at hi
    omega
  · -- below 2^47 the window ends before the address space does
    obtain ⟨i, -, -, hlt, hi⟩ := hnat k hk
    have hsum := congrArg BitVec.toNat hz
    rw [physToVirt, BitVec.toNat_add, hi,
      show kernelVirtualBase.toNat = 0xFFFF800000000000 from rfl] at hsum
    simp at hsum
    omega
  · obtain ⟨i, hfree, heq⟩ := hmem k hk
    rw [heq] at htaken
    exact hstart.apart i hfree htaken
  · rw [hc] at hk
    have hnodup : S.kernel.answers.Nodup := hall ▸ (List.nodup_append.mp ht.nodup).2.1
    rw [S.kernel.supply_answer hk, S.kernel.supply_answer (by omega)] at heq
    have := (List.getElem_inj hnodup).mp heq
    omega

/-! ## Steps -/

theorem tables_congr {pages pages' : Nat → U64} {taken : U64 → Prop} {s s' : Vmm.Machine}
    (h : Tables pages taken s label) (hallocs : s'.allocs = s.allocs)
    (hpages : ∀ k < s.allocs, pages' k = pages k)
    (hmem : ∀ t l, label t = some l → s'.mem t = s.mem t) : Tables pages' taken s' label where
  forest.closed := by
    intro t l i u ht hl hu
    rw [hmem t l ht] at hu
    exact h.forest.closed ht hl hu
  live := by
    intro t l ht
    rw [hallocs]
    obtain htaken | ⟨k, hk, hpk⟩ := h.live ht
    · exact .inl htaken
    · exact .inr ⟨k, hk, by rw [hpk, hpages k hk]⟩
  decodes := by
    intro t l i ht hl hpres
    rw [hmem t l ht] at hpres ⊢
    exact h.decodes ht hl hpres

theorem supply_past {K K' : Kernel} (hanswers : K'.answers = K.answers) (hc : K.Counted) :
    ∀ k < K.vmm.allocs, K'.supply k = K.supply k := by
  intro k hk
  rw [hc] at hk
  rw [K.supply_answer hk, K'.supply_answer (by rw [hanswers]; exact hk)]
  simp only [hanswers]

theorem held_no_table (hstart : Start pmm vmm) (h : Sound pmm vmm S label) (hserved : S.Served)
    {a : U64} (ha : a ∈ S.held) : label (physToVirt a) = none := by
  apply Option.eq_none_iff_forall_ne_some.mpr
  intro l hl
  obtain htaken | ⟨k, hk, heq⟩ := h.owned.tables.live hl
  · obtain ⟨i, hfree, rfl⟩ := page_free h.tracks (List.mem_append_left _ ha)
    exact hstart.apart i hfree htaken
  · -- the answers are apart from what callers hold
    have hk' : k < S.kernel.answers.length := h.counted ▸ hk
    have hanswer : a = S.kernel.answers[k] := by
      rw [← S.kernel.supply_answer hk']
      exact physToVirt_inj heq
    have hmem : a ∈ S.tablePages := by
      have hin : a ∈ S.kernel.answers := hanswer ▸ List.getElem_mem hk'
      refine List.mem_filter.mpr ⟨hin, decide_eq_true ?_⟩
      rintro rfl
      exact hserved hin
    exact (List.nodup_append.mp h.tracks.nodup).2.2 a ha a hmem rfl

theorem space_congr (V V' : Vmm.System) (hkernel : V'.machine.kernelVmm = V.machine.kernelVmm)
    (hspaces : V'.spaces = V.spaces) (k : Nat) : V'.space k = V.space k := by
  rw [Vmm.System.space, Vmm.System.space, hkernel, hspaces]

/-- The operations of callers outside vmm.c. -/
def Op.Outside : Op → Prop
  | .alloc | .free _ | .write _ _ _ => True
  | _ => False

theorem Op.Outside.cases {op : Op} (hout : op.Outside) :
    op = .alloc ∨ (∃ a, op = .free a) ∨ ∃ a i e, op = .write a i e := by
  cases op with
  | alloc => exact .inl rfl
  | free a => exact .inr (.inl ⟨a, rfl⟩)
  | write a i e => exact .inr (.inr ⟨a, i, e, rfl⟩)
  | create block => exact hout.elim
  | map k virt phys flags => exact hout.elim
  | switch k => exact hout.elim

theorem outside_frame (hstart : Start pmm vmm) (h : Sound pmm vmm S label) (hserved : S.Served)
    {op : Op} (hout : op.Outside) (hfair : S.Fair op) :
    (S.step op).spaces = S.spaces ∧ (S.step op).kernel.answers = S.kernel.answers ∧
      (S.step op).kernel.vmm.allocs = S.kernel.vmm.allocs ∧
      (S.step op).kernel.vmm.kernelVmm = S.kernel.vmm.kernelVmm ∧
      ∀ t l, label t = some l → (S.step op).kernel.vmm.mem t = S.kernel.vmm.mem t := by
  obtain rfl | ⟨a, rfl⟩ | ⟨a, i, e, rfl⟩ := hout.cases
  · exact ⟨rfl, rfl, rfl, rfl, fun _ _ _ => rfl⟩
  · exact ⟨rfl, rfl, rfl, rfl, fun _ _ _ => rfl⟩
  · refine ⟨rfl, rfl, rfl, rfl, fun t l ht => ?_⟩
    have hne : t ≠ physToVirt a := by
      rintro rfl
      rw [held_no_table hstart h hserved hfair] at ht
      cases ht
    funext j
    show RadixForest.put S.kernel.vmm.mem (physToVirt a) i e t j = S.kernel.vmm.mem t j
    exact RadixForest.put_other fun hs => hne hs.1

theorem Sound.outside_step (hstart : Start pmm vmm) (h : Sound pmm vmm S label)
    (hserved : S.Served) {op : Op} (hout : op.Outside) (hfair : S.Fair op) :
    Sound pmm vmm (S.step op) label := by
  obtain ⟨hspaces, hanswers, hallocs, hkernel, hmem⟩ :=
    outside_frame hstart h hserved hout hfair
  have hspace : ∀ k, (S.step op).vm.space k = S.vm.space k :=
    space_congr S.vm (S.step op).vm hkernel hspaces
  refine ⟨?_, ?_, ?_, ?_⟩
  · rw [Kernel.Counted, hallocs, hanswers]
    exact h.counted
  · have htable : (S.step op).tablePages = S.tablePages := by
      rw [System.tablePages, hanswers, System.tablePages]
    rw [htable]
    obtain rfl | ⟨a, rfl⟩ | ⟨a, i, e, rfl⟩ := hout.cases
    · have hnext := Pmm.alloc_tracks hstart.pageZero h.tracks
      rw [hold_append] at hnext
      exact hnext
    · have hnext := Pmm.free_tracks h.tracks (List.mem_append_left S.tablePages hfair)
      rwa [List.erase_append_left _ hfair] at hnext
    · exact h.tracks
  · exact tables_congr h.owned.tables hallocs (supply_past hanswers h.counted) hmem
  · intro k vmm' hk
    exact h.owned.root ((hspace k).symm.trans hk)

/-- The operation as one of `Vmm`. -/
def Op.toVmm : Op → Option Vmm.Op
  | .create block => some (.create block)
  | .map k virt phys flags => some (.map k virt phys flags)
  | .switch k => some (.switch k)
  | _ => none

theorem Op.toVmm_cases {op : Op} {vop : Vmm.Op} (hop : op.toVmm = some vop) :
    (∃ block, op = .create block ∧ vop = .create block) ∨
    (∃ k virt phys flags, op = .map k virt phys flags ∧ vop = .map k virt phys flags) ∨
    ∃ k, op = .switch k ∧ vop = .switch k := by
  cases op with
  | create block => exact .inl ⟨block, rfl, (Option.some.inj hop).symm⟩
  | map k virt phys flags =>
    exact .inr (.inl ⟨k, virt, phys, flags, rfl, (Option.some.inj hop).symm⟩)
  | switch k => exact .inr (.inr ⟨k, rfl, (Option.some.inj hop).symm⟩)
  | _ => cases hop

/-- A call of vmm.c is the call of `Vmm` over the supply, and only asks the allocator. -/
theorem inside_step (hc : S.kernel.Counted) {op : Op} {vop : Vmm.Op} (hop : op.toVmm = some vop) :
    (S.step op).vm = S.vm.step S.kernel.supply vop ∧ (S.step op).held = S.held ∧
      Kernel.Served S.kernel (S.step op).kernel := by
  obtain ⟨block, rfl, rfl⟩ | ⟨k, virt, phys, flags, rfl, rfl⟩ | ⟨k, rfl, rfl⟩ := Op.toVmm_cases hop
  · obtain ⟨new, K, hcreate⟩ : ∃ new K, vmmCreate block S.kernel = (new, K) := ⟨_, _, rfl⟩
    obtain ⟨heq, hserved⟩ := vmmCreate_supplied hc hcreate
    rw [System.step, Vmm.System.step, hcreate]
    show _ ∧ _ ∧ _
    rw [show S.vm.machine = S.kernel.vmm from rfl, heq]
    cases new with
    | none => exact ⟨rfl, rfl, hserved⟩
    | some new => exact ⟨rfl, rfl, hserved⟩
  · obtain ⟨r, K, hmap⟩ : ∃ r K, vmmMap (S.vm.space k) virt phys flags S.kernel = (r, K) :=
      ⟨_, _, rfl⟩
    obtain ⟨heq, hserved⟩ := vmmMap_supplied hc hmap
    rw [System.step, Vmm.System.step, hmap, show S.vm.machine = S.kernel.vmm from rfl, heq]
    exact ⟨rfl, rfl, hserved⟩
  · have hallocs : (vmmSwitch (S.vm.space k) S.kernel.vmm).allocs = S.kernel.vmm.allocs := by
      cases S.vm.space k <;> rfl
    exact ⟨rfl, rfl, .tables S.kernel hallocs⟩

/-- After a call of vmm.c the allocator accounts for the pages it answered. -/
theorem inside_tracks (hstart : Start pmm vmm) (h : Sound pmm vmm S label) {op : Op}
    {vop : Vmm.Op} (hop : op.toVmm = some vop) :
    (S.step op).kernel.Counted ∧
      Pmm.Tracks pmm (S.step op).kernel.pmm ((S.step op).held ++ (S.step op).tablePages) := by
  obtain ⟨-, hheld, hserved⟩ := inside_step h.counted hop
  refine ⟨hserved.counted h.counted, ?_⟩
  rw [hheld]
  exact hserved.keeps
    (fun p answers => Pmm.Tracks pmm p (S.held ++ answers.filter (· ≠ 0)))
    (fun p answers ht => tracks_answer hstart.pageZero ht) h.tracks

theorem Op.toVmm_plain {op : Op} {vop : Vmm.Op} (hop : op.toVmm = some vop) (hfair : S.Fair op) :
    vop.Plain := by
  obtain ⟨block, rfl, rfl⟩ | ⟨k, virt, phys, flags, rfl, rfl⟩ | ⟨k, rfl, rfl⟩ := Op.toVmm_cases hop
  · trivial
  · exact hfair
  · trivial

theorem Sound.inside_step (hstart : Start pmm vmm) (h : Sound pmm vmm S label) {op : Op}
    {vop : Vmm.Op} (hop : op.toVmm = some vop) (hfair : S.Fair op)
    (hserved : (S.step op).Served) : ∃ label', Sound pmm vmm (S.step op) label' := by
  obtain ⟨hcounted, htracks⟩ := inside_tracks hstart h hop
  obtain ⟨hvm, -, hasked⟩ := KernelMemory.inside_step h.counted hop
  have hsupply := supply_answers hstart hcounted htracks hserved
  have hallocs : (S.vm.step S.kernel.supply vop).machine.allocs = (S.step op).kernel.vmm.allocs := by
    rw [← hvm]
    rfl
  rw [hasked.supply, ← hallocs] at hsupply
  obtain ⟨label', howned⟩ := h.owned.step (Op.toVmm_plain hop hfair) hsupply
  rw [← hvm, ← hasked.supply] at howned
  exact ⟨label', hcounted, htracks, howned⟩

theorem Op.outside_or_inside (op : Op) : op.Outside ∨ ∃ vop, op.toVmm = some vop := by
  cases op with
  | alloc => exact .inl trivial
  | free a => exact .inl trivial
  | write a i e => exact .inl trivial
  | create block => exact .inr ⟨_, rfl⟩
  | map k virt phys flags => exact .inr ⟨_, rfl⟩
  | switch k => exact .inr ⟨_, rfl⟩

theorem Sound.step (hstart : Start pmm vmm) (h : Sound pmm vmm S label) (hserved : S.Served)
    {op : Op} (hfair : S.Fair op) (hserved' : (S.step op).Served) :
    ∃ label', Sound pmm vmm (S.step op) label' := by
  obtain hout | ⟨vop, hop⟩ := op.outside_or_inside
  · exact ⟨label, h.outside_step hstart hserved hout hfair⟩
  · exact h.inside_step hstart hop hfair hserved'

theorem counted_step (hc : S.kernel.Counted) (op : Op) :
    (S.step op).kernel.Counted ∧ S.kernel.answers <+: (S.step op).kernel.answers := by
  obtain hout | ⟨vop, hop⟩ := op.outside_or_inside
  · obtain rfl | ⟨a, rfl⟩ | ⟨a, i, e, rfl⟩ := hout.cases
    · exact ⟨hc, List.prefix_rfl⟩
    · exact ⟨hc, List.prefix_rfl⟩
    · exact ⟨hc, List.prefix_rfl⟩
  · obtain ⟨-, -, hserved⟩ := KernelMemory.inside_step hc hop
    refine ⟨hserved.counted hc, ?_⟩
    exact hserved.keeps (fun _ answers => S.kernel.answers <+: answers)
      (fun _ answers hp => hp.trans (List.prefix_append _ _)) List.prefix_rfl

/-! ## Runs -/

theorem counted_run (hc : S.kernel.Counted) (ops : List Op) :
    (Runs.run System.step S ops).kernel.Counted ∧
      S.kernel.answers <+: (Runs.run System.step S ops).kernel.answers := by
  induction ops generalizing S with
  | nil => exact ⟨hc, List.prefix_rfl⟩
  | cons op ops ih =>
    obtain ⟨hc₁, hp₁⟩ := counted_step hc op
    obtain ⟨hc₂, hp₂⟩ := ih hc₁
    exact ⟨hc₂, hp₁.trans hp₂⟩

theorem served_of_run (hc : S.kernel.Counted) (ops : List Op)
    (h : (Runs.run System.step S ops).Served) : S.Served :=
  fun hz => h ((counted_run hc ops).2.subset hz)

theorem Sound.start (hstart : Start pmm vmm) :
    Sound pmm vmm (start pmm vmm) (kernelPlace vmm.mem vmm.kernelVmm.pml4) where
  counted := hstart.fresh
  tracks := Pmm.Tracks.start pmm
  owned := Owned.start _ hstart.tree

theorem Sound.run (hstart : Start pmm vmm) (h : Sound pmm vmm S label) {ops : List Op}
    (hfair : Runs.Each System.step System.Fair S ops)
    (hserved : (Runs.run System.step S ops).Served) :
    ∃ label', Sound pmm vmm (Runs.run System.step S ops) label' := by
  induction ops generalizing S label with
  | nil => exact ⟨label, h⟩
  | cons op ops ih =>
    obtain ⟨hc, -⟩ := counted_step h.counted op
    have hnow : S.Served := served_of_run h.counted (op :: ops) hserved
    obtain ⟨label', h'⟩ := h.step hstart hnow hfair.1 (served_of_run hc _ hserved)
    exact ih h' hfair.2 hserved

end

/-- **No page is in two places.** Along every run the pages free at the start are the
disjoint union of the free ones, the ones callers hold and the ones under tables. -/
theorem pages_partitioned (pmm : Pmm.Machine) (vmm : Vmm.Machine) (hstart : Start pmm vmm)
    (ops : List Op) (S : System) (hS : S = Runs.run System.step (start pmm vmm) ops)
    (hfair : Runs.Each System.step System.Fair (start pmm vmm) ops) (hserved : S.Served) :
    (S.held ++ S.tablePages).Nodup ∧
    Pmm.freePages pmm =
      Pmm.freePages S.kernel.pmm ∪ Pmm.pagesHeld S.held ∪ Pmm.pagesHeld S.tablePages ∧
    Disjoint (Pmm.freePages S.kernel.pmm) (Pmm.pagesHeld S.held ∪ Pmm.pagesHeld S.tablePages) ∧
    Disjoint (Pmm.pagesHeld S.held) (Pmm.pagesHeld S.tablePages) ∧
    Supply S.kernel.supply (fun page => Taken vmm (physToVirt page)) S.kernel.vmm.allocs := by
  rw [hS] at hserved ⊢
  obtain ⟨label, h⟩ := (Sound.start hstart).run hstart hfair hserved
  have hnodup := h.tracks.nodup
  have hunion : ∀ l l' : List U64, Pmm.pagesHeld (l ++ l') = Pmm.pagesHeld l ∪ Pmm.pagesHeld l' := by
    intro l l'
    ext i
    simp only [Pmm.pagesHeld, List.mem_append, or_and_right, exists_or]
    rfl
  have hcons := h.tracks.conserves
  refine ⟨hnodup, ?_, ?_, ?_, supply_answers hstart h.counted h.tracks hserved⟩
  · rw [Set.union_assoc, ← hunion]
    exact hcons.union.symm
  · rw [← hunion]
    exact hcons.disjoint
  · -- one page number, one address
    rw [Set.disjoint_left]
    rintro i ⟨a, ha, hi⟩ ⟨b, hb, hi'⟩
    obtain rfl : a = b := BitVec.eq_of_toNat_eq (hi.trans hi'.symm)
    exact (List.nodup_append.mp hnodup).2.2 a ha a hb rfl

/-- Eight pages, of which 0 and 1 are taken. -/
def eightPages : Pmm.Machine where
  memmap := none
  hhdm := none
  pmm := ⟨8, by decide, 0x10000#64, 0x10000#64, 1⟩
  mem := fun _ _ => 0x03#8
  touched := []

theorem start_eightPages : Start eightPages (Vmm.Machine.cleared 0x1000) where
  pageZero := fun h => absurd h.2 (by decide)
  window := by decide
  fresh := rfl
  tree := kernelTree_cleared _ _
  apart := by
    rintro i hfree ⟨q, -, hdesc⟩
    have haddr := congrArg BitVec.toNat (physToVirt_inj (descend_cleared hdesc).2)
    rw [Pmm.pageAddr_toNat (Pmm.free_lt hfree)] at haddr
    have hi : i = 1 := by
      have hone : i * 4096 = 0x1000 := haddr
      omega
    subst hi
    exact absurd hfree.2 (by decide)
  null := by
    rintro ⟨q, -, hdesc⟩
    exact absurd (descend_cleared hdesc).2 (by decide)

/-- A space is created, a caller takes a page and writes to it, and the space maps a page. -/
def mixedRun : List Op :=
  [.create 0x10, .alloc, .write 0x3000 5 0xFFF, .map 1 0x400000 0x7000 pageUser]

theorem fair_mixedRun :
    Runs.Each System.step System.Fair (start eightPages (Vmm.Machine.cleared 0x1000)) mixedRun :=
  ⟨trivial, trivial, by decide +kernel, by decide, trivial⟩

/-- After `mixedRun` the space is switched to, the caller gives its page back and takes one
again. -/
theorem pages_partitioned_mixedRun :
    let S := Runs.run System.step (start eightPages (Vmm.Machine.cleared 0x1000))
      (mixedRun ++ [.switch 1, .free 0x3000, .alloc])
    S.held = [0x3000] ∧ S.tablePages = [0x2000, 0x4000, 0x5000, 0x6000] ∧
      Pmm.freePages eightPages = Pmm.freePages S.kernel.pmm ∪ Pmm.pagesHeld [0x3000] ∪
        Pmm.pagesHeld [0x2000, 0x4000, 0x5000, 0x6000] ∧
      Disjoint (Pmm.freePages S.kernel.pmm)
        (Pmm.pagesHeld [0x3000] ∪ Pmm.pagesHeld [0x2000, 0x4000, 0x5000, 0x6000]) := by
  intro S
  have hheld : S.held = [0x3000] := by decide +kernel
  have htable : S.tablePages = [0x2000, 0x4000, 0x5000, 0x6000] := by decide +kernel
  have hfair : Runs.Each System.step System.Fair (start eightPages (Vmm.Machine.cleared 0x1000))
      (mixedRun ++ [.switch 1, .free 0x3000, .alloc]) :=
    ⟨trivial, trivial, by decide +kernel, by decide, trivial, by decide +kernel, trivial, trivial⟩
  obtain ⟨-, hunion, hdisjoint, -⟩ := pages_partitioned _ _ start_eightPages _ S rfl hfair
    (by unfold System.Served; decide +kernel)
  rw [hheld, htable] at hunion hdisjoint
  exact ⟨hheld, htable, hunion, hdisjoint⟩

/-! ## Callers and walks -/

section
variable {pmm : Pmm.Machine} {vmm : Vmm.Machine} {S : System} {label : U64 → Option Place}

/-- A walk only reads tables, and callers change none. -/
theorem outside_walk (hstart : Start pmm vmm) (h : Sound pmm vmm S label) (hserved : S.Served)
    {op : Op} (hout : op.Outside) (hfair : S.Fair op) {k : Nat} {space : VmmT}
    (hk : S.vm.space k = some space) (v : U64) :
    walk (S.step op).kernel.vmm.mem space.pml4 v = walk S.kernel.vmm.mem space.pml4 v := by
  obtain ⟨-, -, -, -, hmem⟩ := outside_frame hstart h hserved hout hfair
  apply h.owned.tables.forest.trail_congr Place.depth_child _ (h.owned.root hk) (by simp)
  intro pre j post _ p hp
  rw [hmem p _ hp]
  rfl

theorem outside_space (S : System) {op : Op} (hout : op.Outside) (k : Nat) :
    (S.step op).vm.space k = S.vm.space k := by
  obtain rfl | ⟨a, rfl⟩ | ⟨a, i, e, rfl⟩ := hout.cases
  · rfl
  · rfl
  · rfl

theorem outside_walks (hstart : Start pmm vmm) (h : Sound pmm vmm S label) {ops : List Op}
    (hout : ∀ op ∈ ops, op.Outside) (hfair : Runs.Each System.step System.Fair S ops)
    (hserved : S.Served) {k : Nat} {space : VmmT} (hk : S.vm.space k = some space) (v : U64) :
    walk (Runs.run System.step S ops).kernel.vmm.mem space.pml4 v =
      walk S.kernel.vmm.mem space.pml4 v := by
  induction ops generalizing S with
  | nil => rfl
  | cons op ops ih =>
    have hop := hout op List.mem_cons_self
    have hnext := h.outside_step hstart hserved hop hfair.1
    have hanswers := (outside_frame hstart h hserved hop hfair.1).2.1
    have hserved' : (S.step op).Served := by
      rw [System.Served, hanswers]
      exact hserved
    rw [← outside_walk hstart h hserved hop hfair.1 hk v]
    exact ih hnext (fun o ho => hout o (List.mem_cons_of_mem _ ho)) hfair.2 hserved'
      ((outside_space S hop k).trans hk)

end

/-- **Callers reach no table.** Whatever happened before, any number of allocations, of
stores into pages that are held and of pages given back changes no walk in any address
space, for the kernel half and the lower half alike. -/
theorem callers_touch_no_walk (pmm : Pmm.Machine) (vmm : Vmm.Machine) (hstart : Start pmm vmm)
    (ops outs : List Op) (S : System) (hS : S = Runs.run System.step (start pmm vmm) ops)
    (hfair : Runs.Each System.step System.Fair (start pmm vmm) (ops ++ outs)) (hserved : S.Served)
    (hout : ∀ op ∈ outs, op.Outside) (k : Nat) (space : VmmT) (hk : S.vm.space k = some space)
    (v : U64) :
    walk (Runs.run System.step S outs).kernel.vmm.mem space.pml4 v =
      walk S.kernel.vmm.mem space.pml4 v := by
  obtain ⟨hbefore, hafter⟩ := Runs.each_append.mp hfair
  rw [hS] at hserved hk ⊢
  obtain ⟨label, h⟩ := (Sound.start hstart).run hstart hbefore hserved
  exact outside_walks hstart h hout hafter hserved hk v

/-- The caller overwrites its page and gives it back. -/
theorem callers_touch_no_walk_mixedRun :
    let S := Runs.run System.step (start eightPages (Vmm.Machine.cleared 0x1000)) mixedRun
    walk (Runs.run System.step S [.write 0x3000 0 1, .free 0x3000]).kernel.vmm.mem
        (physToVirt 0x2000) 0x400000 =
      walk S.kernel.vmm.mem (physToVirt 0x2000) 0x400000 :=
  callers_touch_no_walk _ _ start_eightPages mixedRun [.write 0x3000 0 1, .free 0x3000] _ rfl
    ⟨trivial, trivial, by decide +kernel, by decide, by decide +kernel, by decide +kernel, trivial⟩
    (by unfold System.Served; decide +kernel)
    (fun op hop => by
      obtain rfl | hop := List.mem_cons.mp hop
      · trivial
      · obtain rfl := List.mem_singleton.mp hop
        trivial)
    1 (VmmT.ofPhys 0x2000) (by rfl) _

end JarJar.KernelMemory
