import JarJar.KernelBudget
import JarJar.PmmInit

/- The kernel's memory from boot on. Tables and callers' pages come out of the bitmap, and the
   bitmap itself lies in memory; that the two never meet is what lets pmm.c and vmm.c be
   looked at apart.

   What is proved: along every run vmm.c and callers store only to the kernel's own tables and
   to pages that were free at the start, and pmm.c only to the bitmap (`stores_stay_inside`);
   and after `pmm_init`, on a map of whole pages whose bitmap fills whole pages too, and
   `vmm_init` these are pages of usable memory outside the bitmap (`boot_keeps_bitmap`). -/
namespace JarJar.KernelMemory
open Vmm

section
variable {pages : Nat → U64} {taken : U64 → Prop} {s s' : Vmm.Machine}
  {label : U64 → Option Place} {t u flags : U64} {l : Place} {i : Fin 512}

theorem table_step_stores (h : Tables pages taken s label)
    (hg : Vmm.getOrCreateTable pages t i flags s = (u, s'))
    (hpages : Supply pages (fun page => taken (physToVirt page)) s'.allocs)
    (ht : label t = some l) (hl : l.depth < 3) (hf : LowFlags flags) :
    ∃ label', RadixForest.Extends label label' ∧ Tables pages taken s' label' ∧
      label' u = some (l.child i) ∧ ∀ p, label' p = none → s'.mem p = s.mem p := by
  obtain ⟨label', hext, htables, hu, -⟩ := h.table_step hg hpages ht hl hf
  refine ⟨label', hext, htables, hu, fun p hp => ?_⟩
  obtain ⟨-, -, rfl⟩ | ⟨-, -, -, rfl⟩ | ⟨-, -, -, hs'⟩ := getOrCreateTable_cases hg
  · rfl
  · rfl
  · have hmem : s'.mem = RadixForest.link s.mem t i (entry (pages s.allocs) flags) u 0 := by rw [hs']
    have hpu : p ≠ u := by
      rintro rfl
      rw [hu] at hp
      cases hp
    have hpt : p ≠ t := by
      rintro rfl
      rw [hext _ _ ht] at hp
      cases hp
    funext j
    rw [hmem]
    exact RadixForest.link_other hpu fun hs => hpt hs.1

theorem map_stores {k : Nat} {vmm : VmmT} {virt phys : U64} {r : JarResult}
    (h : Tables pages taken s label)
    (hmap : Vmm.vmmMap pages (some vmm) virt phys flags s = (r, s'))
    (hpages : Supply pages (fun page => taken (physToVirt page)) s'.allocs)
    (hk : label vmm.pml4 = some (Place.root k)) (hf : LowFlags flags) {p : U64}
    (hp : ¬ (taken p ∨ ∃ n < s'.allocs, p = physToVirt (pages n))) : s'.mem p = s.mem p := by
  obtain ⟨pdpt, s₁, pd, s₂, pt, s₃, hg₁, hg₂, hg₃, ⟨hle₃, -⟩, hlast⟩ := vmmMap_cases hmap
  have hle₁ := getOrCreateTable_allocs hg₂
  have hle₂ := getOrCreateTable_allocs hg₃
  have hp₃ : Supply pages (fun page => taken (physToVirt page)) s₃.allocs := hle₃ ▸ hpages
  obtain ⟨label₁, -, h₁, hpdpt, hs₁⟩ :=
    table_step_stores h hg₁ ((hp₃.mono hle₂).mono hle₁) hk (by simp) hf
  obtain ⟨label₂, hext₂, h₂, hpd, hs₂⟩ :=
    table_step_stores h₁ hg₂ (hp₃.mono hle₂) hpdpt (by simp) hf
  obtain ⟨label₃, hext₃, h₃, hpt, hs₃⟩ := table_step_stores h₂ hg₃ hp₃ hpd (by simp) hf
  -- a table that is not there in the end was not there before
  have hnone₃ : label₃ p = none := by
    apply Option.eq_none_iff_forall_ne_some.mpr
    intro m hm
    apply hp
    rw [hle₃]
    exact h₃.live hm
  have before : ∀ {a b : U64 → Option Place}, RadixForest.Extends a b → b p = none → a p = none := by
    intro a b hext hb
    apply Option.eq_none_iff_forall_ne_some.mpr
    intro m hm
    rw [hext _ _ hm] at hb
    cases hb
  have hnone₂ := before hext₃ hnone₃
  have hthree : s₃.mem p = s.mem p := by
    rw [hs₃ p hnone₃, hs₂ p hnone₂, hs₁ p (before hext₂ hnone₂)]
  obtain ⟨-, -, rfl⟩ | ⟨-, -, rfl⟩ := hlast
  · exact hthree
  · rw [← hthree]
    funext j
    apply RadixForest.put_other
    rintro ⟨rfl, -⟩
    rw [hpt] at hnone₃
    cases hnone₃

theorem create_stores {block : U64} {new : Option VmmT}
    (hcreate : Vmm.vmmCreate pages block s = (new, s')) {p : U64}
    (hp : ¬ ∃ n < s'.allocs, p = physToVirt (pages n)) : s'.mem p = s.mem p := by
  obtain ⟨-, hmem, -⟩ | ⟨-, -, -, hs'⟩ := vmmCreate_cases hcreate
  · rw [hmem]
  · have hn : s.allocs < s'.allocs := by rw [hs']; exact Nat.lt_succ_self _
    have hmem : s'.mem = Function.update s.mem (physToVirt (pages s.allocs))
        (fun i => if 256 ≤ i.val then s.mem s.kernelVmm.pml4 i else 0) := by rw [hs']
    have hne : p ≠ physToVirt (pages s.allocs) := fun heq => hp ⟨_, hn, heq⟩
    rw [hmem, Function.update_of_ne hne]

end

/-- `t` is the kernel's view of a page that was free at the start. -/
def InPage (pmm : Pmm.Machine) (t : U64) : Prop :=
  ∃ i, Pmm.Free pmm i ∧ t = physToVirt (BitVec.ofNat 64 (i * 4096))

section
variable {pmm : Pmm.Machine} {vmm : Vmm.Machine} {S : System} {label : U64 → Option Place}

/-- The pages of vmm.c are pages that were free. -/
theorem supplied_inPage (hcounted : S.kernel.Counted)
    (htracks : Pmm.Tracks pmm S.kernel.pmm (S.held ++ S.tablePages)) (hserved : S.Served) {n : Nat}
    (hn : n < S.kernel.vmm.allocs) : InPage pmm (physToVirt (S.kernel.supply n)) := by
  rw [hcounted] at hn
  have hmem : S.kernel.answers[n] ∈ S.held ++ S.tablePages := by
    refine List.mem_append_right _ (List.mem_filter.mpr ⟨List.getElem_mem hn, ?_⟩)
    refine decide_eq_true fun hz => hserved ?_
    rw [← hz]
    exact List.getElem_mem hn
  obtain ⟨i, hfree, ha⟩ := page_free htracks hmem
  exact ⟨i, hfree, by rw [S.kernel.supply_answer hn, ha]⟩

theorem step_stores (hstart : Start pmm vmm) (h : Sound pmm vmm S label) {op : Op}
    (hfair : S.Fair op) (hserved : (S.step op).Served) {t : U64} (ht : ¬ Taken vmm t)
    (hpage : ¬ InPage pmm t) : (S.step op).kernel.vmm.mem t = S.kernel.vmm.mem t := by
  obtain hout | ⟨vop, hop⟩ := op.outside_or_inside
  · obtain rfl | ⟨a, rfl⟩ | ⟨a, i, e, rfl⟩ := hout.cases
    · rfl
    · rfl
    · obtain ⟨n, hfree, heq⟩ := page_free h.tracks (List.mem_append_left _ hfair)
      funext j
      show RadixForest.put S.kernel.vmm.mem (physToVirt a) i e t j = S.kernel.vmm.mem t j
      exact RadixForest.put_other fun hs => hpage ⟨n, hfree, by rw [hs.1, heq]⟩
  · obtain ⟨hcounted, htracks⟩ := inside_tracks hstart h hop
    obtain ⟨hvm, -, hasked⟩ := inside_step h.counted hop
    have hsupply := supply_answers hstart hcounted htracks hserved
    have hno : ¬ (Taken vmm t ∨ ∃ n < (S.step op).kernel.vmm.allocs,
        t = physToVirt (S.kernel.supply n)) := by
      rintro (htaken | ⟨n, hn, heq⟩)
      · exact ht htaken
      · have hin := supplied_inPage hcounted htracks hserved hn
        rw [hasked.supply, ← heq] at hin
        exact hpage hin
    rw [hasked.supply] at hsupply
    show (S.step op).vm.machine.mem t = S.kernel.vmm.mem t
    rw [show (S.step op).kernel.vmm = (S.step op).vm.machine from rfl, hvm] at hno hsupply
    rw [hvm]
    obtain ⟨block, rfl, rfl⟩ | ⟨k, virt, phys, flags, rfl, rfl⟩ | ⟨k, rfl, rfl⟩ := Op.toVmm_cases hop
    · rw [Vmm.System.step] at hno ⊢
      cases hcreate : Vmm.vmmCreate S.kernel.supply block S.vm.machine with
      | mk new s =>
        rw [hcreate] at hno
        cases new with
        | none => exact create_stores hcreate fun hn => hno (.inr hn)
        | some new => exact create_stores hcreate fun hn => hno (.inr hn)
    · rw [Vmm.System.step] at hno hsupply ⊢
      cases hk : S.vm.space k with
      | none => rfl
      | some space =>
        rw [hk] at hno hsupply
        cases hmap : Vmm.vmmMap S.kernel.supply (some space) virt phys flags S.vm.machine with
        | mk r s =>
          rw [hmap] at hno hsupply
          exact map_stores h.owned.tables hmap hsupply (h.owned.root hk) (spaceFlags_low hfair) hno
    · rw [Vmm.System.step]
      cases S.vm.space k <;> rfl

theorem run_stores (hstart : Start pmm vmm) (h : Sound pmm vmm S label) {ops : List Op}
    (hfair : Runs.Each System.step System.Fair S ops)
    (hserved : (Runs.run System.step S ops).Served) {t : U64} (ht : ¬ Taken vmm t)
    (hpage : ¬ InPage pmm t) :
    (Runs.run System.step S ops).kernel.vmm.mem t = S.kernel.vmm.mem t := by
  induction ops generalizing S label with
  | nil => rfl
  | cons op ops ih =>
    have hnow : S.Served := served_of_run h.counted (op :: ops) hserved
    have hnext : (S.step op).Served := served_of_run (counted_step h.counted op).1 _ hserved
    obtain ⟨label', h'⟩ := h.step hstart hnow hfair.1 hnext
    exact (ih h' hfair.2 hserved).trans (step_stores hstart h hfair.1 hnext ht hpage)

end

/-! ## The stores of the allocator -/

theorem onBitmap_step {pmm : Pmm.Machine} {S : System} (hc : S.kernel.Counted)
    (h : Pmm.OnBitmap pmm S.kernel.pmm) (op : Op) : Pmm.OnBitmap pmm (S.step op).kernel.pmm := by
  obtain hout | ⟨vop, hop⟩ := op.outside_or_inside
  · obtain rfl | ⟨a, rfl⟩ | ⟨a, i, e, rfl⟩ := hout.cases
    · exact h.alloc
    · exact h.release _
    · exact h
  · -- vmm.c only asks for pages
    obtain ⟨-, -, hserved⟩ := inside_step hc hop
    exact hserved.keeps (fun p _ => Pmm.OnBitmap pmm p) (fun _ _ h => h.alloc) h

theorem onBitmap_run {pmm : Pmm.Machine} {S : System} (hc : S.kernel.Counted)
    (h : Pmm.OnBitmap pmm S.kernel.pmm) (ops : List Op) :
    Pmm.OnBitmap pmm (Runs.run System.step S ops).kernel.pmm := by
  induction ops generalizing S with
  | nil => exact h
  | cons op ops ih => exact ih (counted_step hc op).1 (onBitmap_step hc h op)

/-- **Stores stay inside.** Along every run vmm.c and callers never store to memory outside the
kernel's own tables and the pages that were free at the start, and pmm.c stores to no byte
outside the bitmap. -/
theorem stores_stay_inside (pmm : Pmm.Machine) (vmm : Vmm.Machine) (hstart : Start pmm vmm)
    (ops : List Op) (S : System) (hS : S = Runs.run System.step (start pmm vmm) ops)
    (hfair : Runs.Each System.step System.Fair (start pmm vmm) ops) (hserved : S.Served) :
    (∀ t, ¬ Taken vmm t → ¬ InPage pmm t → S.kernel.vmm.mem t = vmm.mem t) ∧
    ∀ p k, S.kernel.pmm.mem p k ≠ pmm.mem p k →
      p = pmm.pmm.bitmap ∧ k < (pmm.pmm.totalPages + 7) / 8 := by
  rw [hS] at hserved ⊢
  have hsound := Sound.start hstart
  exact ⟨fun t ht hpage => run_stores hstart hsound hfair hserved ht hpage,
    (onBitmap_run hsound.counted (Pmm.OnBitmap.refl pmm) ops).mem⟩

/-- The page with the bitmap is beside the tables and the pages; of the bitmap the run changes
the one byte there is. -/
theorem stores_stay_inside_mixedRun :
    let S := Runs.run System.step (start eightPages (Vmm.Machine.cleared 0x1000)) mixedRun
    S.kernel.vmm.mem (physToVirt 0x10000) = (fun _ => 0) ∧
      ∀ p k, S.kernel.pmm.mem p k ≠ 0x03 → p = 0x10000#64 ∧ k < 1 := by
  intro S
  obtain ⟨htables, hbitmap⟩ := stores_stay_inside _ _ start_eightPages mixedRun S rfl fair_mixedRun
    (by unfold System.Served; decide +kernel)
  refine ⟨htables _ (fun ⟨_, _, hdesc⟩ => absurd (descend_cleared hdesc).2 (by decide)) ?_, hbitmap⟩
  rintro ⟨i, hfree, heq⟩
  have haddr := congrArg BitVec.toNat (physToVirt_inj heq)
  rw [Pmm.pageAddr_toNat (Pmm.free_lt hfree)] at haddr
  have hpage : 0x10000 = i * 4096 := haddr
  have hlt : i < 8 := hfree.1
  omega

/-! ## From `pmm_init` on -/

/-- What the boot loader leaves for the page tables: memory ends where the window does, the
bitmap has a home and fills whole pages with a bit for each page, and the tables that CR3
points at are a tree in memory that is not usable. -/
structure Bootable (map : List Pmm.MemmapEntry) (en : Pmm.MemmapEntry) (vmm : Vmm.Machine) :
    Prop where
  limine : Pmm.LimineMap map
  home : Pmm.bitmapHome map = some en
  window : Pmm.memTop map ≤ 2^47
  whole : Pmm.bitmapBytes map % 4096 = 0
  bits : Pmm.memTop map / 4096 = 8 * Pmm.bitmapBytes map
  fresh : vmm.allocs = 0
  tree : KernelTree vmm.mem (physToVirt vmm.cr3)
  apart : ∀ i, Pmm.WhollyUsable map i →
    ¬ KernelTable vmm.mem (physToVirt vmm.cr3) (physToVirt (BitVec.ofNat 64 (i * 4096)))
  null : ¬ KernelTable vmm.mem (physToVirt vmm.cr3) 0

section
variable {map : List Pmm.MemmapEntry} {en : Pmm.MemmapEntry} {vmm : Vmm.Machine} {hhdm : U64}
  {mem : U64 → Nat → U8}

/-- The free pages after `pmm_init` are the usable ones that are not the bitmap's. -/
theorem Bootable.free_iff (h : Bootable map en vmm) {i : Nat} :
    Pmm.Free (Pmm.pmmInit (Pmm.boot map hhdm mem)) i ↔ Pmm.ToBeFree map en.base i := by
  have hexact : Pmm.InitExact (Pmm.pmmInit (Pmm.boot map hhdm mem)) map :=
    (Pmm.initExact_iff hhdm mem h.limine h.home).mpr ⟨h.whole, fun p hp hlt _ => by
      have hbits := h.bits
      omega⟩
  exact (Pmm.initExact_bits_iff hhdm mem h.home).mp hexact.1 i

theorem Bootable.start (h : Bootable map en vmm) :
    Start (Pmm.pmmInit (Pmm.boot map hhdm mem)) (vmmInit vmm) where
  pageZero := by
    intro hfree
    obtain ⟨⟨e, he, hue, hlo, hhi⟩, -⟩ := h.free_iff.mp hfree
    exact h.limine.noPageZero e he hue (by omega) (by omega)
  window := by
    have hpages : (Pmm.pmmInit (Pmm.boot map hhdm mem)).pmm.totalPages =
        (Pmm.highestAddr map).toNat / 4096 := by rw [Pmm.pmmInit_pmm hhdm mem h.home]
    have htop := h.window
    rw [hpages, Pmm.highestAddr_toNat]
    omega
  fresh := h.fresh
  tree := h.tree
  apart := fun i hi => h.apart i (h.free_iff.mp hi).1
  null := h.null

end

/-- **The bitmap is safe.** After `pmm_init` and `vmm_init`, along every run, what callers hold
and what is under tables are distinct pages of usable memory outside the bitmap, no store of
vmm.c or of a caller meets the bitmap or memory that is not usable, the kernel's own tables
apart, and pmm.c stores to the bitmap only. -/
theorem boot_keeps_bitmap (map : List Pmm.MemmapEntry) (en : Pmm.MemmapEntry) (vmm : Vmm.Machine)
    (hhdm : U64) (mem : U64 → Nat → U8) (hboot : Bootable map en vmm) (ops : List Op) (S₀ S : System)
    (hS₀ : S₀ = start (Pmm.pmmInit (Pmm.boot map hhdm mem)) (vmmInit vmm))
    (hS : S = Runs.run System.step S₀ ops) (hfair : Runs.Each System.step System.Fair S₀ ops)
    (hserved : S.Served) :
    (S.held ++ S.tablePages).Nodup ∧
    (∀ a ∈ S.held ++ S.tablePages, a.toNat % 4096 = 0 ∧ Pmm.WhollyUsable map (a.toNat / 4096) ∧
      ¬ Pmm.Overlaps (a.toNat / 4096) en.base.toNat (Pmm.bitmapBytes map)) ∧
    (∀ i, i < 2^52 →
      (Pmm.Overlaps i en.base.toNat (Pmm.bitmapBytes map) ∨ ¬ Pmm.WhollyUsable map i) →
      ¬ Taken (vmmInit vmm) (physToVirt (BitVec.ofNat 64 (i * 4096))) →
      S.kernel.vmm.mem (physToVirt (BitVec.ofNat 64 (i * 4096))) =
        vmm.mem (physToVirt (BitVec.ofNat 64 (i * 4096)))) ∧
    ∀ p k, S.kernel.pmm.mem p k ≠ S₀.kernel.pmm.mem p k →
      p = physToVirt en.base ∧ k < Pmm.bitmapBytes map := by
  subst hS₀
  rw [hS] at hserved ⊢
  have hstart : Start (Pmm.pmmInit (Pmm.boot map hhdm mem)) (vmmInit vmm) := hboot.start
  obtain ⟨label, h⟩ := (Sound.start hstart).run hstart hfair hserved
  refine ⟨h.tracks.nodup, fun a ha => ?_, fun i hi hout ht => ?_, fun p k hne => ?_⟩
  · obtain ⟨i, hfree, rfl⟩ := page_free h.tracks ha
    obtain ⟨husable, hoff⟩ := hboot.free_iff.mp hfree
    rw [Pmm.pageAddr_toNat (Pmm.free_lt hfree), Nat.mul_div_cancel _ (by decide)]
    exact ⟨Nat.mul_mod_left _ _, husable, hoff⟩
  · refine run_stores hstart (Sound.start hstart) hfair hserved ht ?_
    rintro ⟨n, hfree, heq⟩
    have haddr := congrArg BitVec.toNat (physToVirt_inj heq)
    rw [Pmm.pageAddr_toNat (Pmm.free_lt hfree), Pmm.pageAddr_toNat hi] at haddr
    obtain rfl : i = n := by omega
    obtain ⟨husable, hoff⟩ := hboot.free_iff.mp hfree
    obtain hover | hunusable := hout
    · exact hoff hover
    · exact hunusable husable
  · have hon : Pmm.OnBitmap (Pmm.pmmInit (Pmm.boot map hhdm mem)) (Runs.run System.step
        (start (Pmm.pmmInit (Pmm.boot map hhdm mem)) (vmmInit vmm)) ops).kernel.pmm :=
      onBitmap_run (Sound.start hstart).counted (Pmm.OnBitmap.refl _) ops
    obtain ⟨hp, hk⟩ := hon.mem p k hne
    rw [Pmm.pmmInit_pmm hhdm mem hboot.home] at hp hk
    have hbits := hboot.bits
    rw [← Pmm.highestAddr_toNat] at hbits
    exact ⟨hp, by dsimp only at hk; omega⟩

theorem bootable_oneRegion :
    Bootable (Pmm.oneRegion 0x100000 32512) ⟨0x100000#64, 0x7F00000#64, true⟩
      (Vmm.Machine.cleared 0x1000) where
  limine := Pmm.limineMap_oneRegion (by decide) (by decide) (by decide)
  home := rfl
  window := by decide
  whole := by decide
  bits := by decide
  fresh := rfl
  tree := kernelTree_cleared _ _
  apart := by
    rintro i ⟨e, he, -, hlo, hhi⟩ ⟨q, -, hdesc⟩
    obtain rfl := List.mem_singleton.mp he
    have hbase : 0x100000 ≤ i * 4096 := hlo
    have hend : (i + 1) * 4096 ≤ 0x100000 + 0x7F00000 := hhi
    have haddr := congrArg BitVec.toNat (physToVirt_inj (descend_cleared hdesc).2)
    rw [BitVec.toNat_ofNat, Nat.mod_eq_of_lt (by omega)] at haddr
    have hone : i * 4096 = 0x1000 := haddr
    omega
  null := fun ⟨_, _, hdesc⟩ => absurd (descend_cleared hdesc).2 (by decide)

theorem oneRegion_free {i : Nat} :
    Pmm.Free (Pmm.pmmInit (Pmm.boot (Pmm.oneRegion 0x100000 32512) 0 fun _ _ => 0)) i ↔
      257 ≤ i ∧ i < 32768 :=
  bootable_oneRegion.free_iff.trans Pmm.toBeFree_oneRegion

theorem oneRegion_first :
    (Pmm.pmmAllocPage (Pmm.pmmInit (Pmm.boot (Pmm.oneRegion 0x100000 32512) 0 fun _ _ => 0))).1 =
      0x101000 := by
  obtain ⟨-, ⟨k, hk, hres, -⟩ | ⟨hno, -, -⟩⟩ := Pmm.pmmAllocPage_cases
    (Pmm.pmmInit (Pmm.boot (Pmm.oneRegion 0x100000 32512) 0 fun _ _ => 0))
  · have hle : k ≤ 257 := hk.2 (oneRegion_free.mpr (by decide))
    have hge := (oneRegion_free.mp hk.1).1
    obtain rfl : k = 257 := by omega
    exact hres
  · exact absurd (oneRegion_free.mpr (by decide : 257 ≤ 257 ∧ 257 < 32768)) (hno 257)

/-- A caller takes the first free page, stores to it and gives it back; a space is created,
filled and switched to. -/
def bootRun : List Op :=
  [.alloc, .write 0x101000 (Fin.last 511) 7, .free 0x101000, .create 0x10,
    .map 1 0x400000 0x7000 pageUser, .switch 1, .alloc]

theorem fair_bootRun {S : System} (h : (Pmm.pmmAllocPage S.kernel.pmm).1 = 0x101000) :
    Runs.Each System.step System.Fair S bootRun := by
  have hheld : (0x101000 : U64) ∈ (S.step .alloc).held := by
    show (0x101000 : U64) ∈ Pmm.hold (Pmm.pmmAllocPage S.kernel.pmm).1 S.held
    rw [h, Pmm.hold, if_neg (by decide)]
    exact List.mem_cons_self
  have hflags : FlagsIn spaceFlags pageUser := by decide
  exact ⟨trivial, hheld, hheld, trivial, hflags, trivial, trivial, trivial⟩

theorem room_bootRun {p : Pmm.Machine} (h : ∀ i, 257 ≤ i → i < 263 → Pmm.Free p i) :
    needs bootRun ≤ freeCount p := by
  have hsub : ({257, 258, 259, 260, 261, 262} : Finset Nat) ⊆ freeSet p := by
    intro i hi
    simp only [Finset.mem_insert, Finset.mem_singleton] at hi
    exact mem_freeSet.mpr (h i (by omega) (by omega))
  calc needs bootRun = ({257, 258, 259, 260, 261, 262} : Finset Nat).card := by decide
    _ ≤ freeCount p := Finset.card_le_card hsub

/-- On a map of 128 MiB the run stays off the page with the bitmap. -/
theorem boot_keeps_bitmap_oneRegion :
    let S₀ := start (Pmm.pmmInit (Pmm.boot (Pmm.oneRegion 0x100000 32512) 0 fun _ _ => 0))
      (vmmInit (Vmm.Machine.cleared 0x1000))
    let S := Runs.run System.step S₀ bootRun
    (S.held ++ S.tablePages).Nodup ∧
      (∀ a ∈ S.held ++ S.tablePages, ¬ Pmm.Overlaps (a.toNat / 4096) 0x100000 4096) ∧
      S.kernel.vmm.mem (physToVirt 0x100000) = (fun _ => 0) ∧
      ∀ p k, S.kernel.pmm.mem p k ≠ S₀.kernel.pmm.mem p k → p = physToVirt 0x100000 ∧ k < 4096 := by
  intro S₀ S
  have hstart : Start S₀.kernel.pmm S₀.kernel.vmm := bootable_oneRegion.start
  have hfair : Runs.Each System.step System.Fair S₀ bootRun := fair_bootRun oneRegion_first
  have hroom : needs bootRun ≤ freeCount S₀.kernel.pmm :=
    room_bootRun fun i hlo hhi => oneRegion_free.mpr ⟨hlo, by omega⟩
  have hserved := (run_budget hstart (Sound.start hstart) hstart.pageZero hfair hroom
    List.not_mem_nil).1
  have hsize : Pmm.bitmapBytes (Pmm.oneRegion 0x100000 32512) = 4096 := by decide
  obtain ⟨hnodup, hpages, hstores, hbitmap⟩ := boot_keeps_bitmap _ _ _ 0 (fun _ _ => 0)
    bootable_oneRegion bootRun S₀ S rfl rfl hfair hserved
  rw [hsize] at hpages hstores hbitmap
  have hpage : BitVec.ofNat 64 (256 * 4096) = (0x100000 : U64) := by decide
  have hzero : (Vmm.Machine.cleared 0x1000).mem (physToVirt 0x100000) = fun _ => 0 := rfl
  have hsame := hstores 256 (by decide) (.inl ⟨0x100000, by decide⟩)
    (fun ⟨_, _, hdesc⟩ => absurd (descend_cleared hdesc).2 (by decide))
  rw [hpage, hzero] at hsame
  exact ⟨hnodup, fun a ha => (hpages a ha).2.2, hsame, hbitmap⟩

end JarJar.KernelMemory
