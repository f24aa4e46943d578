import JarJar.VmmSpaces

/- The kernel half of all address spaces. `vmm_create` copies the entries of the
   kernel's PML4 as they are at that moment. A later call for an address of the
   kernel half is seen by everybody when the entry is there already, because the
   table below it is everybody's; when it is not, the call fills in the entry of
   one PML4 only. -/
namespace JarJar.Vmm

/-- What a walk says about an address: the entry it ends at and how many it took
to get there, when that entry is present. -/
def translation (entries : List U64) : Option (U64 × Nat) :=
  entries.getLast?.bind fun e => if e &&& pagePresent ≠ 0 then some (e, entries.length) else none

namespace System

/-- The pointers to the PML4s: of the address space in use, of `kernel_vmm` and of
the others. -/
def roots (S : System) : List U64 :=
  physToVirt S.machine.cr3 :: (S.machine.kernelVmm :: S.spaces).map VmmT.pml4

/-- All address spaces, and so the processor after any `vmm_switch`, translate the
addresses of the kernel half alike. -/
def Agree (S : System) : Prop :=
  ∀ p ∈ S.roots, ∀ p' ∈ S.roots, ∀ v, KernelHalf v →
    translation (walk S.mem p v) = translation (walk S.mem p' v)

/-- A call of `vmm_map` meets an entry that is there already in the PML4, or there
are no other address spaces yet. -/
def Shares (S : System) : Op → Prop
  | .map k virt _ _ => S.spaces = [] ∨
    ∀ vmm, S.space k = some vmm → S.mem vmm.pml4 (pml4Index virt) &&& pagePresent ≠ 0
  | _ => True

end System

/-- `kmalloc` succeeds, and calls of `vmm_map` are for the kernel half. -/
def Op.Kernel : Op → Prop
  | .create vmm => vmm ≠ 0
  | .map _ virt _ flags => KernelHalf virt ∧ FlagsIn spaceFlags flags
  | .switch _ => True

/-- The tables are in place, every PML4 has the kernel's entries in its upper half
and one of them is in use. -/
def HalfShared (pages : Nat → U64) (taken : U64 → Prop) (S : System) : Prop :=
  (∃ label, Owned pages taken S label) ∧
  (∀ k vmm, S.space k = some vmm → ∀ i : Fin 512, 256 ≤ i.val →
    S.mem vmm.pml4 i = S.mem S.machine.kernelVmm.pml4 i) ∧
  ∃ k vmm, S.space k = some vmm ∧ S.machine.cr3 = vmm.pml4Phys

section
variable {pages : Nat → U64} {taken : U64 → Prop} {S : System} {k : Nat} {vmm : VmmT}

theorem System.mem_roots (hactive : ∃ k vmm, S.space k = some vmm ∧ S.machine.cr3 = vmm.pml4Phys)
    {p : U64} (hp : p ∈ S.roots) : ∃ k vmm, S.space k = some vmm ∧ p = vmm.pml4 := by
  cases List.mem_cons.mp hp with
  | inl hcr3 =>
    obtain ⟨k, vmm, hk, hphys⟩ := hactive
    exact ⟨k, vmm, hk, by rw [hcr3, hphys, vmm.pml4_eq]⟩
  | inr hspace =>
    obtain ⟨vmm, hvmm, rfl⟩ := List.mem_map.mp hspace
    obtain ⟨k, hk⟩ := List.mem_iff_getElem?.mp hvmm
    exact ⟨k, vmm, hk, rfl⟩

theorem System.root_mem (hk : S.space k = some vmm) : vmm.pml4 ∈ S.roots :=
  List.mem_cons_of_mem _ (List.mem_map_of_mem (List.mem_of_getElem? hk))

theorem HalfShared.agree (h : HalfShared pages taken S) : S.Agree := by
  obtain ⟨-, hsame, hactive⟩ := h
  have kernel : ∀ p ∈ S.roots, ∀ v, KernelHalf v →
      walk S.mem p v = walk S.mem S.machine.kernelVmm.pml4 v := by
    intro p hp v hv
    obtain ⟨k, vmm, hk, rfl⟩ := System.mem_roots hactive hp
    exact RadixForest.trail_first tableOf (hsame k vmm hk _ hv) _
  intro p hp p' hp' v hv
  rw [kernel p hp v hv, kernel p' hp' v hv]

/-- A call changes the PML4 of one space only, and there only an entry that was
not present. -/
theorem Owned.pml4_frame {label : U64 → Option Place} {j : Nat} {vmm' : VmmT} {s' : Machine}
    {r : JarResult} {virt phys flags : U64} (h : Owned pages taken S label)
    (hk : S.space k = some vmm) (hm : vmmMap pages (some vmm) virt phys flags S.machine = (r, s'))
    (hpages : Supply pages (fun page => taken (physToVirt page)) s'.allocs) (hf : LowFlags flags)
    (hj : S.space j = some vmm') {i : Fin 512}
    (hkeep : j = k → i = pml4Index virt → S.mem vmm'.pml4 i &&& pagePresent ≠ 0) :
    s'.mem vmm'.pml4 i = S.mem vmm'.pml4 i := by
  obtain ⟨label', -, -, hframe, -⟩ := h.tables.map_step hm hpages (h.root hk) rfl hf
  apply hframe _ _ i (h.root hj)
  intro pre post hpre heq
  have hpaths := congrArg Place.path heq
  rw [Place.path_foldl] at hpaths
  obtain rfl : [] = pre := hpaths
  have howner := congrArg Place.owner heq
  exact ⟨by simp, hkeep (Option.some.inj howner) (List.cons.inj hpre).1.symm⟩

/-- A new address space has the kernel's upper half. -/
theorem HalfShared.create_step {vmm : U64} (h : HalfShared pages taken S) (hop : vmm ≠ 0)
    (hpages : Supply pages (fun page => taken (physToVirt page))
      (S.step pages (.create vmm)).machine.allocs) :
    HalfShared pages taken (S.step pages (.create vmm)) := by
  obtain ⟨⟨label, howned⟩, hsame, hactive⟩ := h
  refine ⟨howned.step trivial hpages, ?_⟩
  rw [System.step] at hpages ⊢
  cases hc : vmmCreate pages vmm S.machine with
  | mk new s =>
    rw [hc] at hpages
    obtain ⟨rfl, -, -, -, -, hfail⟩ | ⟨-, -, rfl, hs⟩ := vmmCreate_cases hc
    · -- nothing fails here
      obtain hnull | ⟨hzero, hallocs⟩ := hfail
      · exact absurd hnull hop
      · exact absurd hzero (hpages.nonzero _ (by show _ < s.allocs; omega))
    · have hmem : s.mem = Function.update S.machine.mem (physToVirt (pages S.machine.allocs))
          (fun i => if 256 ≤ i.val then S.machine.mem S.machine.kernelVmm.pml4 i else 0) := by
        rw [hs]
      have hkernel : s.kernelVmm = S.machine.kernelVmm := by rw [hs]
      have hn : S.machine.allocs < s.allocs := by rw [hs]; exact Nat.lt_succ_self _
      have hnew := howned.tables.fresh hpages hn
      -- the PML4s there are do not change
      have hold : ∀ {j vmm}, S.space j = some vmm → s.mem vmm.pml4 = S.mem vmm.pml4 := by
        intro j vmm hj
        have hroot := howned.root hj
        rw [hmem]
        apply Function.update_of_ne
        intro heq
        rw [heq, hnew] at hroot
        cases hroot
      refine ⟨fun j vmm hj i hi => ?_, ?_⟩
      · show s.mem vmm.pml4 i = s.mem s.kernelVmm.pml4 i
        rw [hkernel, hold S.space_zero]
        obtain hj | ⟨-, rfl⟩ := System.space_append hkernel hj
        · rw [hold hj]
          exact hsame j vmm hj i hi
        · rw [hmem, show (VmmT.ofPhys (pages S.machine.allocs)).pml4 =
            physToVirt (pages S.machine.allocs) from rfl, Function.update_self, if_pos hi]
          rfl
      · obtain ⟨j, vmm, hj, hcr3⟩ := hactive
        refine ⟨j, vmm, ?_, ?_⟩
        · rw [System.space, hkernel, ← List.cons_append,
            List.getElem?_append_left (List.getElem?_eq_some_iff.mp hj).1]
          exact hj
        · show s.cr3 = _
          rw [hs]
          exact hcr3

/-- A call that meets an entry that is there changes no PML4, and while the kernel
is alone there is nothing to compare. -/
theorem HalfShared.map_step {virt phys flags : U64} (h : HalfShared pages taken S)
    (hflags : FlagsIn spaceFlags flags)
    (hpages : Supply pages (fun page => taken (physToVirt page))
      (S.step pages (.map k virt phys flags)).machine.allocs)
    (hshares : S.Shares (.map k virt phys flags)) :
    HalfShared pages taken (S.step pages (.map k virt phys flags)) := by
  obtain ⟨⟨label, howned⟩, hsame, hactive⟩ := h
  refine ⟨howned.step hflags hpages, ?_⟩
  rw [System.step] at hpages ⊢
  cases hk : S.space k with
  | none => exact ⟨hsame, hactive⟩
  | some vmm =>
    rw [hk] at hpages
    cases hm : vmmMap pages (some vmm) virt phys flags S.machine with
    | mk r s' =>
      rw [hm] at hpages
      obtain ⟨-, hkernel, hcr3⟩ := vmmMap_registers hm
      have hspace : ∀ j, (System.mk s' S.spaces).space j = S.space j := by
        intro j
        rw [System.space, System.space, hkernel]
      refine ⟨fun j vmm' hj i hi => ?_, ?_⟩
      · rw [hspace] at hj
        show s'.mem vmm'.pml4 i = s'.mem s'.kernelVmm.pml4 i
        rw [hkernel]
        cases hshares with
        | inl halone =>
          -- the only address space is the kernel's
          have hj₀ : j = 0 := by
            have hlt := (List.getElem?_eq_some_iff.mp hj).1
            rw [halone, List.length_singleton] at hlt
            omega
          subst hj₀
          rw [Option.some.inj hj]
        | inr hpres =>
          have hkeep : ∀ {n w}, S.space n = some w → s'.mem w.pml4 i = S.mem w.pml4 i := by
            intro n w hn
            apply howned.pml4_frame hk hm hpages (spaceFlags_low hflags) hn
            intro hnk hi
            subst hnk
            rw [Option.some.inj (hn.symm.trans hk), hi]
            exact hpres vmm hk
          rw [hkeep hj, hkeep S.space_zero]
          exact hsame j vmm' hj i hi
      · obtain ⟨j, w, hj, hactive⟩ := hactive
        exact ⟨j, w, (hspace j).trans hj, hcr3.trans hactive⟩

/-- Creating an address space, switching to one, and a call that meets an entry
that is there keep the upper halves equal. -/
theorem HalfShared.step {op : Op} (h : HalfShared pages taken S) (hop : op.Kernel)
    (hpages : Supply pages (fun page => taken (physToVirt page)) (S.step pages op).machine.allocs)
    (hshares : S.Shares op) : HalfShared pages taken (S.step pages op) := by
  cases op with
  | create vmm => exact h.create_step hop hpages
  | map k virt phys flags => exact h.map_step hop.2 hpages hshares
  | switch k =>
    obtain ⟨⟨label, howned⟩, hsame, hactive⟩ := h
    refine ⟨howned.step trivial hpages, ?_⟩
    rw [System.step]
    cases hk : S.space k with
    | none => exact ⟨hsame, hactive⟩
    | some vmm => exact ⟨hsame, k, vmm, hk, rfl⟩

/-- A call that fills in an entry of one PML4 while there are others is seen in
one address space only. -/
theorem HalfShared.broken {op : Op} (h : HalfShared pages taken S) (hop : op.Kernel)
    (hpages : Supply pages (fun page => taken (physToVirt page)) (S.step pages op).machine.allocs)
    (hshares : ¬ S.Shares op) : ¬ (S.step pages op).Agree := by
  obtain ⟨⟨label, howned⟩, hsame, -⟩ := h
  cases op with
  | create vmm => exact absurd trivial hshares
  | switch k => exact absurd trivial hshares
  | map k virt phys flags =>
    rw [System.Shares] at hshares
    push Not at hshares
    obtain ⟨hothers, vmm, hk, habs⟩ := hshares
    rw [System.step, hk] at hpages ⊢
    cases hm : vmmMap pages (some vmm) virt phys flags S.machine with
    | mk r s' =>
      rw [hm] at hpages
      obtain ⟨-, hkernel, -⟩ := vmmMap_registers hm
      have hflags := spaceFlags_low hop.2
      have habsent : ¬ S.mem vmm.pml4 (pml4Index virt) &&& pagePresent ≠ 0 := fun hne => hne habs
      -- in the space of the call the address is mapped now
      obtain ⟨-, -, -, -, hwalk⟩ := howned.tables.map_step hm hpages (howned.root hk) rfl hflags
      obtain ⟨e₁, e₂, e₃, hwalk⟩ := hwalk (vmmMap_ok_of_absent hm hpages habsent)
      have hhere : translation (walk s'.mem vmm.pml4 virt) = some (entry phys flags, 4) := by
        rw [hwalk]
        exact if_pos (entry_present phys flags)
      -- another one still has the kernel's entry, which is not present
      obtain ⟨j, vmm', hjk, hj⟩ : ∃ j vmm', j ≠ k ∧ S.space j = some vmm' := by
        by_cases hk₀ : k = 0
        · obtain ⟨w, rest, hcons⟩ := List.exists_cons_of_ne_nil hothers
          refine ⟨1, w, by omega, ?_⟩
          rw [System.space, hcons]
          rfl
        · exact ⟨0, S.machine.kernelVmm, fun h => hk₀ h.symm, S.space_zero⟩
      have hthere : translation (walk s'.mem vmm'.pml4 virt) = none := by
        have hslot : s'.mem vmm'.pml4 (pml4Index virt) = S.mem vmm.pml4 (pml4Index virt) := by
          rw [howned.pml4_frame hk hm hpages hflags hj fun heq => absurd heq hjk,
            hsame j vmm' hj _ hop.1, hsame k vmm hk _ hop.1]
        rw [← hslot] at habsent
        rw [walk, RadixForest.trail_stop tableOf (tableOf_absent habsent)]
        exact if_neg habsent
      intro hagree
      have hroot : ∀ {n w}, S.space n = some w → w.pml4 ∈ (System.mk s' S.spaces).roots := by
        intro n w hn
        apply System.root_mem (k := n)
        rw [← hn, System.space, System.space, hkernel]
      have heq := hagree _ (hroot hk) _ (hroot hj) virt hop.1
      rw [show (System.mk s' S.spaces).mem = s'.mem from rfl, hhere, hthere] at heq
      cases heq

end

/-- The address spaces agree on the kernel half at every moment of a run exactly
when every call of `vmm_map` meets an entry of the PML4 that is there already, or
is made before any address space was created. -/
theorem vmm_kernelHalf_iff (pages : Nat → U64) (s₀ : Machine) (ops : List Op)
    (hkernel : KernelTree s₀.mem s₀.kernelVmm.pml4) (hcr3 : s₀.cr3 = s₀.kernelVmm.pml4Phys)
    (hpages : Supply pages (fun page => KernelTable s₀.mem s₀.kernelVmm.pml4 (physToVirt page))
      (Runs.run (System.step pages) ⟨s₀, []⟩ ops).machine.allocs)
    (hops : ∀ op ∈ ops, op.Kernel) :
    (∀ before after, ops = before ++ after →
      (Runs.run (System.step pages) ⟨s₀, []⟩ before).Agree) ↔
    (∀ before op after, ops = before ++ op :: after →
      (Runs.run (System.step pages) ⟨s₀, []⟩ before).Shares op) := by
  rw [← Runs.throughout_iff, ← Runs.each_iff]
  have hstart : HalfShared pages (KernelTable s₀.mem s₀.kernelVmm.pml4) ⟨s₀, []⟩ := by
    refine ⟨⟨_, Owned.start pages hkernel⟩, fun k vmm hk i _ => ?_, 0, s₀.kernelVmm, rfl, hcr3⟩
    cases k with
    | zero => rw [← Option.some.inj hk]
    | succ k => cases hk
  refine Runs.exact_iff (fun S hS => hS.agree) ?_ ?_ hstart
    (Runs.each_of_bound (μ := fun S => S.machine.allocs) (System.step_allocs pages) hops
      (Nat.le_refl _))
  · intro S op hS hop hshares
    exact hS.step hop.1 (hpages.mono hop.2) hshares
  · intro S op hS hop hshares
    exact hS.broken hop.1 (hpages.mono hop.2) hshares

/-- The kernel maps a page of its half, an address space is created and maps the
next one; with the address space created first, they do not agree in the end. -/
theorem vmm_kernelHalf_iff_mapFirst :
    (∀ before after,
      [.map 0 0xFFFF800000000000 0x7000 pageWritable, .create 0x10,
        .map 1 0xFFFF800000001000 0x8000 pageWritable] = before ++ after →
      (Runs.run (System.step (pagesFrom 2)) ⟨Machine.cleared 0x1000, []⟩ before).Agree) ∧
    ¬ ∀ before after,
      [.create 0x10, .map 0 0xFFFF800000000000 0x7000 pageWritable] = before ++ after →
      (Runs.run (System.step (pagesFrom 2)) ⟨Machine.cleared 0x1000, []⟩ before).Agree := by
  have hsupply {n : Nat} (hallocs : n = 4) :
      Supply (pagesFrom 2) (fun page => KernelTable (Machine.cleared 0x1000).mem
        (VmmT.ofPhys 0x1000).pml4 (physToVirt page)) n := by
    have hpages : Supply (pagesFrom 2) (fun page => page = 0x1000) 4 :=
      supply_pagesFrom (by decide) (by decide)
    rw [hallocs]
    exact supply_cleared hpages
  have hmap {virt phys : U64} (hvirt : KernelHalf virt) (k : Nat) :
      (Op.map k virt phys pageWritable).Kernel := ⟨hvirt, by decide⟩
  have hcreate : (Op.create 0x10).Kernel := fun h => absurd h (by decide)
  constructor
  · refine (vmm_kernelHalf_iff (pagesFrom 2) (Machine.cleared 0x1000) _ (kernelTree_cleared _ _) rfl
      (hsupply (by decide +kernel)) ?_).mpr (Runs.each_iff.mp ⟨Or.inl rfl, trivial, Or.inr ?_,
        trivial⟩)
    · exact List.forall_mem_cons.mpr ⟨hmap (by decide) 0, List.forall_mem_cons.mpr
        ⟨hcreate, List.forall_mem_singleton.mpr (hmap (by decide) 1)⟩⟩
    · -- the new address space has a copy of the entry
      intro vmm hk
      have hentry : ∀ vmm ∈ System.space (Runs.run (System.step (pagesFrom 2))
          ⟨Machine.cleared 0x1000, []⟩ [.map 0 0xFFFF800000000000 0x7000 pageWritable,
            .create 0x10]) 1, (Runs.run (System.step (pagesFrom 2)) ⟨Machine.cleared 0x1000, []⟩
              [.map 0 0xFFFF800000000000 0x7000 pageWritable, .create 0x10]).mem vmm.pml4
                (pml4Index 0xFFFF800000001000) &&& pagePresent ≠ 0 := by
        decide +kernel
      exact hentry vmm hk
  · intro hagree
    have hshares := (vmm_kernelHalf_iff (pagesFrom 2) (Machine.cleared 0x1000) _
      (kernelTree_cleared _ _) rfl (hsupply (by decide +kernel)) (List.forall_mem_cons.mpr
        ⟨hcreate, List.forall_mem_singleton.mpr (hmap (by decide) 0)⟩)).mp hagree
    obtain hnone | hentry := hshares [.create 0x10] _ [] rfl
    · exact absurd hnone (by decide +kernel)
    · exact absurd (hentry _ rfl) (by decide +kernel)

/-- The other way round: the page the kernel maps after an address space was
created is not there in that address space. -/
theorem vmm_kernelHalf_diverges :
    ¬ (Runs.run (System.step (pagesFrom 2)) ⟨Machine.cleared 0x1000, []⟩
      [.create 0x10, .map 0 0xFFFF800000000000 0x7000 pageWritable]).Agree := by
  intro h
  have heq := h (physToVirt 0x1000) (by decide +kernel) (physToVirt 0x2000) (by decide +kernel)
    0xFFFF800000000000 (by decide)
  revert heq
  decide +kernel

end JarJar.Vmm
