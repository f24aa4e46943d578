import JarJar.KernelRuns

/- What the address spaces are for. Seen from outside an address space is a partial map from
   the pages of its lower half to entries, `vmm_create` makes one that maps nothing, and
   `vmm_map` maps one page in one of them: `AddressSpaces` and its `step` say that and
   nothing of tables, of the allocator or of what is at hand in memory.

   What is proved (`spaces_implemented`): the page tables of vmm.c over the bitmap of pmm.c
   implement it, whatever callers do with their own pages in between. -/
namespace JarJar.KernelMemory
open Vmm

/-- Address spaces by number, and the entry each has for the number of a page. -/
structure AddressSpaces where
  count : Nat
  leaf : Nat → Nat → Option U64

namespace AddressSpaces

/-- `e` is what space `k` has for page `n` from now on. -/
def setLeaf (A : AddressSpaces) (k n : Nat) (e : U64) : AddressSpaces :=
  { A with leaf := Function.update A.leaf k (Function.update (A.leaf k) n (some e)) }

def step (A : AddressSpaces) : Op → AddressSpaces
  | .create block => if block = 0 then A else { A with count := A.count + 1 }
  | .map k virt phys flags =>
    if k < A.count then A.setLeaf k (pageNumber virt) (entry phys flags) else A
  | _ => A

theorem setLeaf_self (A : AddressSpaces) (k n : Nat) (e : U64) :
    (A.setLeaf k n e).leaf k n = some e := by
  simp [setLeaf]

theorem setLeaf_other {A : AddressSpaces} {k n j m : Nat} {e : U64} (h : ¬ (j = k ∧ m = n)) :
    (A.setLeaf k n e).leaf j m = A.leaf j m := by
  by_cases hj : j = k
  · subst hj
    have hm : m ≠ n := fun hm => h ⟨rfl, hm⟩
    simp [setLeaf, hm]
  · simp [setLeaf, hj]

end AddressSpaces

/-- The entry an address translates through, when there is one. -/
def mapped (mem : U64 → Fin 512 → U64) (pml4 virt : U64) : Option U64 :=
  (walkResult mem pml4 virt).bind List.getLast?

/-- The first address of a page. -/
def pageStart (n : Nat) : U64 := BitVec.ofNat 64 (n * 4096)

/-- Before anything happens there is the kernel's space alone. -/
def kernelSpaces (vmm : Vmm.Machine) : AddressSpaces where
  count := 1
  leaf := fun k n => if k = 0 then mapped vmm.mem vmm.kernelVmm.pml4 (pageStart n) else none

/-- The tables show what the address spaces map. -/
structure Shows (S : System) (A : AddressSpaces) : Prop where
  count : A.count = S.spaces.length + 1
  leaf : ∀ {k space}, S.vm.space k = some space → ∀ v, ¬ KernelHalf v →
    mapped S.kernel.vmm.mem space.pml4 v = A.leaf k (pageNumber v)
  rest : ∀ k, A.count ≤ k → ∀ n, A.leaf k n = none

/-! ## Looking an address up -/

section
variable {pages : Nat → U64} {taken : U64 → Prop} {s s' : Vmm.Machine}
  {label : U64 → Option Place} {t u flags root : U64} {l m : Place} {i : Fin 512}

theorem mapped_congr {mem : U64 → Fin 512 → U64} {pml4 v w : U64} (h : pageNumber v = pageNumber w) :
    mapped mem pml4 v = mapped mem pml4 w := by
  have hpath := (path_eq_iff v w).mpr h
  simp only [path, List.cons.injEq, and_true] at hpath
  obtain ⟨h₁, h₂, h₃, h₄⟩ := hpath
  rw [mapped, mapped, walkResult, walkResult, walk, walk, h₁, h₂, h₃, h₄]

theorem mapped_of_walk {mem : U64 → Fin 512 → U64} {pml4 v e e₁ e₂ e₃ : U64} (hp : Present e)
    (h : walk mem pml4 v = [e₁, e₂, e₃, e]) : mapped mem pml4 v = some e := by
  rw [mapped, walkResult, h, RadixForest.found]
  simp only [List.getLast?_cons_cons, List.getLast?_singleton, Option.bind_some]
  rw [if_pos hp]
  rfl

/-- A new table is seen by no lookup. -/
theorem table_step_lookup (h : Tables pages taken s label)
    (hg : Vmm.getOrCreateTable pages t i flags s = (u, s'))
    (hpages : Supply pages (fun page => taken (physToVirt page)) s'.allocs)
    (ht : label t = some l) (hl : l.depth < 3) (hf : LowFlags flags) (hroot : label root = some m)
    (hm : m.depth = 0) (v : U64) : walkResult s'.mem root v = walkResult s.mem root v := by
  obtain ⟨-, -, rfl⟩ | ⟨-, hzero, -, rfl⟩ | ⟨habs, -, rfl, hs'⟩ := getOrCreateTable_cases hg
  · rfl
  · exact absurd hzero (hpages.nonzero _ (Nat.lt_succ_self _))
  · have hmem : s'.mem = RadixForest.link s.mem t i (entry (pages s.allocs) flags)
        (physToVirt (pages s.allocs)) 0 := by rw [hs']
    have hn : s.allocs < s'.allocs := by rw [hs']; exact Nat.lt_succ_self _
    have hslot : ∀ l', label t = some l' → l'.depth < 3 ∧
        tableOf (entry (pages s.allocs) flags) = some (physToVirt (pages s.allocs)) := by
      intro l' hl'
      obtain rfl := Option.some.inj (ht.symm.trans hl')
      exact ⟨hl, tableOf_entry (hpages.page _ hn) hf.tableFlags⟩
    rw [walkResult_eq_lookup, walkResult_eq_lookup, hmem]
    exact RadixForest.lookup_link h.forest Place.depth_child hslot (h.fresh hpages hn)
      (tableOf_absent habs) habs tableOf_zero zero_absent _ hroot (by simp [hm])

/-- The leaf stored for an address is seen by lookups of its page in its space alone, as long
as the address looked up is in the lower half. -/
theorem store_leaf_lookup {j k : Nat} {virt v e : U64} (h : Tables pages taken s label)
    (ht : label t = some ⟨if 256 ≤ (pml4Index virt).val then none else some k,
      [pml4Index virt, pdptIndex virt, pdIndex virt]⟩)
    (hroot : label root = some (Place.root j)) (hlow : ¬ KernelHalf v)
    (hoff : ¬ (j = k ∧ pageNumber v = pageNumber virt)) :
    walkResult (s.store t (ptIndex virt) e).mem root v = walkResult s.mem root v := by
  have hwalk : walk (s.store t (ptIndex virt) e).mem root v = walk s.mem root v := by
    apply h.forest.trail_congr Place.depth_child _ hroot (by simp)
    intro pre i post hpath p hp
    apply RadixForest.put_other
    rintro ⟨rfl, rfl⟩
    apply hoff
    -- the slot is on the path of `v`, so the paths are one
    have hplace := Option.some.inj (hp.symm.trans ht)
    have hpre := congrArg Place.path hplace
    rw [Place.path_foldl] at hpre
    subst hpre
    have hpost : post = [] := by
      have hlen := congrArg List.length hpath
      simp only [List.length_cons, List.length_append, List.length_nil] at hlen
      exact List.eq_nil_of_length_eq_zero (by omega)
    subst hpost
    have hpaths : path v = path virt := hpath
    have hindex : pml4Index v = pml4Index virt := (List.cons.inj hpath).1
    have howner := congrArg Place.owner hplace
    rw [Place.at_path] at howner
    have hlow' : ¬ 256 ≤ (pml4Index virt).val := hindex ▸ hlow
    simp only [if_neg hlow'] at howner
    exact ⟨Option.some.inj howner, (path_eq_iff v virt).mp hpaths⟩
  rw [walkResult, walkResult, hwalk]

theorem mapped_new {mem : U64 → Fin 512 → U64} {pml4 v : U64}
    (h : mem pml4 (pml4Index v) = 0) :
    mapped mem pml4 v = none := by
  rw [mapped, walkResult_eq_lookup, RadixForest.lookup_absent]
  · rfl
  · rw [h, tableOf_zero]
  · rw [h]
    exact zero_absent

/-- What a call of `vmm_create` does to lookups: nothing without a block, and otherwise there is
one more PML4, which maps nothing in the lower half. -/
theorem create_lookup {block : U64} {new : Option VmmT} (h : Tables pages taken s label)
    (hcreate : Vmm.vmmCreate pages block s = (new, s'))
    (hpages : Supply pages (fun page => taken (physToVirt page)) s'.allocs) :
    s'.kernelVmm = s.kernelVmm ∧
    (∀ root j v, label root = some (Place.root j) → mapped s'.mem root v = mapped s.mem root v) ∧
    ((block = 0 ∧ new = none) ∨
      (block ≠ 0 ∧ ∃ space, new = some space ∧
        ∀ v, ¬ KernelHalf v → mapped s'.mem space.pml4 v = none)) := by
  obtain ⟨rfl, hmem, -, hkernel, -, hfail⟩ | ⟨hblock, -, rfl, hs'⟩ := vmmCreate_cases hcreate
  · refine ⟨hkernel, fun root j v _ => by rw [hmem], .inl ⟨?_, rfl⟩⟩
    obtain hblock | ⟨hzero, hallocs⟩ := hfail
    · exact hblock
    · exact absurd hzero (hpages.nonzero _ (by omega))
  · have hn : s.allocs < s'.allocs := by rw [hs']; exact Nat.lt_succ_self _
    have hnew := h.fresh hpages hn
    have hmem : s'.mem = Function.update s.mem (physToVirt (pages s.allocs))
        (fun i => if 256 ≤ i.val then s.mem s.kernelVmm.pml4 i else 0) := by rw [hs']
    refine ⟨by rw [hs'], fun root j v hroot => ?_, .inr ⟨hblock, _, rfl, fun v hlow => ?_⟩⟩
    · -- no table on the way is the new one
      rw [mapped, mapped, walkResult, walkResult]
      congr 2
      apply h.forest.trail_congr Place.depth_child _ hroot (by simp)
      intro pre i post _ p hp
      have hne : p ≠ physToVirt (pages s.allocs) := by
        rintro rfl
        rw [hnew] at hp
        cases hp
      rw [hmem, Function.update_of_ne hne]
    · apply mapped_new
      rw [VmmT.ofPhys, hmem, Function.update_self]
      exact if_neg hlow

/-- What a call of `vmm_map` does to lookups of the lower half: it succeeds, its page gets the
entry in its space, and everything else is looked up as before. -/
theorem map_lookup {k : Nat} {vmm : VmmT} {virt phys : U64} {r : JarResult}
    (h : Tables pages taken s label)
    (hmap : Vmm.vmmMap pages (some vmm) virt phys flags s = (r, s'))
    (hpages : Supply pages (fun page => taken (physToVirt page)) s'.allocs) (hnull : ¬ taken 0)
    (hk : label vmm.pml4 = some (Place.root k)) (hf : LowFlags flags) :
    r = .ok ∧ mapped s'.mem vmm.pml4 virt = some (entry phys flags) ∧
    ∀ j root v, label root = some (Place.root j) → ¬ KernelHalf v →
      ¬ (j = k ∧ pageNumber v = pageNumber virt) →
      mapped s'.mem root v = mapped s.mem root v := by
  obtain ⟨-, -, -, -, hwalk⟩ := h.map_step hmap hpages hk rfl hf
  obtain ⟨pdpt, s₁, pd, s₂, pt, s₃, hg₁, hg₂, hg₃, ⟨hle₃, -⟩, hlast⟩ := vmmMap_cases hmap
  have hle₁ := getOrCreateTable_allocs hg₂
  have hle₂ := getOrCreateTable_allocs hg₃
  have hp₃ : Supply pages (fun page => taken (physToVirt page)) s₃.allocs := hle₃ ▸ hpages
  have hp₂ := hp₃.mono hle₂
  have hp₁ := hp₂.mono hle₁
  obtain ⟨label₁, hext₁, h₁, hpdpt, -⟩ := h.table_step hg₁ hp₁ hk (by simp) hf
  obtain ⟨label₂, hext₂, h₂, hpd, -⟩ := h₁.table_step hg₂ hp₂ hpdpt (by simp) hf
  obtain ⟨label₃, hext₃, h₃, hpt, -⟩ := h₂.table_step hg₃ hp₃ hpd (by simp) hf
  have hplace : label₃ pt = some ⟨if 256 ≤ (pml4Index virt).val then none else some k,
      [pml4Index virt, pdptIndex virt, pdIndex virt]⟩ :=
    hpt.trans (congrArg some (Place.at_path k (pml4Index virt) [pdptIndex virt, pdIndex virt]))
  have hpt0 : pt ≠ 0 := by
    rintro rfl
    obtain htaken | ⟨n, hn, hpage⟩ := h₃.live hpt
    · exact hnull htaken
    · exact hp₃.pointer n hn hpage.symm
  obtain ⟨hz, -, -⟩ | ⟨-, hr, rfl⟩ := hlast
  · exact absurd hz hpt0
  · obtain ⟨e₁, e₂, e₃, hw⟩ := hwalk hr
    refine ⟨hr, mapped_of_walk (entry_present _ _) hw, fun j root v hroot hlow hoff => ?_⟩
    have hroot₁ := hext₁ _ _ hroot
    have hroot₂ := hext₂ _ _ hroot₁
    have hsame : walkResult (s₃.store pt (ptIndex virt) (entry phys flags)).mem root v =
        walkResult s.mem root v := by
      calc walkResult (s₃.store pt (ptIndex virt) (entry phys flags)).mem root v
          = walkResult s₃.mem root v := store_leaf_lookup h₃ hplace (hext₃ _ _ hroot₂) hlow hoff
        _ = walkResult s₂.mem root v :=
          table_step_lookup h₂ hg₃ hp₃ hpd (by simp) hf hroot₂ rfl v
        _ = walkResult s₁.mem root v :=
          table_step_lookup h₁ hg₂ hp₂ hpdpt (by simp) hf hroot₁ rfl v
        _ = walkResult s.mem root v := table_step_lookup h hg₁ hp₁ hk (by simp) hf hroot rfl v
    rw [mapped, hsame, mapped]

end

/-! ## Steps -/

section
variable {pmm : Pmm.Machine} {vmm : Vmm.Machine} {S : System} {A : AddressSpaces}
  {label : U64 → Option Place}

theorem Shows.outside_step (hshow : Shows S A) (hstart : Start pmm vmm)
    (h : Sound pmm vmm S label) (hserved : S.Served) {op : Op} (hout : op.Outside)
    (hfair : S.Fair op) : Shows (S.step op) (A.step op) := by
  have hA : A.step op = A := by
    obtain rfl | ⟨a, rfl⟩ | ⟨a, i, e, rfl⟩ := hout.cases
    · rfl
    · rfl
    · rfl
  rw [hA]
  refine ⟨?_, fun {k space} hk v hlow => ?_, hshow.rest⟩
  · rw [(outside_frame hstart h hserved hout hfair).1]
    exact hshow.count
  · rw [outside_space S hout k] at hk
    rw [← hshow.leaf hk v hlow, mapped, mapped, walkResult, walkResult,
      outside_walk hstart h hserved hout hfair hk v]

theorem Shows.create_step (hshow : Shows S A) (h : Sound pmm vmm S label) {block : U64}
    (hpages : Supply S.kernel.supply (fun page => Taken vmm (physToVirt page))
      (S.step (.create block)).kernel.vmm.allocs) :
    Shows (S.step (.create block)) (A.step (.create block)) := by
  obtain ⟨new, K, hcreate⟩ : ∃ new K, vmmCreate block S.kernel = (new, K) := ⟨_, _, rfl⟩
  have hsupplied := (vmmCreate_supplied h.counted hcreate).1
  have hroot : ∀ {k space}, S.vm.space k = some space → label space.pml4 = some (Place.root k) :=
    h.owned.root
  rw [System.step, hcreate] at hpages ⊢
  have hallocs : Supply S.kernel.supply (fun page => Taken vmm (physToVirt page)) K.vmm.allocs := by
    cases new <;> exact hpages
  obtain ⟨hkernel, hold, ⟨hblock, rfl⟩ | ⟨hblock, space, rfl, hempty⟩⟩ :=
    create_lookup h.owned.tables hsupplied hallocs
  · rw [AddressSpaces.step, if_pos hblock]
    refine ⟨hshow.count, fun {k space} hk v hlow => ?_, hshow.rest⟩
    have hspace : Vmm.System.space ⟨K.vmm, S.spaces⟩ k = S.vm.space k :=
      space_congr S.vm ⟨K.vmm, S.spaces⟩ hkernel rfl k
    have hk' : S.vm.space k = some space := hspace.symm.trans hk
    exact (hold _ _ v (hroot hk')).trans (hshow.leaf hk' v hlow)
  · rw [AddressSpaces.step, if_neg hblock]
    refine ⟨?_, fun {k space'} hk v hlow => ?_, fun k hk n => hshow.rest k (Nat.le_of_succ_le hk) n⟩
    · show A.count + 1 = (S.spaces ++ [space]).length + 1
      rw [hshow.count, List.length_append, List.length_singleton]
    · obtain hk' | ⟨rfl, rfl⟩ := Vmm.System.space_append (S := S.vm) hkernel hk
      · exact (hold _ _ v (hroot hk')).trans (hshow.leaf hk' v hlow)
      · exact (hempty v hlow).trans (hshow.rest _ (Nat.le_of_eq hshow.count) _).symm

theorem Shows.map_step (hshow : Shows S A) (h : Sound pmm vmm S label) (hnull : ¬ Taken vmm 0)
    {k : Nat} {virt phys flags : U64} (hflags : FlagsIn spaceFlags flags)
    (hpages : Supply S.kernel.supply (fun page => Taken vmm (physToVirt page))
      (S.step (.map k virt phys flags)).kernel.vmm.allocs) :
    Shows (S.step (.map k virt phys flags)) (A.step (.map k virt phys flags)) := by
  obtain ⟨r, K, hmap⟩ : ∃ r K, vmmMap (S.vm.space k) virt phys flags S.kernel = (r, K) :=
    ⟨_, _, rfl⟩
  have hsupplied := (vmmMap_supplied h.counted hmap).1
  rw [System.step, hmap] at hpages ⊢
  cases hk : S.vm.space k with
  | none =>
    -- no such space: nothing happens on either side
    rw [hk] at hmap
    obtain ⟨-, rfl⟩ := Prod.mk.inj hmap
    have hcount : ¬ k < A.count := by
      have hnone := List.getElem?_eq_none_iff.mp hk
      rw [List.length_cons] at hnone
      rw [hshow.count]
      exact Nat.not_lt.mpr hnone
    rw [AddressSpaces.step, if_neg hcount]
    exact hshow
  | some space =>
    rw [hk] at hsupplied
    have hcount : k < A.count := by
      have hlt := (List.getElem?_eq_some_iff.mp hk).1
      rw [List.length_cons] at hlt
      rw [hshow.count]
      exact hlt
    obtain ⟨-, hnew, hold⟩ := map_lookup h.owned.tables hsupplied hpages hnull (h.owned.root hk)
      (spaceFlags_low hflags)
    have hkernel := (vmmMap_registers hsupplied).2.1
    rw [AddressSpaces.step, if_pos hcount]
    refine ⟨hshow.count, fun {j space'} hj v hlow => ?_, fun j hj n => ?_⟩
    · have hspace : Vmm.System.space ⟨K.vmm, S.spaces⟩ j = S.vm.space j :=
        space_congr S.vm ⟨K.vmm, S.spaces⟩ hkernel rfl j
      have hj' : S.vm.space j = some space' := hspace.symm.trans hj
      by_cases hsame : j = k ∧ pageNumber v = pageNumber virt
      · obtain ⟨rfl, hpage⟩ := hsame
        obtain rfl := Option.some.inj (hk.symm.trans hj')
        rw [hpage, A.setLeaf_self, mapped_congr hpage]
        exact hnew
      · rw [AddressSpaces.setLeaf_other hsame, ← hshow.leaf hj' v hlow]
        exact hold j _ v (h.owned.root hj') hlow hsame
    · rw [AddressSpaces.setLeaf_other (fun hs => by rw [hs.1] at hj; exact Nat.not_lt.mpr hj hcount)]
      exact hshow.rest j hj n

theorem Shows.switch_step (hshow : Shows S A) (k : Nat) :
    Shows (S.step (.switch k)) (A.step (.switch k)) := by
  have hsame : (vmmSwitch (S.vm.space k) S.kernel.vmm).mem = S.kernel.vmm.mem ∧
      (vmmSwitch (S.vm.space k) S.kernel.vmm).kernelVmm = S.kernel.vmm.kernelVmm := by
    cases S.vm.space k <;> exact ⟨rfl, rfl⟩
  refine ⟨hshow.count, fun {j space} hj v hlow => ?_, hshow.rest⟩
  have hspace : Vmm.System.space ⟨vmmSwitch (S.vm.space k) S.kernel.vmm, S.spaces⟩ j =
      S.vm.space j := space_congr S.vm ⟨_, S.spaces⟩ hsame.2 rfl j
  have hj' : S.vm.space j = some space := hspace.symm.trans hj
  exact (congrArg (fun mem => mapped mem space.pml4 v) hsame.1).trans (hshow.leaf hj' v hlow)

theorem Shows.step (hshow : Shows S A) (hstart : Start pmm vmm) (h : Sound pmm vmm S label)
    (hserved : S.Served) {op : Op} (hfair : S.Fair op) (hserved' : (S.step op).Served) :
    Shows (S.step op) (A.step op) := by
  have hpages : ∀ {vop}, op.toVmm = some vop → Supply S.kernel.supply
      (fun page => Taken vmm (physToVirt page)) (S.step op).kernel.vmm.allocs := by
    intro vop hop
    obtain ⟨hcounted, htracks⟩ := inside_tracks hstart h hop
    rw [← (inside_step h.counted hop).2.2.supply]
    exact supply_answers hstart hcounted htracks hserved'
  cases op with
  | alloc => exact hshow.outside_step hstart h hserved trivial hfair
  | free a => exact hshow.outside_step hstart h hserved trivial hfair
  | write a i e => exact hshow.outside_step hstart h hserved trivial hfair
  | create block => exact hshow.create_step h (hpages rfl)
  | map k virt phys flags => exact hshow.map_step h hstart.null hfair (hpages rfl)
  | switch k => exact hshow.switch_step k

theorem Shows.run (hshow : Shows S A) (hstart : Start pmm vmm) (h : Sound pmm vmm S label)
    {ops : List Op} (hfair : Runs.Each System.step System.Fair S ops)
    (hserved : (Runs.run System.step S ops).Served) :
    Shows (Runs.run System.step S ops) (Runs.run AddressSpaces.step A ops) := by
  induction ops generalizing S A label with
  | nil => exact hshow
  | cons op ops ih =>
    have hnow : S.Served := served_of_run h.counted (op :: ops) hserved
    have hnext : (S.step op).Served := served_of_run (counted_step h.counted op).1 _ hserved
    obtain ⟨label', h'⟩ := h.step hstart hnow hfair.1 hnext
    exact ih (hshow.step hstart h hnow hfair.1 hnext) h' hfair.2 hserved

theorem Shows.start (pmm : Pmm.Machine) (vmm : Vmm.Machine) :
    Shows (start pmm vmm) (kernelSpaces vmm) where
  count := rfl
  leaf := by
    intro k space hk v _
    cases k with
    | zero =>
      obtain rfl := Option.some.inj hk
      apply mapped_congr
      rw [pageNumber, pageNumber, pageStart, BitVec.toNat_ofNat]
      omega
    | succ k => cases hk
  rest := by
    intro k hk n
    refine if_neg ?_
    rintro rfl
    exact Nat.not_succ_le_zero 0 hk

end

/-- **The page tables implement independent address spaces.** Along every run, with callers
taking, filling and giving back pages in between, an address of the lower half translates in
each space through the entry that the last `vmm_map` of its page there asked for. -/
theorem spaces_implemented (pmm : Pmm.Machine) (vmm : Vmm.Machine) (hstart : Start pmm vmm)
    (ops : List Op) (S : System) (A : AddressSpaces)
    (hS : S = Runs.run System.step (start pmm vmm) ops)
    (hA : A = Runs.run AddressSpaces.step (kernelSpaces vmm) ops)
    (hfair : Runs.Each System.step System.Fair (start pmm vmm) ops) (hserved : S.Served) :
    S.spaces.length + 1 = A.count ∧
    ∀ k space, S.vm.space k = some space → ∀ v, ¬ KernelHalf v →
      mapped S.kernel.vmm.mem space.pml4 v = A.leaf k (pageNumber v) := by
  rw [hS] at hserved ⊢
  rw [hA]
  have hshow := (Shows.start pmm vmm).run hstart (Sound.start hstart) hfair hserved
  exact ⟨hshow.count.symm, fun k space hk v hlow => hshow.leaf hk v hlow⟩

/-- The space that was created maps the page it was told to. -/
theorem spaces_implemented_mixedRun :
    let S := Runs.run System.step (start eightPages (Vmm.Machine.cleared 0x1000)) mixedRun
    mapped S.kernel.vmm.mem (physToVirt 0x2000) 0x400123 = some (entry 0x7000 pageUser) :=
  (spaces_implemented _ _ start_eightPages mixedRun _ _ rfl rfl fair_mixedRun
    (by unfold System.Served; decide +kernel)).2 1 (VmmT.ofPhys 0x2000) (by rfl) _ (by decide)

end JarJar.KernelMemory
