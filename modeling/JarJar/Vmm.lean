import JarJar.Paging
import JarJar.Lib.RadixForest

/- The virtual memory manager: address spaces as four levels of page tables,
   created level by level when a page is mapped.

   Correspondence (C ↔ Lean):
     `vmm_t`                          ↔ `VmmT`
     `kernel_vmm`, the CR3 register   ↔ `Machine.kernelVmm`, `Machine.cr3`
     `vmm_init`                       ↔ `vmmInit`
     `vmm_create`                     ↔ `vmmCreate`
     `get_or_create_table`            ↔ `getOrCreateTable`
     `vmm_map`                        ↔ `vmmMap`
     `vmm_switch`                     ↔ `vmmSwitch`
   A table is known by the pointer the kernel has to it; pointers to tables are
   page-aligned, so two tables are the same or do not overlap. What
   `pmm_alloc_page` returns is a parameter: `pages k` is the result of call `k`.
   The TLB and the messages on the console are left out, as is the NX bit of the
   EFER register. Every table `get_or_create_table` returns is logged. -/
namespace JarJar.Vmm

/-- `vmm_t`. Both writers compute the pointer from the physical address. -/
structure VmmT where
  pml4Phys : U64
  pml4 : U64
  pml4_eq : pml4 = physToVirt pml4Phys

/-- The fields as `vmm_init` and `vmm_create` fill them in. -/
def VmmT.ofPhys (pml4Phys : U64) : VmmT := ⟨pml4Phys, physToVirt pml4Phys, rfl⟩

/-- A table `get_or_create_table` returned for a slot; `page` is the page it took
from `pmm_alloc_page` to do so, if it took one. -/
structure TableUse where
  parent : U64
  index : Fin 512
  table : U64
  page : Option U64
  deriving DecidableEq

/-- What vmm.c works on: the entries behind the pointers to tables, the number
of pages asked for so far, the CR3 register, the static `kernel_vmm`, and the
tables returned so far, the latest first. -/
structure Machine where
  mem : U64 → Fin 512 → U64
  allocs : Nat
  cr3 : U64
  kernelVmm : VmmT
  uses : List TableUse

namespace Machine

/-- The machine with all entries clear and the PML4 at `pml4Phys` in use. -/
def cleared (pml4Phys : U64) : Machine where
  mem := fun _ _ => 0
  allocs := 0
  cr3 := pml4Phys
  kernelVmm := VmmT.ofPhys pml4Phys
  uses := []

theorem cleared_absent (pml4Phys table : U64) (index : Fin 512) :
    ¬ (cleared pml4Phys).mem table index &&& pagePresent ≠ 0 := by
  show ¬ (0#64 &&& pagePresent ≠ 0)
  decide

/-- `table[index] = e`. -/
def store (s : Machine) (table : U64) (index : Fin 512) (e : U64) : Machine :=
  { s with mem := RadixForest.put s.mem table index e }

/-- `for (int i = 0; i < 512; i++) table[i] = 0`. -/
def zero (s : Machine) (table : U64) : Machine :=
  { s with mem := RadixForest.clear s.mem table 0 }

def use (s : Machine) (u : TableUse) : Machine := { s with uses := u :: s.uses }

end Machine

section Operations
variable (pages : Nat → U64)

/-- A call of `pmm_alloc_page`. -/
def allocPage (s : Machine) : U64 × Machine := (pages s.allocs, { s with allocs := s.allocs + 1 })

def vmmInit (s : Machine) : Machine := { s with kernelVmm := VmmT.ofPhys s.cr3 }

/-- `vmm` is what `kmalloc` returned; the block is only filled in here, so that
it stands for the address space from then on. -/
def vmmCreate (vmm : U64) (s : Machine) : Option VmmT × Machine :=
  if vmm = 0 then (none, s)
  else
    let (page, s) := allocPage pages s
    if page = 0 then (none, s)
    else
      let vmm := VmmT.ofPhys page
      let pml4 := fun i : Fin 512 => if 256 ≤ i.val then s.mem s.kernelVmm.pml4 i else 0
      (some vmm, { s with mem := Function.update s.mem vmm.pml4 pml4 })

def getOrCreateTable (parent : U64) (index : Fin 512) (flags : U64) (s : Machine) :
    U64 × Machine :=
  if s.mem parent index &&& pagePresent ≠ 0 then
    let table := physToVirt (s.mem parent index &&& pageMask)
    (table, s.use ⟨parent, index, table, none⟩)
  else
    let (page, s) := allocPage pages s
    if page = 0 then (0, s)
    else
      let s := s.store parent index (entry page flags)
      let table := physToVirt page
      (table, (s.zero table).use ⟨parent, index, table, some page⟩)

def vmmMap (vmm : Option VmmT) (virt phys flags : U64) (s : Machine) : JarResult × Machine :=
  match vmm with
  | none => (.inval, s)
  | some vmm =>
    let (pdpt, s) := getOrCreateTable pages vmm.pml4 (pml4Index virt) flags s
    let (pd, s) := getOrCreateTable pages pdpt (pdptIndex virt) flags s
    let (pt, s) := getOrCreateTable pages pd (pdIndex virt) flags s
    if pt = 0 then (.nomem, s)
    else (.ok, s.store pt (ptIndex virt) (entry phys flags))

def vmmSwitch (vmm : Option VmmT) (s : Machine) : Machine :=
  match vmm with
  | none => s
  | some vmm => { s with cr3 := vmm.pml4Phys }

end Operations

/-- The page walk of the processor: the entries it reads for an address, from
the PML4 down, to the leaf or to the first entry that leads to no table. -/
def walk (mem : U64 → Fin 512 → U64) (pml4 virt : U64) : List U64 :=
  RadixForest.trail tableOf mem pml4 (pml4Index virt) [pdptIndex virt, pdIndex virt, ptIndex virt]

theorem walk_of_tables {mem : U64 → Fin 512 → U64} {pml4 pdpt pd pt virt : U64}
    (h₁ : tableOf (mem pml4 (pml4Index virt)) = some pdpt)
    (h₂ : tableOf (mem pdpt (pdptIndex virt)) = some pd)
    (h₃ : tableOf (mem pd (pdIndex virt)) = some pt) :
    walk mem pml4 virt = [mem pml4 (pml4Index virt), mem pdpt (pdptIndex virt),
      mem pd (pdIndex virt), mem pt (ptIndex virt)] := by
  rw [walk, RadixForest.trail_step tableOf h₁, RadixForest.trail_step tableOf h₂,
    RadixForest.trail_step tableOf h₃, RadixForest.trail]

/-- The first `n` calls of `pmm_alloc_page` succeed: each returns a page not
taken at the start and never returned before. The pointer to the page is not
NULL either, which excludes one page, at 2^47, where the window wraps. -/
structure Supply (pages : Nat → U64) (taken : U64 → Prop) (n : Nat) : Prop where
  page : ∀ k < n, IsPhysPage (pages k)
  nonzero : ∀ k < n, pages k ≠ 0
  pointer : ∀ k < n, physToVirt (pages k) ≠ 0
  unused : ∀ k < n, ¬ taken (pages k)
  fresh : ∀ k < n, ∀ j < k, pages j ≠ pages k

theorem Supply.mono {pages : Nat → U64} {taken : U64 → Prop} {m n : Nat} (h : Supply pages taken n)
    (hmn : m ≤ n) : Supply pages taken m where
  page := fun k hk => h.page k (Nat.lt_of_lt_of_le hk hmn)
  nonzero := fun k hk => h.nonzero k (Nat.lt_of_lt_of_le hk hmn)
  pointer := fun k hk => h.pointer k (Nat.lt_of_lt_of_le hk hmn)
  unused := fun k hk => h.unused k (Nat.lt_of_lt_of_le hk hmn)
  fresh := fun k hk => h.fresh k (Nat.lt_of_lt_of_le hk hmn)

/-- The next page is seen at no table there is. -/
theorem Supply.next_unused {pages : Nat → U64} (taken : U64 → Prop) {m n : Nat}
    (h : Supply pages (fun page => taken (physToVirt page)) n) (hm : m < n) :
    ¬ (taken (physToVirt (pages m)) ∨ ∃ k < m, physToVirt (pages m) = physToVirt (pages k)) := by
  intro hlive
  obtain htaken | ⟨k, hk, heq⟩ := hlive
  · exact h.unused m hm htaken
  · exact h.fresh m hm k hk (physToVirt_inj heq).symm

/-- A supply of consecutive pages. -/
def pagesFrom (first k : Nat) : U64 := BitVec.ofNat 64 ((first + k) * 4096)

theorem pagesFrom_toNat {first k : Nat} (h : first + k < 2^35) :
    (pagesFrom first k).toNat = (first + k) * 4096 := by
  rw [pagesFrom, BitVec.toNat_ofNat]
  exact Nat.mod_eq_of_lt (by omega)

theorem supply_pagesFrom {first n : Nat} {page : U64} (hpage : page.toNat < first * 4096)
    (hn : first + n ≤ 2^35) : Supply (pagesFrom first) (fun p => p = page) n := by
  have hnat : ∀ k < n, (pagesFrom first k).toNat = (first + k) * 4096 :=
    fun k hk => pagesFrom_toNat (by omega)
  have hzero : (0 : U64).toNat = 0 := rfl
  refine ⟨fun k hk => ?_, fun k hk hz => ?_, fun k hk hz => ?_, fun k hk heq => ?_,
    fun k hk j hj heq => ?_⟩
  · have := hnat k hk
    exact ⟨by omega, by omega⟩
  · have := hnat k hk
    rw [hz, hzero] at this
    omega
  · -- below 2^47 the window ends before the address space does
    have hsum := congrArg BitVec.toNat hz
    rw [physToVirt, BitVec.toNat_add, hnat k hk, hzero,
      show kernelVirtualBase.toNat = 0xFFFF800000000000 from rfl] at hsum
    omega
  · have := hnat k hk
    rw [heq] at this
    omega
  · have hk' := hnat k hk
    rw [← heq, hnat j (by omega)] at hk'
    omega

theorem Supply.pml4 {pages : Nat → U64} {vmm : VmmT} {n : Nat}
    (h : Supply pages (fun page => page = vmm.pml4Phys) n) :
    Supply pages (fun page => physToVirt page = vmm.pml4) n := by
  refine ⟨h.page, h.nonzero, h.pointer, fun k hk heq => ?_, h.fresh⟩
  rw [vmm.pml4_eq] at heq
  exact h.unused k hk (physToVirt_inj heq)

/-! ## What one operation does -/

section Cases
variable {pages : Nat → U64} {parent : U64} {index : Fin 512} {flags : U64} {s s' : Machine}
  {table : U64}

/-- The table below a slot is the one its entry says, or nothing when no page is
to be had, or a new cleared page the slot now points at. -/
theorem getOrCreateTable_cases
    (h : getOrCreateTable pages parent index flags s = (table, s')) :
    (s.mem parent index &&& pagePresent ≠ 0 ∧
      table = physToVirt (s.mem parent index &&& pageMask) ∧
      s' = s.use ⟨parent, index, table, none⟩) ∨
    (¬ s.mem parent index &&& pagePresent ≠ 0 ∧ pages s.allocs = 0 ∧ table = 0 ∧
      s' = { s with allocs := s.allocs + 1 }) ∨
    (¬ s.mem parent index &&& pagePresent ≠ 0 ∧ pages s.allocs ≠ 0 ∧
      table = physToVirt (pages s.allocs) ∧
      s' = { s with
        mem := RadixForest.link s.mem parent index (entry (pages s.allocs) flags) table 0
        allocs := s.allocs + 1
        uses := ⟨parent, index, table, some (pages s.allocs)⟩ :: s.uses }) := by
  rw [getOrCreateTable] at h
  by_cases hp : s.mem parent index &&& pagePresent ≠ 0
  · rw [if_pos hp] at h
    obtain ⟨rfl, rfl⟩ := Prod.mk.inj h
    exact Or.inl ⟨hp, rfl, rfl⟩
  · rw [if_neg hp] at h
    by_cases hz : pages s.allocs = 0
    · obtain ⟨rfl, rfl⟩ := Prod.mk.inj ((if_pos hz).symm.trans h)
      exact Or.inr (Or.inl ⟨hp, hz, rfl, rfl⟩)
    · obtain ⟨rfl, rfl⟩ := Prod.mk.inj ((if_neg hz).symm.trans h)
      exact Or.inr (Or.inr ⟨hp, hz, rfl, rfl⟩)

theorem getOrCreateTable_new {taken : U64 → Prop}
    (h : getOrCreateTable pages parent index flags s = (table, s'))
    (hpages : Supply pages taken s'.allocs) (habs : ¬ s.mem parent index &&& pagePresent ≠ 0) :
    table ≠ 0 ∧ ∀ j, s'.mem table j = 0 := by
  obtain ⟨hpres, -⟩ | ⟨-, hzero, -, rfl⟩ | ⟨-, -, rfl, hs'⟩ := getOrCreateTable_cases h
  · exact absurd hpres habs
  · exact absurd hzero (hpages.nonzero _ (Nat.lt_succ_self _))
  · have hmem : s'.mem = RadixForest.link s.mem parent index (entry (pages s.allocs) flags)
        (physToVirt (pages s.allocs)) 0 := by rw [hs']
    have hn : s.allocs < s'.allocs := by rw [hs']; exact Nat.lt_succ_self _
    refine ⟨hpages.pointer _ hn, fun j => ?_⟩
    rw [hmem, RadixForest.link_new]

theorem getOrCreateTable_allocs
    (h : getOrCreateTable pages parent index flags s = (table, s')) : s.allocs ≤ s'.allocs := by
  obtain ⟨-, -, rfl⟩ | ⟨-, -, -, rfl⟩ | ⟨-, -, -, rfl⟩ := getOrCreateTable_cases h
  · exact Nat.le_refl _
  · exact Nat.le_succ _
  · exact Nat.le_succ _

theorem getOrCreateTable_uses
    (h : getOrCreateTable pages parent index flags s = (table, s')) : s.uses <:+ s'.uses := by
  obtain ⟨-, -, rfl⟩ | ⟨-, -, -, rfl⟩ | ⟨-, -, -, rfl⟩ := getOrCreateTable_cases h
  · exact List.suffix_cons _ _
  · exact List.suffix_rfl
  · exact List.suffix_cons _ _

theorem getOrCreateTable_registers
    (h : getOrCreateTable pages parent index flags s = (table, s')) :
    s'.kernelVmm = s.kernelVmm ∧ s'.cr3 = s.cr3 := by
  obtain ⟨-, -, rfl⟩ | ⟨-, -, -, rfl⟩ | ⟨-, -, -, rfl⟩ := getOrCreateTable_cases h
  · exact ⟨rfl, rfl⟩
  · exact ⟨rfl, rfl⟩
  · exact ⟨rfl, rfl⟩

/-- A call of `vmm_map` goes down three levels and stores the leaf, which changes
nothing else. -/
theorem vmmMap_cases {vmm : VmmT} {virt phys : U64} {r : JarResult}
    (h : vmmMap pages (some vmm) virt phys flags s = (r, s')) :
    ∃ pdpt s₁ pd s₂ pt s₃,
      getOrCreateTable pages vmm.pml4 (pml4Index virt) flags s = (pdpt, s₁) ∧
      getOrCreateTable pages pdpt (pdptIndex virt) flags s₁ = (pd, s₂) ∧
      getOrCreateTable pages pd (pdIndex virt) flags s₂ = (pt, s₃) ∧
      (s'.allocs = s₃.allocs ∧ s'.uses = s₃.uses ∧ s'.kernelVmm = s₃.kernelVmm ∧
        s'.cr3 = s₃.cr3) ∧
      ((pt = 0 ∧ r = .nomem ∧ s' = s₃) ∨
        (pt ≠ 0 ∧ r = .ok ∧ s' = s₃.store pt (ptIndex virt) (entry phys flags))) := by
  refine ⟨_, _, _, _, _, _, rfl, rfl, rfl, ?_⟩
  rw [vmmMap] at h
  dsimp only at h
  split at h
  · next hz =>
    obtain ⟨rfl, rfl⟩ := Prod.mk.inj h
    exact ⟨⟨rfl, rfl, rfl, rfl⟩, Or.inl ⟨hz, rfl, rfl⟩⟩
  · next hz =>
    obtain ⟨rfl, rfl⟩ := Prod.mk.inj h
    exact ⟨⟨rfl, rfl, rfl, rfl⟩, Or.inr ⟨hz, rfl, rfl⟩⟩

theorem vmmMap_registers {vmm : VmmT} {virt phys : U64} {r : JarResult}
    (h : vmmMap pages (some vmm) virt phys flags s = (r, s')) :
    s.allocs ≤ s'.allocs ∧ s'.kernelVmm = s.kernelVmm ∧ s'.cr3 = s.cr3 := by
  obtain ⟨pdpt, s₁, pd, s₂, pt, s₃, h₁, h₂, h₃, ⟨hallocs, -, hk, hc⟩, -⟩ := vmmMap_cases h
  have hle : s.allocs ≤ s₃.allocs := Nat.le_trans (getOrCreateTable_allocs h₁)
    (Nat.le_trans (getOrCreateTable_allocs h₂) (getOrCreateTable_allocs h₃))
  obtain ⟨hk₁, hc₁⟩ := getOrCreateTable_registers h₁
  obtain ⟨hk₂, hc₂⟩ := getOrCreateTable_registers h₂
  obtain ⟨hk₃, hc₃⟩ := getOrCreateTable_registers h₃
  exact ⟨hallocs ▸ hle, hk.trans (hk₃.trans (hk₂.trans hk₁)), hc.trans (hc₃.trans (hc₂.trans hc₁))⟩

/-- A call for a part of the PML4 that is empty succeeds: it has a new table on
every level. -/
theorem vmmMap_ok_of_absent {vmm : VmmT} {virt phys : U64} {r : JarResult} {taken : U64 → Prop}
    (h : vmmMap pages (some vmm) virt phys flags s = (r, s')) (hpages : Supply pages taken s'.allocs)
    (habs : ¬ s.mem vmm.pml4 (pml4Index virt) &&& pagePresent ≠ 0) : r = .ok := by
  obtain ⟨pdpt, s₁, pd, s₂, pt, s₃, h₁, h₂, h₃, ⟨hle, -⟩, hlast⟩ := vmmMap_cases h
  have hle₂ := getOrCreateTable_allocs h₂
  have hle₃ := getOrCreateTable_allocs h₃
  have absent : ∀ {e : U64}, e = 0 → ¬ e &&& pagePresent ≠ 0 := by
    intro e he
    rw [he]
    decide
  obtain ⟨-, hz₁⟩ := getOrCreateTable_new h₁ (hpages.mono (by omega)) habs
  obtain ⟨-, hz₂⟩ := getOrCreateTable_new h₂ (hpages.mono (by omega)) (absent (hz₁ _))
  obtain ⟨hpt, -⟩ := getOrCreateTable_new h₃ (hpages.mono (by omega)) (absent (hz₂ _))
  obtain ⟨hnull, -⟩ | ⟨-, hr, -⟩ := hlast
  · exact absurd hnull hpt
  · exact hr

/-- `vmm_create` gives up, or takes a page, which becomes a PML4 with the kernel's
upper half and nothing below. -/
theorem vmmCreate_cases {vmm : U64} {new : Option VmmT} (h : vmmCreate pages vmm s = (new, s')) :
    (new = none ∧ s'.mem = s.mem ∧ s.allocs ≤ s'.allocs ∧ s'.kernelVmm = s.kernelVmm ∧
      s'.cr3 = s.cr3 ∧ (vmm = 0 ∨ pages s.allocs = 0 ∧ s'.allocs = s.allocs + 1)) ∨
    (vmm ≠ 0 ∧ pages s.allocs ≠ 0 ∧ new = some (VmmT.ofPhys (pages s.allocs)) ∧
      s' = { s with
        allocs := s.allocs + 1
        mem := Function.update s.mem (physToVirt (pages s.allocs))
          (fun i => if 256 ≤ i.val then s.mem s.kernelVmm.pml4 i else 0) }) := by
  rw [vmmCreate] at h
  by_cases hvmm : vmm = 0
  · rw [if_pos hvmm] at h
    obtain ⟨rfl, rfl⟩ := Prod.mk.inj h
    exact Or.inl ⟨rfl, rfl, Nat.le_refl _, rfl, rfl, Or.inl hvmm⟩
  · rw [if_neg hvmm] at h
    by_cases hz : pages s.allocs = 0
    · obtain ⟨rfl, rfl⟩ := Prod.mk.inj ((if_pos hz).symm.trans h)
      exact Or.inl ⟨rfl, rfl, Nat.le_succ _, rfl, rfl, Or.inr ⟨hz, rfl⟩⟩
    · obtain ⟨rfl, rfl⟩ := Prod.mk.inj ((if_neg hz).symm.trans h)
      exact Or.inr ⟨hvmm, hz, rfl, rfl⟩

end Cases

end JarJar.Vmm
