import JarJar.PmmRuns
import JarJar.VmmSpaces
import JarJar.VmmOutOfPages
import Mathlib.Data.List.Perm.Basic

/- The page allocator and the page tables at work together. The operations of vmm.c are
   written here once more with the allocator they really call; in `Vmm` what
   `pmm_alloc_page` returns is a parameter.

   Correspondence (C ↔ Lean):
     pmm.c and vmm.c, one state       ↔ `Kernel`
     `pmm_alloc_page`, from vmm.c     ↔ `allocPage`
     `get_or_create_table`            ↔ `getOrCreateTable`
     `vmm_create`, `vmm_map`          ↔ `vmmCreate`, `vmmMap`
   What is proved: the parameter was right. `Kernel.supply` lists what the allocator has
   answered so far and what it is going to answer; over it each call is the call of `Vmm`
   (`vmmMap_supplied`, `vmmCreate_supplied`), and no call changes the list. -/
namespace JarJar.KernelMemory
open Vmm

/-- The state of pmm.c and of vmm.c, and the pages vmm.c was given, the first first. -/
structure Kernel where
  pmm : Pmm.Machine
  vmm : Vmm.Machine
  answers : List U64

/-- A call of `pmm_alloc_page` from vmm.c. -/
def allocPage (K : Kernel) : U64 × Kernel :=
  let (page, pmm) := Pmm.pmmAllocPage K.pmm
  (page, { pmm, vmm := { K.vmm with allocs := K.vmm.allocs + 1 }, answers := K.answers ++ [page] })

def getOrCreateTable (parent : U64) (index : Fin 512) (flags : U64) (K : Kernel) : U64 × Kernel :=
  if K.vmm.mem parent index &&& pagePresent ≠ 0 then
    let table := physToVirt (K.vmm.mem parent index &&& pageMask)
    (table, { K with vmm := K.vmm.use ⟨parent, index, table, none⟩ })
  else
    let (page, K) := allocPage K
    if page = 0 then (0, K)
    else
      let vmm := K.vmm.store parent index (entry page flags)
      let table := physToVirt page
      (table, { K with vmm := (vmm.zero table).use ⟨parent, index, table, some page⟩ })

/-- `block` is what `kmalloc` returned. -/
def vmmCreate (block : U64) (K : Kernel) : Option VmmT × Kernel :=
  if block = 0 then (none, K)
  else
    let (page, K) := allocPage K
    if page = 0 then (none, K)
    else
      let vmm := VmmT.ofPhys page
      let pml4 := fun i : Fin 512 =>
        if 256 ≤ i.val then K.vmm.mem K.vmm.kernelVmm.pml4 i else 0
      (some vmm, { K with vmm := { K.vmm with mem := Function.update K.vmm.mem vmm.pml4 pml4 } })

def vmmMap (vmm : Option VmmT) (virt phys flags : U64) (K : Kernel) : JarResult × Kernel :=
  match vmm with
  | none => (.inval, K)
  | some vmm =>
    let (pdpt, K) := getOrCreateTable vmm.pml4 (pml4Index virt) flags K
    let (pd, K) := getOrCreateTable pdpt (pdptIndex virt) flags K
    let (pt, K) := getOrCreateTable pd (pdIndex virt) flags K
    if pt = 0 then (.nomem, K)
    else (.ok, { K with vmm := K.vmm.store pt (ptIndex virt) (entry phys flags) })

/-! ## What the allocator answers -/

/-- Answer `k` of the allocator from now on, when nobody gives a page back. -/
def nextAnswer (p : Pmm.Machine) : Nat → U64
  | 0 => (Pmm.pmmAllocPage p).1
  | k+1 => nextAnswer (Pmm.pmmAllocPage p).2 k

namespace Kernel

/-- The answers so far, then the ones to come. -/
def supply (K : Kernel) (k : Nat) : U64 :=
  K.answers[k]?.getD (nextAnswer K.pmm (k - K.answers.length))

/-- Every call of vmm.c is among the answers. -/
def Counted (K : Kernel) : Prop := K.vmm.allocs = K.answers.length

/-- What some calls of the allocator from vmm.c do: the list of answers stands, past and
future, and what one call keeps of the allocator is kept. -/
structure Served (K K' : Kernel) : Prop where
  supply : K'.supply = K.supply
  counted : K.Counted → K'.Counted
  keeps : ∀ P : Pmm.Machine → List U64 → Prop,
    (∀ p answers, P p answers →
      P (Pmm.pmmAllocPage p).2 (answers ++ [(Pmm.pmmAllocPage p).1])) →
    P K.pmm K.answers → P K'.pmm K'.answers

theorem Served.refl (K : Kernel) : Served K K := ⟨rfl, id, fun _ _ h => h⟩

theorem Served.trans {K K' K'' : Kernel} (h : Served K K') (h' : Served K' K'') : Served K K'' where
  supply := h'.supply.trans h.supply
  counted := fun hc => h'.counted (h.counted hc)
  keeps := fun P hP h0 => h'.keeps P hP (h.keeps P hP h0)

theorem Served.tables (K : Kernel) {vmm : Vmm.Machine} (h : vmm.allocs = K.vmm.allocs) :
    Served K { K with vmm } where
  supply := rfl
  counted := fun hc => h.trans hc
  keeps := fun _ _ h0 => h0

theorem supply_answer (K : Kernel) {k : Nat} (h : k < K.answers.length) :
    K.supply k = K.answers[k] := by
  rw [supply, List.getElem?_eq_getElem h, Option.getD_some]

theorem supply_future (K : Kernel) (d : Nat) :
    K.supply (K.answers.length + d) = nextAnswer K.pmm d := by
  rw [supply, List.getElem?_eq_none (Nat.le_add_right _ _), Option.getD_none,
    Nat.add_sub_cancel_left]

theorem allocPage_supply (K : Kernel) : (allocPage K).2.supply = K.supply := by
  funext k
  have hanswers : (allocPage K).2.answers = K.answers ++ [(Pmm.pmmAllocPage K.pmm).1] := rfl
  have hlen : (allocPage K).2.answers.length = K.answers.length + 1 := by
    rw [hanswers, List.length_append, List.length_singleton]
  obtain hlt | ⟨d, rfl⟩ : k < K.answers.length ∨ ∃ d, k = K.answers.length + d := by
    obtain hlt | hge := Nat.lt_or_ge k K.answers.length
    · exact .inl hlt
    · exact .inr ⟨k - K.answers.length, by omega⟩
  · rw [K.supply_answer hlt, supply_answer _ (by omega)]
    exact List.getElem_append_left hlt
  · rw [K.supply_future]
    cases d with
    | zero =>
      rw [supply_answer _ (by omega)]
      exact List.getElem_concat_length rfl _
    | succ d =>
      have hd : K.answers.length + (d + 1) = (allocPage K).2.answers.length + d := by omega
      rw [hd, supply_future]
      rfl

theorem allocPage_served (K : Kernel) : Served K (allocPage K).2 where
  supply := K.allocPage_supply
  counted := by
    intro hc
    show K.vmm.allocs + 1 = (K.answers ++ [(Pmm.pmmAllocPage K.pmm).1]).length
    rw [List.length_append, List.length_singleton, hc]
  keeps := fun P hP h0 => hP K.pmm K.answers h0

end Kernel

/-! ## The calls of `Vmm`, supplied -/

section
variable {K K' : Kernel} {page table parent virt phys flags : U64} {index : Fin 512} {r : JarResult}

theorem allocPage_supplied (hc : K.Counted) :
    Vmm.allocPage K.supply K.vmm = ((allocPage K).1, (allocPage K).2.vmm) := by
  have hnext : K.supply K.vmm.allocs = (Pmm.pmmAllocPage K.pmm).1 := by
    rw [hc]
    exact K.supply_future 0
  rw [Vmm.allocPage, hnext]
  rfl

/-- `get_or_create_table` is that of `Vmm` over the answers of the allocator. -/
theorem getOrCreateTable_supplied (hc : K.Counted)
    (h : getOrCreateTable parent index flags K = (table, K')) :
    Vmm.getOrCreateTable K.supply parent index flags K.vmm = (table, K'.vmm) ∧
      Kernel.Served K K' := by
  have hserved := K.allocPage_served
  rw [getOrCreateTable] at h
  rw [Vmm.getOrCreateTable, allocPage_supplied hc]
  split at h
  · next hp =>
    obtain ⟨rfl, rfl⟩ := Prod.mk.inj h
    rw [if_pos hp]
    exact ⟨rfl, .tables K rfl⟩
  · next hp =>
    rw [if_neg hp]
    dsimp only at h ⊢
    split at h
    · next hz =>
      obtain ⟨rfl, rfl⟩ := Prod.mk.inj h
      rw [if_pos hz]
      exact ⟨rfl, hserved⟩
    · next hz =>
      obtain ⟨rfl, rfl⟩ := Prod.mk.inj h
      rw [if_neg hz]
      exact ⟨rfl, hserved.trans (.tables _ rfl)⟩

theorem vmmCreate_supplied {block : U64} {new : Option VmmT} (hc : K.Counted)
    (h : vmmCreate block K = (new, K')) :
    Vmm.vmmCreate K.supply block K.vmm = (new, K'.vmm) ∧ Kernel.Served K K' := by
  have hserved := K.allocPage_served
  rw [vmmCreate] at h
  rw [Vmm.vmmCreate, allocPage_supplied hc]
  split at h
  · next hb =>
    obtain ⟨rfl, rfl⟩ := Prod.mk.inj h
    rw [if_pos hb]
    exact ⟨rfl, .refl K⟩
  · next hb =>
    rw [if_neg hb]
    dsimp only at h ⊢
    split at h
    · next hz =>
      obtain ⟨rfl, rfl⟩ := Prod.mk.inj h
      rw [if_pos hz]
      exact ⟨rfl, hserved⟩
    · next hz =>
      obtain ⟨rfl, rfl⟩ := Prod.mk.inj h
      rw [if_neg hz]
      exact ⟨rfl, hserved.trans (.tables _ rfl)⟩

theorem vmmMap_supplied {vmm : Option VmmT} (hc : K.Counted)
    (h : vmmMap vmm virt phys flags K = (r, K')) :
    Vmm.vmmMap K.supply vmm virt phys flags K.vmm = (r, K'.vmm) ∧ Kernel.Served K K' := by
  cases vmm with
  | none =>
    obtain ⟨rfl, rfl⟩ := Prod.mk.inj h
    exact ⟨rfl, .refl K⟩
  | some vmm =>
    obtain ⟨pdpt, K₁, h₁⟩ : ∃ pdpt K₁, getOrCreateTable vmm.pml4 (pml4Index virt) flags K =
      (pdpt, K₁) := ⟨_, _, rfl⟩
    obtain ⟨pd, K₂, h₂⟩ : ∃ pd K₂, getOrCreateTable pdpt (pdptIndex virt) flags K₁ = (pd, K₂) :=
      ⟨_, _, rfl⟩
    obtain ⟨pt, K₃, h₃⟩ : ∃ pt K₃, getOrCreateTable pd (pdIndex virt) flags K₂ = (pt, K₃) :=
      ⟨_, _, rfl⟩
    obtain ⟨e₁, s₁⟩ := getOrCreateTable_supplied hc h₁
    have hc₁ := s₁.counted hc
    obtain ⟨e₂, s₂⟩ := getOrCreateTable_supplied hc₁ h₂
    obtain ⟨e₃, s₃⟩ := getOrCreateTable_supplied (s₂.counted hc₁) h₃
    rw [s₁.supply] at e₂
    rw [s₂.supply, s₁.supply] at e₃
    have hserved : Kernel.Served K K₃ := s₁.trans (s₂.trans s₃)
    rw [vmmMap, h₁] at h
    dsimp only at h
    rw [h₂] at h
    dsimp only at h
    rw [h₃] at h
    rw [Vmm.vmmMap, e₁]
    dsimp only
    rw [e₂]
    dsimp only
    rw [e₃]
    dsimp only at h ⊢
    split at h
    · next hz =>
      obtain ⟨rfl, rfl⟩ := Prod.mk.inj h
      rw [if_pos hz]
      exact ⟨rfl, hserved⟩
    · next hz =>
      obtain ⟨rfl, rfl⟩ := Prod.mk.inj h
      rw [if_neg hz]
      exact ⟨rfl, hserved.trans (.tables _ rfl)⟩

end

end JarJar.KernelMemory
