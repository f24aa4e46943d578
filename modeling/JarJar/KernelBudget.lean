import JarJar.KernelRuns
import Mathlib.Data.Finset.Filter
import Mathlib.Data.Finset.Card

/- How many pages a run takes. `vmm_create` asks the allocator for one page, `vmm_map` for a
   page on each of the three levels that is not there yet; nothing in vmm.c gives one back.

   What is proved (`budget_serves`): a run whose requests, three for a mapping, add up to no
   more than the pages free at the start is served in full, whatever the order and whatever
   comes back in between, and uses at most that many. -/
namespace JarJar.KernelMemory
open Vmm

/-- The free pages. -/
def freeSet (p : Pmm.Machine) : Finset Nat :=
  (Finset.range p.pmm.totalPages).filter (fun i => PackedBits.bit p.bytes i = false)

def freeCount (p : Pmm.Machine) : Nat := (freeSet p).card

/-- The pages an operation may take. -/
def Op.need : Op → Nat
  | .alloc => 1
  | .create _ => 1
  | .map _ _ _ _ => 3
  | _ => 0

def needs (ops : List Op) : Nat := ops.foldr (fun op n => op.need + n) 0

theorem mem_freeSet {p : Pmm.Machine} {i : Nat} : i ∈ freeSet p ↔ Pmm.Free p i := by
  rw [freeSet, Finset.mem_filter, Finset.mem_range, Pmm.Free]

theorem freeCount_alloc (p : Pmm.Machine) : freeCount p ≤ freeCount (Pmm.pmmAllocPage p).2 + 1 := by
  obtain ⟨-, ⟨k, -, -, hfree⟩ | ⟨-, -, hfree⟩⟩ := Pmm.pmmAllocPage_cases p
  · have heq : freeSet (Pmm.pmmAllocPage p).2 = (freeSet p).erase k := by
      ext i
      rw [mem_freeSet, hfree, Finset.mem_erase, mem_freeSet, and_comm]
    have hle := Finset.pred_card_le_card_erase (s := freeSet p) (a := k)
    rw [freeCount, freeCount, heq]
    omega
  · have heq : freeSet (Pmm.pmmAllocPage p).2 = freeSet p := by
      ext i
      rw [mem_freeSet, hfree, mem_freeSet]
    rw [freeCount, freeCount, heq]
    exact Nat.le_succ _

theorem alloc_ne_zero {p : Pmm.Machine} (h0 : ¬ Pmm.Free p 0) (h : 0 < freeCount p) :
    (Pmm.pmmAllocPage p).1 ≠ 0 := by
  obtain ⟨-, ⟨k, hk, hres, -⟩ | ⟨hno, -, -⟩⟩ := Pmm.pmmAllocPage_cases p
  · intro hz
    have haddr := congrArg BitVec.toNat (hres.symm.trans hz)
    rw [Pmm.pageAddr_toNat (Pmm.free_lt hk.1)] at haddr
    have hzero : k * 4096 = 0 := haddr
    obtain rfl : k = 0 := by omega
    exact h0 hk.1
  · obtain ⟨i, hi⟩ := Finset.card_pos.mp h
    exact absurd (mem_freeSet.mp hi) (hno i)

theorem freeCount_free (p : Pmm.Machine) (a : U64) : freeCount p ≤ freeCount (Pmm.pmmFreePage a p) := by
  refine Finset.card_le_card fun i hi => ?_
  rw [mem_freeSet] at hi ⊢
  exact (Pmm.free_releasePage _ _ _).mpr (.inr hi)

/-! ## The calls of vmm.c -/

section
variable {K K' : Kernel} {S : System}

theorem zero_taken_alloc {p : Pmm.Machine} (h : ¬ Pmm.Free p 0) :
    ¬ Pmm.Free (Pmm.pmmAllocPage p).2 0 := by
  obtain ⟨-, ⟨k, -, -, hfree⟩ | ⟨-, -, hfree⟩⟩ := Pmm.pmmAllocPage_cases p
  · exact fun hz => h ((hfree 0).mp hz).1
  · exact fun hz => h ((hfree 0).mp hz)

/-- What calls of the allocator cost: as many pages as there are new answers, and none of
these is a failure while pages last. -/
theorem Kernel.Served.cost (h : Kernel.Served K K') (h0 : ¬ Pmm.Free K.pmm 0) :
    ¬ Pmm.Free K'.pmm 0 ∧ K.answers.length ≤ K'.answers.length ∧
      freeCount K.pmm + K.answers.length ≤ freeCount K'.pmm + K'.answers.length ∧
      (0 ∉ K.answers → K'.answers.length ≤ K.answers.length + freeCount K.pmm →
        0 ∉ K'.answers) := by
  refine h.keeps (fun p answers => ¬ Pmm.Free p 0 ∧ K.answers.length ≤ answers.length ∧
    freeCount K.pmm + K.answers.length ≤ freeCount p + answers.length ∧
    (0 ∉ K.answers → answers.length ≤ K.answers.length + freeCount K.pmm → 0 ∉ answers)) ?_ ?_
  · rintro p answers ⟨hzero, hle, hcount, hserved⟩
    have htake := freeCount_alloc p
    rw [List.length_append, List.length_singleton]
    refine ⟨zero_taken_alloc hzero, by omega, by omega, fun hbefore hroom hz => ?_⟩
    obtain hold | hnew := List.mem_append.mp hz
    · exact hserved hbefore (by omega) hold
    · have hne := alloc_ne_zero hzero (by omega : 0 < freeCount p)
      exact hne (List.mem_singleton.mp hnew).symm
  · exact ⟨h0, Nat.le_refl _, Nat.le_refl _, fun hbefore _ => hbefore⟩

theorem getOrCreateTable_one {pages : Nat → U64} {parent flags table : U64} {index : Fin 512}
    {s s' : Vmm.Machine} (h : Vmm.getOrCreateTable pages parent index flags s = (table, s')) :
    s'.allocs ≤ s.allocs + 1 := by
  obtain ⟨-, -, rfl⟩ | ⟨-, -, -, rfl⟩ | ⟨-, -, -, rfl⟩ := getOrCreateTable_cases h
  · exact Nat.le_succ _
  · exact Nat.le_refl _
  · exact Nat.le_refl _

theorem vmm_need (pages : Nat → U64) (V : Vmm.System) {op : Op} {vop : Vmm.Op}
    (hop : op.toVmm = some vop) :
    (V.step pages vop).machine.allocs ≤ V.machine.allocs + op.need := by
  obtain ⟨block, rfl, rfl⟩ | ⟨k, virt, phys, flags, rfl, rfl⟩ | ⟨k, rfl, rfl⟩ := Op.toVmm_cases hop
  · rw [Vmm.System.step]
    cases hcreate : Vmm.vmmCreate pages block V.machine with
    | mk new s =>
      rw [Vmm.vmmCreate] at hcreate
      split at hcreate
      · obtain ⟨rfl, rfl⟩ := Prod.mk.inj hcreate
        exact Nat.le_succ _
      · dsimp only [Vmm.allocPage] at hcreate
        split at hcreate
        · obtain ⟨rfl, rfl⟩ := Prod.mk.inj hcreate
          exact Nat.le_refl _
        · obtain ⟨rfl, rfl⟩ := Prod.mk.inj hcreate
          exact Nat.le_refl _
  · rw [Vmm.System.step]
    cases hk : V.space k with
    | none => exact Nat.le_add_right _ _
    | some vmm =>
      cases hmap : Vmm.vmmMap pages (some vmm) virt phys flags V.machine with
      | mk r s =>
        obtain ⟨pdpt, s₁, pd, s₂, pt, s₃, h₁, h₂, h₃, ⟨hallocs, -⟩, -⟩ := vmmMap_cases hmap
        have hone₁ := getOrCreateTable_one h₁
        have hone₂ := getOrCreateTable_one h₂
        have hone₃ := getOrCreateTable_one h₃
        show s.allocs ≤ V.machine.allocs + 3
        omega
  · rw [Vmm.System.step]
    cases V.space k <;> exact Nat.le_refl _

/-- No operation asks for more than it needs. -/
theorem answers_need (hc : S.kernel.Counted) (op : Op) :
    (S.step op).kernel.answers.length ≤ S.kernel.answers.length + op.need := by
  obtain hout | ⟨vop, hop⟩ := op.outside_or_inside
  · obtain rfl | ⟨a, rfl⟩ | ⟨a, i, e, rfl⟩ := hout.cases
    · exact Nat.le_succ _
    · exact Nat.le_refl _
    · exact Nat.le_refl _
  · have hvm := (inside_step hc hop).1
    have hneed := vmm_need S.kernel.supply S.vm hop
    rw [← hvm] at hneed
    rw [← hc, ← (counted_step hc op).1]
    exact hneed

/-- What one operation leaves of the free pages. -/
theorem step_budget (hc : S.kernel.Counted) (h0 : ¬ Pmm.Free S.kernel.pmm 0) {op : Op}
    (hspare : ∀ a, op = .free a → 4096 ≤ a.toNat) (hroom : op.need ≤ freeCount S.kernel.pmm)
    (hserved : S.Served) :
    (S.step op).Served ∧ ¬ Pmm.Free (S.step op).kernel.pmm 0 ∧
      freeCount S.kernel.pmm ≤ freeCount (S.step op).kernel.pmm + op.need := by
  obtain hout | ⟨vop, hop⟩ := op.outside_or_inside
  · obtain rfl | ⟨a, rfl⟩ | ⟨a, i, e, rfl⟩ := hout.cases
    · exact ⟨hserved, zero_taken_alloc h0, freeCount_alloc _⟩
    · refine ⟨hserved, ?_, freeCount_free _ a⟩
      have ha := hspare a rfl
      intro hz
      obtain ⟨hpage, -⟩ | hold := (Pmm.free_releasePage _ _ _).mp hz
      · omega
      · exact h0 hold
    · exact ⟨hserved, h0, Nat.le_refl _⟩
  · obtain ⟨hzero, hle, hcount, hkeep⟩ := (inside_step hc hop).2.2.cost h0
    have hneed := answers_need hc op
    exact ⟨hkeep hserved (by omega), hzero, by omega⟩

theorem held_spares {pmm : Pmm.Machine} {vmm : Vmm.Machine} {label : U64 → Option Place}
    (hstart : Start pmm vmm) (h : Sound pmm vmm S label) {a : U64} (ha : a ∈ S.held) :
    4096 ≤ a.toNat := by
  obtain ⟨i, hfree, rfl⟩ := page_free h.tracks (List.mem_append_left _ ha)
  have hpos : i ≠ 0 := by
    rintro rfl
    exact hstart.pageZero hfree
  rw [Pmm.pageAddr_toNat (Pmm.free_lt hfree)]
  omega

theorem run_budget {pmm : Pmm.Machine} {vmm : Vmm.Machine} {label : U64 → Option Place}
    {ops : List Op} (hstart : Start pmm vmm) (h : Sound pmm vmm S label)
    (h0 : ¬ Pmm.Free S.kernel.pmm 0) (hfair : Runs.Each System.step System.Fair S ops)
    (hroom : needs ops ≤ freeCount S.kernel.pmm) (hserved : S.Served) :
    (Runs.run System.step S ops).Served ∧
      freeCount S.kernel.pmm ≤ freeCount (Runs.run System.step S ops).kernel.pmm + needs ops := by
  induction ops generalizing S label with
  | nil => exact ⟨hserved, Nat.le_refl _⟩
  | cons op ops ih =>
    have hneeds : needs (op :: ops) = op.need + needs ops := rfl
    rw [hneeds] at hroom ⊢
    have hspare : ∀ a, op = .free a → 4096 ≤ a.toNat := by
      rintro a rfl
      exact held_spares hstart h hfair.1
    obtain ⟨hserved', hzero', hleft⟩ := step_budget h.counted h0 hspare (by omega) hserved
    obtain ⟨label', h'⟩ := h.step hstart hserved hfair.1 hserved'
    obtain ⟨hend, hrest⟩ := ih h' hzero' hfair.2 (by omega) hserved'
    refine ⟨hend, ?_⟩
    calc freeCount S.kernel.pmm
        ≤ freeCount (S.step op).kernel.pmm + op.need := hleft
      _ ≤ freeCount (Runs.run System.step (S.step op) ops).kernel.pmm + needs ops + op.need :=
        Nat.add_le_add_right hrest _
      _ = freeCount (Runs.run System.step (S.step op) ops).kernel.pmm + (op.need + needs ops) := by
        omega

end

/-- **A budget of pages.** A run whose operations ask for no more pages than were free at the
start, one for an allocation or an address space and three for a mapping, is served in full,
and what it took is bounded by what it asked for. -/
theorem budget_serves (pmm : Pmm.Machine) (vmm : Vmm.Machine) (hstart : Start pmm vmm)
    (ops : List Op) (hfair : Runs.Each System.step System.Fair (start pmm vmm) ops)
    (hroom : needs ops ≤ freeCount pmm) :
    (Runs.run System.step (start pmm vmm) ops).Served ∧
      freeCount pmm ≤ freeCount (Runs.run System.step (start pmm vmm) ops).kernel.pmm + needs ops :=
  run_budget hstart (Sound.start hstart) hstart.pageZero hfair hroom List.not_mem_nil

/-- Five pages are asked for, and there are six. -/
theorem budget_serves_mixedRun :
    needs mixedRun = 5 ∧ freeCount eightPages = 6 ∧
      (Runs.run System.step (start eightPages (Vmm.Machine.cleared 0x1000)) mixedRun).Served ∧
      1 ≤ freeCount
        (Runs.run System.step (start eightPages (Vmm.Machine.cleared 0x1000)) mixedRun).kernel.pmm := by
  have hneeds : needs mixedRun = 5 := by decide
  have hfree : freeCount eightPages = 6 := by decide
  obtain ⟨hserved, hleft⟩ :=
    budget_serves _ _ start_eightPages mixedRun fair_mixedRun (by rw [hneeds, hfree]; decide)
  exact ⟨hneeds, hfree, hserved, by omega⟩

end JarJar.KernelMemory
