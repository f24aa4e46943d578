import JarJar.Vmm
import JarJar.Lib.Runs

/- Many address spaces over one kernel half. `vmm_create` copies the upper 256
   entries of the kernel's PML4, so the tables below them belong to everybody and
   every other table belongs to one address space. `Place` names a table by its
   owner and its path; a call of `vmm_map` only changes slots on the path of its
   address in its own space, so that a call for the lower half shows nowhere
   else (`vmmMap_isolated`). -/
namespace JarJar.Vmm

/-- An address of the kernel half. -/
def KernelHalf (virt : U64) : Prop := 256 ≤ (pml4Index virt).val

instance (virt : U64) : Decidable (KernelHalf virt) := by unfold KernelHalf; infer_instance

/-! ## The system -/

/-- What may happen to the address spaces; they are numbered, `kernel_vmm` is
number 0. -/
inductive Op where
  | create (vmm : U64)
  | map (k : Nat) (virt phys flags : U64)
  | switch (k : Nat)
  deriving DecidableEq

/-- The machine and the address spaces `vmm_create` returned. -/
structure System where
  machine : Machine
  spaces : List VmmT

namespace System

/-- Address space number `k`. -/
def space (S : System) (k : Nat) : Option VmmT := (S.machine.kernelVmm :: S.spaces)[k]?

def mem (S : System) : U64 → Fin 512 → U64 := S.machine.mem

def step (pages : Nat → U64) (S : System) : Op → System
  | .create vmm =>
    match vmmCreate pages vmm S.machine with
    | (none, s) => ⟨s, S.spaces⟩
    | (some new, s) => ⟨s, S.spaces ++ [new]⟩
  | .map k virt phys flags => ⟨(vmmMap pages (S.space k) virt phys flags S.machine).2, S.spaces⟩
  | .switch k => ⟨vmmSwitch (S.space k) S.machine, S.spaces⟩

end System

/-- The flags of `page_flags_t` without `PAGE_HUGE` and `PAGE_NX`. -/
def spaceFlags : U64 :=
  pagePresent ||| pageWritable ||| pageUser ||| pageWritethrough ||| pageNocache ||| pageAccessed |||
    pageDirty ||| pageGlobal

theorem spaceFlags_low {flags : U64} (h : FlagsIn spaceFlags flags) : LowFlags flags :=
  h.low (by decide)

/-- A call of `vmm_map` has only such flags. -/
def Op.Plain : Op → Prop
  | .map _ _ _ flags => FlagsIn spaceFlags flags
  | _ => True

/-- `t` is a table of the hierarchy below `pml4`. -/
def KernelTable (mem : U64 → Fin 512 → U64) (pml4 t : U64) : Prop :=
  ∃ q : List (Fin 512), q.length ≤ 3 ∧ RadixForest.descend tableOf mem pml4 q = some t

/-- The hierarchy below `pml4` is a tree of distinct tables, whose entries that
point at tables hold a page and low flags, `PAGE_HUGE` not among them. -/
structure KernelTree (mem : U64 → Fin 512 → U64) (pml4 : U64) : Prop where
  distinct : ∀ {p q : List (Fin 512)} {t}, p.length ≤ 3 → q.length ≤ 3 →
    RadixForest.descend tableOf mem pml4 p = some t →
    RadixForest.descend tableOf mem pml4 q = some t → p = q
  decodes : ∀ {q : List (Fin 512)} {t i}, q.length < 3 →
    RadixForest.descend tableOf mem pml4 q = some t → mem t i &&& pagePresent ≠ 0 →
    ∃ page flags, IsPhysPage page ∧ LowFlags flags ∧ mem t i = entry page flags

/-! ## Places -/

/-- Where a table stands: the address space it belongs to, if it belongs to one
only, and its path. -/
structure Place where
  owner : Option Nat
  path : List (Fin 512)

namespace Place

def root (k : Nat) : Place := ⟨some k, []⟩

/-- The place below slot `i`: below the upper half of a PML4 it is everybody's. -/
def child (l : Place) (i : Fin 512) : Place :=
  if l.path = [] ∧ 256 ≤ i.val then ⟨none, [i]⟩ else ⟨l.owner, l.path ++ [i]⟩

def depth (l : Place) : Nat := l.path.length

@[simp] theorem depth_root (k : Nat) : (root k).depth = 0 := rfl

@[simp] theorem depth_child (l : Place) (i : Fin 512) : (l.child i).depth = l.depth + 1 := by
  unfold child depth
  split
  · next h => rw [h.1]; rfl
  · next h => simp

theorem child_inner {l : Place} (h : l.path ≠ []) (i : Fin 512) :
    l.child i = ⟨l.owner, l.path ++ [i]⟩ := if_neg fun hc => h hc.1

theorem foldl_child {l : Place} (h : l.path ≠ []) (q : List (Fin 512)) :
    q.foldl child l = ⟨l.owner, l.path ++ q⟩ := by
  induction q generalizing l with
  | nil => simp
  | cons i q ih =>
    rw [List.foldl_cons, child_inner h, ih (by simp)]
    simp

theorem at_path (k : Nat) (i : Fin 512) (q : List (Fin 512)) :
    (i :: q).foldl child (root k) = ⟨if 256 ≤ i.val then none else some k, i :: q⟩ := by
  rw [List.foldl_cons]
  by_cases hi : 256 ≤ i.val
  · have hc : (root k).child i = ⟨none, [i]⟩ := if_pos ⟨rfl, hi⟩
    rw [hc, foldl_child (by simp), if_pos hi]
    rfl
  · have hc : (root k).child i = ⟨some k, [i]⟩ := if_neg fun h => hi h.2
    rw [hc, foldl_child (by simp), if_neg hi]
    rfl

theorem depth_foldl (q : List (Fin 512)) (l : Place) : (q.foldl child l).depth = l.depth + q.length := by
  induction q generalizing l with
  | nil => rfl
  | cons i q ih => rw [List.foldl_cons, ih, depth_child, List.length_cons]; omega

end Place

/-! ## The tables of all address spaces -/

/-- The tables in use form a forest over places; each was there at the start or
is a page that was handed out, and the kernel and the processor follow their
entries to the same tables. -/
structure Tables (pages : Nat → U64) (taken : U64 → Prop) (s : Machine)
    (label : U64 → Option Place) : Prop where
  forest : RadixForest.Forest tableOf Place.child Place.depth 3 s.mem label
  live : ∀ {t l}, label t = some l → taken t ∨ ∃ k < s.allocs, t = physToVirt (pages k)
  decodes : ∀ {t l i}, label t = some l → l.depth < 3 → s.mem t i &&& pagePresent ≠ 0 →
    tableOf (s.mem t i) = some (physToVirt (s.mem t i &&& pageMask))

section
variable {pages : Nat → U64} {taken : U64 → Prop} {s s' : Machine} {label : U64 → Option Place}
  {t u flags : U64} {l : Place} {i : Fin 512} {n : Nat}

theorem Tables.fresh (h : Tables pages taken s label)
    (hpages : Supply pages (fun page => taken (physToVirt page)) n) (hn : s.allocs < n) :
    label (physToVirt (pages s.allocs)) = none := by
  apply Option.eq_none_iff_forall_ne_some.mpr
  intro l hl
  exact Supply.next_unused taken hpages hn (h.live hl)

theorem Tables.live_update (h : Tables pages taken s label) (hallocs : s'.allocs = s.allocs + 1)
    {p : U64} {m : Place}
    (hp : Function.update label (physToVirt (pages s.allocs)) (some l) p = some m) :
    taken p ∨ ∃ k < s'.allocs, p = physToVirt (pages k) := by
  rw [hallocs]
  obtain ⟨hpu, -⟩ | ⟨-, hp⟩ := RadixForest.update_cases hp
  · exact Or.inr ⟨s.allocs, Nat.lt_succ_self _, hpu⟩
  · obtain htaken | ⟨k, hk, hpk⟩ := h.live hp
    · exact Or.inl htaken
    · exact Or.inr ⟨k, Nat.lt_succ_of_lt hk, hpk⟩

theorem Tables.link (h : Tables pages taken s label)
    (hpages : Supply pages (fun page => taken (physToVirt page)) n) (hn : s.allocs < n)
    (ht : label t = some l) (hf : LowFlags flags) (hallocs : s'.allocs = s.allocs + 1)
    (hmem : s'.mem = RadixForest.link s.mem t i (entry (pages s.allocs) flags)
      (physToVirt (pages s.allocs)) 0) :
    Tables pages taken s'
      (Function.update label (physToVirt (pages s.allocs)) (some (l.child i))) := by
  have hpage := hpages.page _ hn
  have hnew := h.fresh hpages hn
  have hentry := tableOf_entry hpage hf.tableFlags
  refine ⟨?_, h.live_update hallocs, ?_⟩
  · rw [hmem]
    exact h.forest.link ht hnew hentry tableOf_zero
  · intro p m j hp hm hpres
    rw [hmem] at hpres ⊢
    obtain ⟨hpu, -⟩ | ⟨hpu, hp⟩ := RadixForest.update_cases hp
    · rw [hpu, RadixForest.link_new] at hpres
      exact absurd hpres (by decide)
    · by_cases hslot : p = t ∧ j = i
      · obtain ⟨rfl, rfl⟩ := hslot
        rw [RadixForest.link_self hpu, hentry, entry_code hpage hf]
      · rw [RadixForest.link_other hpu hslot] at hpres ⊢
        exact h.decodes hp hm hpres

/-- One level: afterwards the slot points at the table returned, which stands
below it; other slots of tables in use, and this one if it was present, are as
they were. -/
theorem Tables.table_step (h : Tables pages taken s label)
    (hg : getOrCreateTable pages t i flags s = (u, s'))
    (hpages : Supply pages (fun page => taken (physToVirt page)) s'.allocs)
    (ht : label t = some l) (hl : l.depth < 3) (hf : LowFlags flags) :
    ∃ label', RadixForest.Extends label label' ∧ Tables pages taken s' label' ∧
      label' u = some (l.child i) ∧ tableOf (s'.mem t i) = some u ∧
      ∀ p m j, label p = some m → (m = l → j = i → s.mem p j &&& pagePresent ≠ 0) →
        s'.mem p j = s.mem p j := by
  obtain ⟨hpres, rfl, rfl⟩ | ⟨-, hzero, -, rfl⟩ | ⟨habs, -, rfl, hs'⟩ := getOrCreateTable_cases hg
  · have hnext := h.decodes ht hl hpres
    exact ⟨label, RadixForest.Extends.refl _, ⟨h.forest, h.live, h.decodes⟩,
      h.forest.closed ht hl hnext, hnext, fun _ _ _ _ _ => rfl⟩
  · exact absurd hzero (hpages.nonzero _ (Nat.lt_succ_self _))
  · have hmem : s'.mem = RadixForest.link s.mem t i (entry (pages s.allocs) flags)
        (physToVirt (pages s.allocs)) 0 := by rw [hs']
    have hallocs : s'.allocs = s.allocs + 1 := by rw [hs']
    have hn : s.allocs < s'.allocs := by omega
    have hnew := h.fresh hpages hn
    have hne : ∀ {p m}, label p = some m → p ≠ physToVirt (pages s.allocs) := by
      intro p m hp heq
      rw [heq, hnew] at hp
      cases hp
    refine ⟨_, RadixForest.extends_update hnew (l.child i), h.link hpages hn ht hf hallocs hmem,
      Function.update_self _ _ _, ?_, ?_⟩
    · rw [hmem, RadixForest.link_self (hne ht)]
      exact tableOf_entry (hpages.page _ hn) hf.tableFlags
    · intro p m j hp hslot
      rw [hmem]
      apply RadixForest.link_other (hne hp)
      intro hpt
      apply habs
      rw [hpt.1, ht] at hp
      have hpres := hslot (Option.some.inj hp).symm hpt.2
      rwa [hpt.1, hpt.2] at hpres

theorem store_frame {e p : U64} {m : Place} {j : Fin 512} (ht : label t = some l)
    (hp : label p = some m) (hoff : m = l → j ≠ i) : (s.store t i e).mem p j = s.mem p j := by
  apply RadixForest.put_other
  intro hs
  rw [hs.1, ht] at hp
  exact hoff (Option.some.inj hp).symm hs.2

theorem Tables.store_leaf (h : Tables pages taken s label) (ht : label t = some l)
    (hl : l.depth = 3) (e : U64) : Tables pages taken (s.store t i e) label := by
  refine ⟨h.forest.put ht (Nat.le_of_eq hl.symm), h.live, ?_⟩
  intro p m j hp hm hpres
  have hframe : (s.store t i e).mem p j = s.mem p j := by
    apply store_frame ht hp
    intro hml
    rw [hml, hl] at hm
    exact absurd hm (Nat.lt_irrefl 3)
  rw [hframe] at hpres ⊢
  exact h.decodes hp hm hpres

/-- The levels above the leaf: afterwards they stand below each other on the path of the
address, and slots off the path, and those on it that were present, are as they were. -/
theorem Tables.path_step {root virt pdpt pd pt : U64} {s₁ s₂ s₃ : Machine}
    (h : Tables pages taken s label)
    (hg₁ : getOrCreateTable pages root (pml4Index virt) flags s = (pdpt, s₁))
    (hg₂ : getOrCreateTable pages pdpt (pdptIndex virt) flags s₁ = (pd, s₂))
    (hg₃ : getOrCreateTable pages pd (pdIndex virt) flags s₂ = (pt, s₃))
    (hpages : Supply pages (fun page => taken (physToVirt page)) s₃.allocs)
    (hroot : label root = some l) (hl : l.depth = 0) (hf : LowFlags flags) :
    ∃ label₃, RadixForest.Extends label label₃ ∧ Tables pages taken s₃ label₃ ∧
      label₃ pdpt = some (l.child (pml4Index virt)) ∧
      label₃ pd = some ((l.child (pml4Index virt)).child (pdptIndex virt)) ∧
      label₃ pt = some (((l.child (pml4Index virt)).child (pdptIndex virt)).child (pdIndex virt)) ∧
      (∀ p m j, label p = some m →
        (∀ pre post, path virt = pre ++ j :: post → m = pre.foldl Place.child l →
          m.depth < 3 ∧ s.mem p j &&& pagePresent ≠ 0) → s₃.mem p j = s.mem p j) ∧
      tableOf (s₃.mem root (pml4Index virt)) = some pdpt ∧
      tableOf (s₃.mem pdpt (pdptIndex virt)) = some pd ∧
      tableOf (s₃.mem pd (pdIndex virt)) = some pt := by
  have hle₁ := getOrCreateTable_allocs hg₂
  have hle₂ := getOrCreateTable_allocs hg₃
  obtain ⟨label₁, hext₁, h₁, hpdpt, hn₁, hframe₁⟩ :=
    h.table_step hg₁ (hpages.mono (by omega)) hroot (by omega) hf
  obtain ⟨label₂, hext₂, h₂, hpd, hn₂, hframe₂⟩ :=
    h₁.table_step hg₂ (hpages.mono (by omega)) hpdpt (by simp [hl]) hf
  obtain ⟨label₃, hext₃, h₃, hpt, hn₃, hframe₃⟩ :=
    h₂.table_step hg₃ hpages hpd (by simp [hl]) hf
  -- a slot of the path is not touched again on the levels below it
  have apart : ∀ {a b : Place} {c : Prop}, a.depth ≠ b.depth → a = b → c :=
    fun hab hs => absurd (congrArg Place.depth hs) hab
  have hroot₁ := hext₁ _ _ hroot
  have hpdpt₂ := hext₂ _ _ hpdpt
  refine ⟨label₃, fun p m hp => hext₃ _ _ (hext₂ _ _ (hext₁ _ _ hp)), h₃, hext₃ _ _ hpdpt₂,
    hext₃ _ _ hpd, hpt, ?_, ?_, ?_, hn₃⟩
  · -- each level keeps the slots that are not its own
    intro p m j hp hoff
    have hs₁ : s₁.mem p j = s.mem p j :=
      hframe₁ p m j hp fun hm hj => (hoff [] _ (by rw [hj]; rfl) hm).2
    have hs₂ : s₂.mem p j = s.mem p j := by
      rw [← hs₁]
      apply hframe₂ p m j (hext₁ _ _ hp)
      rw [hs₁]
      exact fun hm hj => (hoff [pml4Index virt] _ (by rw [hj]; rfl) hm).2
    rw [← hs₂]
    apply hframe₃ p m j (hext₂ _ _ (hext₁ _ _ hp))
    rw [hs₂]
    exact fun hm hj => (hoff [pml4Index virt, pdptIndex virt] _ (by rw [hj]; rfl) hm).2
  · rw [hframe₃ _ _ _ (hext₂ _ _ hroot₁) (apart (by simp only [Place.depth_child]; omega)),
      hframe₂ _ _ _ hroot₁ (apart (by simp only [Place.depth_child]; omega)), hn₁]
  · rw [hframe₃ _ _ _ hpdpt₂ (apart (by simp only [Place.depth_child]; omega)), hn₂]

/-- A call of `vmm_map` changes only slots on the path of its address, above the
leaf only those that were not present, and the walk to it ends at the entry it
stored. -/
theorem Tables.map_step {vmm : VmmT} {virt phys : U64} {r : JarResult}
    (h : Tables pages taken s label)
    (hm : vmmMap pages (some vmm) virt phys flags s = (r, s'))
    (hpages : Supply pages (fun page => taken (physToVirt page)) s'.allocs)
    (hroot : label vmm.pml4 = some l) (hl : l.depth = 0) (hf : LowFlags flags) :
    ∃ label', RadixForest.Extends label label' ∧ Tables pages taken s' label' ∧
      (∀ p m j, label p = some m →
        (∀ pre post, path virt = pre ++ j :: post → m = pre.foldl Place.child l →
          m.depth < 3 ∧ s.mem p j &&& pagePresent ≠ 0) →
        s'.mem p j = s.mem p j) ∧
      (r = .ok → ∃ e₁ e₂ e₃, walk s'.mem vmm.pml4 virt = [e₁, e₂, e₃, entry phys flags]) := by
  obtain ⟨pdpt, s₁, pd, s₂, pt, s₃, hg₁, hg₂, hg₃, ⟨hle₃, -⟩, hlast⟩ := vmmMap_cases hm
  obtain ⟨label₃, hext, h₃, hpdpt, hpd, hpt, hframe, hn₁, hn₂, hn₃⟩ :=
    h.path_step hg₁ hg₂ hg₃ (hle₃ ▸ hpages) hroot hl hf
  have hdepth : (((l.child (pml4Index virt)).child (pdptIndex virt)).child (pdIndex virt)).depth = 3 := by
    simp [hl]
  refine ⟨label₃, hext, ?_⟩
  obtain ⟨-, rfl, rfl⟩ | ⟨-, rfl, rfl⟩ := hlast
  · exact ⟨h₃, hframe, fun hr => JarResult.noConfusion hr⟩
  · refine ⟨h₃.store_leaf hpt hdepth _, ?_, fun _ => ?_⟩
    · intro p m j hp hoff
      rw [← hframe p m j hp hoff]
      apply store_frame hpt (hext _ _ hp)
      intro hm hj
      have hlt := (hoff [pml4Index virt, pdptIndex virt, pdIndex virt] [] (by rw [hj]; rfl) hm).1
      rw [hm, hdepth] at hlt
      exact Nat.lt_irrefl _ hlt
    · -- the leaf is stored below the tables of the walk
      have above : ∀ {p : U64} {m : Place} {j : Fin 512}, label₃ p = some m → m.depth < 3 →
          (s₃.store pt (ptIndex virt) (entry phys flags)).mem p j = s₃.mem p j := by
        intro p m j hp hlt
        apply store_frame hpt hp
        intro hm
        rw [hm, hdepth] at hlt
        exact absurd hlt (Nat.lt_irrefl 3)
      have hs₄ : (s₃.store pt (ptIndex virt) (entry phys flags)).mem pt (ptIndex virt) =
          entry phys flags := RadixForest.put_self
      rw [walk_of_tables ((congrArg tableOf (above (hext _ _ hroot) (by omega))).trans hn₁)
        ((congrArg tableOf (above hpdpt (by simp [hl]))).trans hn₂)
        ((congrArg tableOf (above hpd (by simp [hl]))).trans hn₃), hs₄]
      exact ⟨_, _, _, rfl⟩

/-- The page `vmm_create` takes becomes the PML4 of space `k`; below its upper half
stand the tables below the kernel's. -/
theorem Tables.create (h : Tables pages taken s label)
    (hpages : Supply pages (fun page => taken (physToVirt page)) n) (hn : s.allocs < n)
    (hkernel : label s.kernelVmm.pml4 = some (Place.root 0)) (k : Nat)
    (hallocs : s'.allocs = s.allocs + 1)
    (hmem : s'.mem = Function.update s.mem (physToVirt (pages s.allocs))
      (fun i => if 256 ≤ i.val then s.mem s.kernelVmm.pml4 i else 0)) :
    Tables pages taken s'
      (Function.update label (physToVirt (pages s.allocs)) (some (Place.root k))) := by
  have hnew := h.fresh hpages hn
  have hself : ∀ i : Fin 512, s'.mem (physToVirt (pages s.allocs)) i =
      if 256 ≤ i.val then s.mem s.kernelVmm.pml4 i else 0 := by
    intro i
    rw [hmem, Function.update_self]
  have hother : ∀ p, p ≠ physToVirt (pages s.allocs) → s'.mem p = s.mem p := by
    intro p hp
    rw [hmem, Function.update_of_ne hp]
  refine ⟨h.forest.root hnew hother ?_, h.live_update hallocs, ?_⟩
  · intro _ i w hw
    rw [hself] at hw
    by_cases hi : 256 ≤ i.val
    · rw [if_pos hi] at hw
      rw [h.forest.closed hkernel (by decide) hw]
      exact congrArg some ((if_pos ⟨rfl, hi⟩).trans (if_pos ⟨rfl, hi⟩).symm)
    · rw [if_neg hi, tableOf_zero] at hw
      cases hw
  · intro p m j hp hm hpres
    obtain ⟨hpu, -⟩ | ⟨hpu, hp⟩ := RadixForest.update_cases hp
    · rw [hpu, hself] at hpres ⊢
      by_cases hj : 256 ≤ j.val
      · rw [if_pos hj] at hpres ⊢
        exact h.decodes hkernel (by decide) hpres
      · rw [if_neg hj] at hpres
        exact absurd hpres (by decide)
    · rw [hother p hpu] at hpres ⊢
      exact h.decodes hp hm hpres

end

/-! ## The tables at the start -/

section
variable {mem : U64 → Fin 512 → U64} {pml4 t : U64}

open Classical in
/-- The place of a table of the kernel's hierarchy. -/
noncomputable def kernelPlace (mem : U64 → Fin 512 → U64) (pml4 t : U64) : Option Place :=
  if h : KernelTable mem pml4 t then some (h.choose.foldl Place.child (Place.root 0)) else none

theorem KernelTree.place (h : KernelTree mem pml4) {q : List (Fin 512)} (hq : q.length ≤ 3)
    (ht : RadixForest.descend tableOf mem pml4 q = some t) :
    kernelPlace mem pml4 t = some (q.foldl Place.child (Place.root 0)) := by
  have hex : KernelTable mem pml4 t := ⟨q, hq, ht⟩
  rw [kernelPlace, dif_pos hex, h.distinct hex.choose_spec.1 hq hex.choose_spec.2 ht]

theorem kernelPlace_some {l : Place} (h : kernelPlace mem pml4 t = some l) :
    ∃ q : List (Fin 512), q.length ≤ 3 ∧ RadixForest.descend tableOf mem pml4 q = some t ∧
      l = q.foldl Place.child (Place.root 0) := by
  unfold kernelPlace at h
  split at h
  · next hex =>
    exact ⟨hex.choose, hex.choose_spec.1, hex.choose_spec.2, (Option.some.inj h).symm⟩
  · cases h

theorem KernelTree.tables {s : Machine} (pages : Nat → U64) (h : KernelTree s.mem pml4) :
    Tables pages (KernelTable s.mem pml4) s (kernelPlace s.mem pml4) where
  forest.closed := by
    intro t l i u ht hl hu
    obtain ⟨q, hq, hdesc, rfl⟩ := kernelPlace_some ht
    rw [Place.depth_foldl, Place.depth_root, Nat.zero_add] at hl
    have hnext : RadixForest.descend tableOf s.mem pml4 (q ++ [i]) = some u := by
      rw [RadixForest.descend_append, hdesc, Option.bind_some, RadixForest.descend, hu]
      rfl
    rw [h.place (by rw [List.length_append, List.length_singleton]; omega) hnext,
      List.foldl_append]
    rfl
  live := by
    intro t l ht
    obtain ⟨q, hq, hdesc, -⟩ := kernelPlace_some ht
    exact Or.inl ⟨q, hq, hdesc⟩
  decodes := by
    intro t l i ht hl hpres
    obtain ⟨q, -, hdesc, rfl⟩ := kernelPlace_some ht
    rw [Place.depth_foldl, Place.depth_root, Nat.zero_add] at hl
    obtain ⟨page, flags, hpage, hflags, hentry⟩ := h.decodes hl hdesc hpres
    rw [hentry, tableOf_entry hpage hflags.tableFlags, entry_code hpage hflags]

theorem descend_cleared {pml4Phys : U64} {q : List (Fin 512)}
    (h : RadixForest.descend tableOf (Machine.cleared pml4Phys).mem pml4 q = some t) :
    q = [] ∧ t = pml4 := by
  cases q with
  | nil => exact ⟨rfl, (Option.some.inj h).symm⟩
  | cons i q =>
    rw [RadixForest.descend, tableOf_absent (Machine.cleared_absent _ _ _)] at h
    cases h

theorem kernelTree_cleared (pml4Phys pml4 : U64) :
    KernelTree (Machine.cleared pml4Phys).mem pml4 where
  distinct := fun _ _ hp hq => (descend_cleared hp).1.trans (descend_cleared hq).1.symm
  decodes := fun _ _ hpres => absurd hpres (Machine.cleared_absent _ _ _)

theorem supply_cleared {pages : Nat → U64} {pml4Phys : U64} {n : Nat}
    (h : Supply pages (fun page => page = pml4Phys) n) :
    Supply pages (fun page => KernelTable (Machine.cleared pml4Phys).mem
      (Machine.cleared pml4Phys).kernelVmm.pml4 (physToVirt page)) n := by
  refine ⟨h.page, h.nonzero, h.pointer, fun k hk htable => ?_, h.fresh⟩
  obtain ⟨q, -, hdesc⟩ := htable
  exact h.unused k hk (physToVirt_inj (descend_cleared hdesc).2)

end

/-! ## Runs -/

/-- The tables of all address spaces are in place, each PML4 at its root. -/
structure Owned (pages : Nat → U64) (taken : U64 → Prop) (S : System)
    (label : U64 → Option Place) : Prop where
  tables : Tables pages taken S.machine label
  root : ∀ {k vmm}, S.space k = some vmm → label vmm.pml4 = some (Place.root k)

section
variable {pages : Nat → U64} {taken : U64 → Prop} {S : System} {label : U64 → Option Place}

theorem System.space_zero (S : System) : S.space 0 = some S.machine.kernelVmm := rfl

theorem System.space_append {s : Machine} {new vmm : VmmT} {k : Nat}
    (hkernel : s.kernelVmm = S.machine.kernelVmm)
    (h : (System.mk s (S.spaces ++ [new])).space k = some vmm) :
    S.space k = some vmm ∨ (k = S.spaces.length + 1 ∧ vmm = new) := by
  unfold System.space at h ⊢
  rw [hkernel, ← List.cons_append, List.getElem?_append] at h
  split at h
  · exact Or.inl h
  · next hk =>
    rw [List.length_cons] at h hk
    rw [List.getElem?_singleton] at h
    split at h
    · next hz => exact Or.inr ⟨by omega, (Option.some.inj h).symm⟩
    · cases h

theorem System.step_allocs (pages : Nat → U64) (S : System) (op : Op) :
    S.machine.allocs ≤ (S.step pages op).machine.allocs := by
  cases op with
  | create vmm =>
    rw [System.step]
    cases hc : vmmCreate pages vmm S.machine with
    | mk new s =>
      obtain ⟨rfl, -, hle, -⟩ | ⟨-, -, rfl, rfl⟩ := vmmCreate_cases hc
      · exact hle
      · exact Nat.le_succ _
  | map k virt phys flags =>
    rw [System.step]
    cases hk : S.space k with
    | none => exact Nat.le_refl _
    | some vmm =>
      cases hm : vmmMap pages (some vmm) virt phys flags S.machine with
      | mk r s' => exact (vmmMap_registers hm).1
  | switch k =>
    rw [System.step]
    cases hk : S.space k with
    | none => exact Nat.le_refl _
    | some vmm => exact Nat.le_refl _

/-- Every operation keeps the tables in place. -/
theorem Owned.step (h : Owned pages taken S label) {op : Op} (hop : op.Plain)
    (hpages : Supply pages (fun page => taken (physToVirt page)) (S.step pages op).machine.allocs) :
    ∃ label', Owned pages taken (S.step pages op) label' := by
  cases op with
  | create vmm =>
    rw [System.step] at hpages ⊢
    cases hc : vmmCreate pages vmm S.machine with
    | mk new s =>
      rw [hc] at hpages
      obtain ⟨rfl, hmem, hle, hkernel, -⟩ | ⟨-, -, rfl, rfl⟩ := vmmCreate_cases hc
      · -- nothing was created
        refine ⟨label, ⟨hmem ▸ h.tables.forest, ?_, ?_⟩, fun hk => h.root ?_⟩
        · intro t l ht
          obtain htaken | ⟨k, hk, hpk⟩ := h.tables.live ht
          · exact Or.inl htaken
          · exact Or.inr ⟨k, Nat.lt_of_lt_of_le hk hle, hpk⟩
        · exact hmem ▸ h.tables.decodes
        · rw [← hk, System.space, System.space, hkernel]
      · -- the new PML4 gets the next number
        have hn : S.machine.allocs < S.machine.allocs + 1 := Nat.lt_succ_self _
        have hnew := h.tables.fresh hpages hn
        refine ⟨_, h.tables.create hpages hn (h.root S.space_zero) (S.spaces.length + 1) rfl rfl, ?_⟩
        intro k vmm hk
        obtain hold | ⟨rfl, rfl⟩ := System.space_append (S := S) rfl hk
        · exact RadixForest.extends_update hnew _ _ _ (h.root hold)
        · exact Function.update_self _ _ _
  | map k virt phys flags =>
    rw [System.step] at hpages ⊢
    cases hk : S.space k with
    | none => exact ⟨label, h.tables, h.root⟩
    | some vmm =>
      rw [hk] at hpages
      cases hm : vmmMap pages (some vmm) virt phys flags S.machine with
      | mk r s' =>
        rw [hm] at hpages
        obtain ⟨label', hext, htables, -, -⟩ := h.tables.map_step hm hpages (h.root hk) rfl
          (spaceFlags_low hop)
        refine ⟨label', htables, fun hj => hext _ _ (h.root ?_)⟩
        rw [← hj, System.space, System.space, (vmmMap_registers hm).2.1]
  | switch k =>
    rw [System.step]
    cases hk : S.space k with
    | none => exact ⟨label, h.tables, h.root⟩
    | some vmm => exact ⟨label, ⟨h.tables.forest, h.tables.live, h.tables.decodes⟩, h.root⟩

theorem Owned.start {s : Machine} (pages : Nat → U64) (h : KernelTree s.mem s.kernelVmm.pml4) :
    Owned pages (KernelTable s.mem s.kernelVmm.pml4) ⟨s, []⟩ (kernelPlace s.mem s.kernelVmm.pml4) where
  tables := h.tables pages
  root := by
    intro k vmm hk
    cases k with
    | zero =>
      obtain rfl := Option.some.inj hk
      exact h.place (q := []) (by decide) rfl
    | succ k => cases hk

theorem Owned.run {ops : List Op} {n : Nat} (h : Owned pages taken S label)
    (hpages : Supply pages (fun page => taken (physToVirt page)) n)
    (hops : ∀ op ∈ ops, op.Plain) (hn : (Runs.run (System.step pages) S ops).machine.allocs ≤ n) :
    ∃ label', Owned pages taken (Runs.run (System.step pages) S ops) label' := by
  refine Runs.Each.invariant (I := fun S => ∃ label, Owned pages taken S label) ?_
    (Runs.each_of_bound (μ := fun S => S.machine.allocs) (System.step_allocs pages) hops hn) ⟨label, h⟩
  intro S op hS hop
  obtain ⟨label, hS⟩ := hS
  exact hS.step hop.1 (hpages.mono hop.2)

/-! ## A call for the lower half shows in one space only -/

/-- A walk whose path does not meet the path of the call reads what it read
before. -/
theorem Owned.walk_frame {s' : Machine} {r : JarResult} {k j : Nat} {vmm vmm' : VmmT}
    {virt phys flags v : U64} (h : Owned pages taken S label) (hk : S.space k = some vmm)
    (hm : vmmMap pages (some vmm) virt phys flags S.machine = (r, s'))
    (hpages : Supply pages (fun page => taken (physToVirt page)) s'.allocs) (hf : LowFlags flags)
    (hj : S.space j = some vmm')
    (hoff : ∀ pre' i post' pre post, path v = pre' ++ i :: post' → path virt = pre ++ i :: post →
      pre'.foldl Place.child (Place.root j) ≠ pre.foldl Place.child (Place.root k)) :
    walk s'.mem vmm'.pml4 v = walk S.mem vmm'.pml4 v := by
  obtain ⟨label', -, -, hframe, -⟩ := h.tables.map_step hm hpages (h.root hk) rfl hf
  apply h.tables.forest.trail_congr Place.depth_child _ (h.root hj) (by simp)
  intro pre' i post' hpath p hp
  exact hframe p _ i hp fun pre post hpre heq => absurd heq (hoff pre' i post' pre post hpath hpre)

theorem Place.owner_lower {virt : U64} (h : ¬ KernelHalf virt) (k : Nat) {pre post : List (Fin 512)}
    {i : Fin 512} (hp : Vmm.path virt = pre ++ i :: post) :
    (pre.foldl Place.child (Place.root k)).owner = some k := by
  cases pre with
  | nil => rfl
  | cons a pre =>
    obtain ⟨rfl, -⟩ := List.cons.inj hp
    rw [Place.at_path]
    exact if_neg h

theorem Place.owner_kernel {virt : U64} (h : KernelHalf virt) (k : Nat) {pre post : List (Fin 512)}
    {i : Fin 512} (hne : pre ≠ []) (hp : Vmm.path virt = pre ++ i :: post) :
    (pre.foldl Place.child (Place.root k)).owner = none := by
  cases pre with
  | nil => exact absurd rfl hne
  | cons a pre =>
    obtain ⟨rfl, -⟩ := List.cons.inj hp
    rw [Place.at_path]
    exact if_pos h

theorem Place.owner_ne {j k : Nat} (h : j ≠ k) (q : List (Fin 512)) :
    (q.foldl Place.child (Place.root j)).owner ≠ some k := by
  have hjk : some j ≠ some k := fun heq => h (Option.some.inj heq)
  cases q with
  | nil => exact hjk
  | cons i q =>
    rw [Place.at_path]
    by_cases hi : 256 ≤ i.val
    · rw [if_pos hi]
      exact fun hn => Option.some_ne_none k hn.symm
    · rw [if_neg hi]
      exact hjk

theorem Place.path_foldl (k : Nat) (q : List (Fin 512)) :
    (q.foldl Place.child (Place.root k)).path = q := by
  cases q with
  | nil => rfl
  | cons i q => rw [Place.at_path]

section
variable {s' : Machine} {r : JarResult} {k j : Nat} {vmm vmm' : VmmT} {virt phys flags v : U64}

/-- In another address space no table on any path belongs to the space of the call. -/
theorem Owned.walk_other (h : Owned pages taken S label) (hk : S.space k = some vmm)
    (hm : vmmMap pages (some vmm) virt phys flags S.machine = (r, s'))
    (hpages : Supply pages (fun page => taken (physToVirt page)) s'.allocs) (hf : LowFlags flags)
    (hlow : ¬ KernelHalf virt) (hj : S.space j = some vmm') (hjk : j ≠ k) :
    walk s'.mem vmm'.pml4 v = walk S.mem vmm'.pml4 v := by
  apply h.walk_frame hk hm hpages hf hj
  intro pre' i post' pre post _ hpre heq
  apply Place.owner_ne hjk pre'
  rw [heq]
  exact Place.owner_lower hlow k hpre

/-- In the space of the call the two paths part at the PML4: below it one is
everybody's, the other is not. -/
theorem Owned.walk_upper (h : Owned pages taken S label) (hk : S.space k = some vmm)
    (hm : vmmMap pages (some vmm) virt phys flags S.machine = (r, s'))
    (hpages : Supply pages (fun page => taken (physToVirt page)) s'.allocs) (hf : LowFlags flags)
    (hlow : ¬ KernelHalf virt) (hv : KernelHalf v) :
    walk s'.mem vmm.pml4 v = walk S.mem vmm.pml4 v := by
  apply h.walk_frame hk hm hpages hf hk
  intro pre' i post' pre post hpre' hpre heq
  by_cases hnil : pre' = []
  · -- the two slots of the PML4 are in different halves
    have hpaths := congrArg Place.path heq
    rw [Place.path_foldl, Place.path_foldl] at hpaths
    subst hpaths
    subst hnil
    have h₁ := (List.cons.inj hpre').1
    have h₂ := (List.cons.inj hpre).1
    apply hlow
    unfold KernelHalf at hv ⊢
    rw [h₂, ← h₁]
    exact hv
  · have howner := congrArg Place.owner heq
    rw [Place.owner_kernel hv k hnil hpre', Place.owner_lower hlow k hpre] at howner
    cases howner

end

end

/-- Whatever happened before, a call of `vmm_map` on one address space for an
address of the lower half changes no walk in any other address space, and no walk
in the kernel half of its own. -/
theorem vmmMap_isolated (pages : Nat → U64) (s₀ : Machine) (ops : List Op) (k : Nat)
    (virt phys flags : U64) (S S' : System)
    (hS : S = Runs.run (System.step pages) ⟨s₀, []⟩ ops)
    (hS' : S' = S.step pages (.map k virt phys flags))
    (hkernel : KernelTree s₀.mem s₀.kernelVmm.pml4)
    (hpages : Supply pages (fun page => KernelTable s₀.mem s₀.kernelVmm.pml4 (physToVirt page))
      S'.machine.allocs)
    (hops : ∀ op ∈ ops, op.Plain) (hflags : FlagsIn spaceFlags flags) (hlow : ¬ KernelHalf virt) :
    (∀ j vmm, j ≠ k → S.space j = some vmm → ∀ v, walk S'.mem vmm.pml4 v = walk S.mem vmm.pml4 v) ∧
    (∀ vmm, S.space k = some vmm →
      ∀ v, KernelHalf v → walk S'.mem vmm.pml4 v = walk S.mem vmm.pml4 v) := by
  have hle : S.machine.allocs ≤ S'.machine.allocs := by
    rw [hS']
    exact System.step_allocs pages S _
  obtain ⟨label, h⟩ := (Owned.start pages hkernel).run hpages hops (hS ▸ hle)
  rw [← hS] at h
  cases hk : S.space k with
  | none =>
    have hsame : S'.mem = S.mem := by rw [hS', System.step, hk]; rfl
    rw [hsame]
    exact ⟨fun _ _ _ _ _ => rfl, fun _ _ _ _ => rfl⟩
  | some vmm =>
    cases hm : vmmMap pages (some vmm) virt phys flags S.machine with
    | mk r s' =>
      rw [System.step, hk, hm] at hS'
      subst hS'
      have hf := spaceFlags_low hflags
      refine ⟨fun j vmm' hjk hj v => ?_, fun vmm' hvmm v hv => ?_⟩
      · exact h.walk_other hk hm hpages hf hlow hj hjk
      · obtain rfl := Option.some.inj hvmm
        exact h.walk_upper hk hm hpages hf hlow hv

/-- Two address spaces are created and the first maps a page. -/
theorem vmmMap_isolated_twoSpaces :
    let S := Runs.run (System.step (pagesFrom 2)) ⟨Machine.cleared 0x1000, []⟩
      [.create 0x10, .create 0x20]
    let S' := S.step (pagesFrom 2) (.map 1 0x400000 0x7000 pageUser)
    (∀ j vmm, j ≠ 1 → S.space j = some vmm → ∀ v, walk S'.mem vmm.pml4 v = walk S.mem vmm.pml4 v) ∧
    (∀ vmm, S.space 1 = some vmm →
      ∀ v, KernelHalf v → walk S'.mem vmm.pml4 v = walk S.mem vmm.pml4 v) := by
  intro S S'
  have hallocs : S'.machine.allocs = 5 := by decide +kernel
  have hpages : Supply (pagesFrom 2) (fun page => page = 0x1000) 5 :=
    supply_pagesFrom (by decide) (by decide)
  rw [← hallocs] at hpages
  exact vmmMap_isolated (pagesFrom 2) (Machine.cleared 0x1000) [.create 0x10, .create 0x20] 1
    0x400000 0x7000 pageUser S S' rfl rfl (kernelTree_cleared _ _) (supply_cleared hpages)
    (fun op hop => by
      obtain rfl | hop := List.mem_cons.mp hop
      · trivial
      · obtain rfl := List.mem_singleton.mp hop
        trivial)
    (by decide) (by decide)

end JarJar.Vmm
