import JarJar.Vmm
import JarJar.VmmLayout
import JarJar.Lib.Runs

/- `vmm_map` on one address space that starts empty. `Holds` says that the tables
   are a tree of distinct pages that spells out a layout; the step lemmas carry it
   through the three levels of `get_or_create_table` and the leaf, so that a run
   of calls on the tables is the same run on layouts (`Holds.vmmMaps`). A walk
   then reads back the last call for the page. -/
namespace JarJar.Vmm

/-- Calls of `vmm_map` on one address space, one after the other. -/
def vmmMaps (pages : Nat → U64) (vmm : VmmT) : List MapCall → Machine → List JarResult × Machine
  | [], s => ([], s)
  | c :: calls, s =>
    let (r, s) := vmmMap pages (some vmm) c.virt c.phys c.flags s
    let (rs, s) := vmmMaps pages vmm calls s
    (r :: rs, s)

/-- Some use in `uses` took a page from `pmm_alloc_page` for the slot of `u`, and
the table of `u` is that page. -/
def ReturnedFor (uses : List TableUse) (u : TableUse) : Prop :=
  ∃ c ∈ uses, c.parent = u.parent ∧ c.index = u.index ∧ c.page.map physToVirt = some u.table

instance (uses : List TableUse) (u : TableUse) : Decidable (ReturnedFor uses u) := by
  unfold ReturnedFor; infer_instance

/-- Every table returned so far was the page returned for its slot, by then. -/
def TablesOk : List TableUse → Prop
  | [] => True
  | u :: rest => ReturnedFor (u :: rest) u ∧ TablesOk rest

instance decidableTablesOk : (uses : List TableUse) → Decidable (TablesOk uses)
  | [] => isTrue trivial
  | u :: rest =>
    have := decidableTablesOk rest
    inferInstanceAs (Decidable (ReturnedFor (u :: rest) u ∧ TablesOk rest))

/-- The tables below `pml4` spell out the layout `A`; `label t` is the path from
the PML4 to table `t`. -/
structure Holds (pages : Nat → U64) (pml4 : U64) (s : Machine) (A : Layout)
    (label : U64 → Option (List (Fin 512))) : Prop where
  closed : A.Closed
  root : label pml4 = some []
  inj : ∀ {t u p}, label t = some p → label u = some p → t = u
  live : ∀ {t p}, label t = some p → t = pml4 ∨ ∃ k < s.allocs, t = physToVirt (pages k)
  used : ∀ {t p}, label t = some p → p = [] ∨ A.dir p ≠ none
  absent : ∀ {t p i}, label t = some p → p.length < 3 → A.dir (p ++ [i]) = none →
    ¬ s.mem t i &&& pagePresent ≠ 0
  table : ∀ {t p i f}, label t = some p → p.length < 3 → A.dir (p ++ [i]) = some f →
    ∃ page, IsPhysPage page ∧ s.mem t i = entry page f ∧
      label (physToVirt page) = some (p ++ [i]) ∧
      ∃ c ∈ s.uses, c.parent = t ∧ c.index = i ∧ c.page = some page
  unmapped : ∀ {t p i}, label t = some p → p.length = 3 → A.leaf (p ++ [i]) = none →
    ¬ s.mem t i &&& pagePresent ≠ 0
  mapped : ∀ {t p i e}, label t = some p → p.length = 3 → A.leaf (p ++ [i]) = some e →
    s.mem t i = e

section
variable {pages : Nat → U64} {pml4 : U64} {s : Machine} {A : Layout}
  {label : U64 → Option (List (Fin 512))} {t : U64} {p : List (Fin 512)} {i : Fin 512}
  {flags : U64} {n : Nat}

theorem Holds.empty (h0 : ∀ i, ¬ s.mem pml4 i &&& pagePresent ≠ 0) :
    Holds pages pml4 s Layout.empty (Function.update (fun _ => none) pml4 (some [])) := by
  have only : ∀ {t p}, Function.update (fun _ => none) pml4 (some ([] : List (Fin 512))) t = some p →
      t = pml4 ∧ p = [] := by
    intro t p h
    obtain hroot | ⟨-, hnone⟩ := RadixForest.update_cases h
    · exact hroot
    · cases hnone
  exact {
    closed := Layout.closed_empty
    root := Function.update_self _ _ _
    inj := fun h h' => (only h).1.trans (only h').1.symm
    live := fun h => Or.inl (only h).1
    used := fun h => Or.inl (only h).2
    absent := fun h _ _ => (only h).1 ▸ h0 _
    table := fun _ _ h => by cases h
    unmapped := fun h hlen => absurd hlen (by rw [(only h).2]; decide)
    mapped := fun _ _ h => by cases h }

theorem Holds.fresh (h : Holds pages pml4 s A label)
    (hpages : Supply pages (fun page => physToVirt page = pml4) n) (hn : s.allocs < n) :
    label (physToVirt (pages s.allocs)) = none := by
  apply Option.eq_none_iff_forall_ne_some.mpr
  intro q hq
  exact Supply.next_unused (fun t => t = pml4) hpages hn (h.live hq)

/-- A new table is linked below a slot without a region. -/
structure Linking (pages : Nat → U64) (pml4 : U64) (s : Machine) (A : Layout)
    (label : U64 → Option (List (Fin 512))) (t : U64) (p : List (Fin 512)) (i : Fin 512)
    (flags : U64) (mem : U64 → Fin 512 → U64) : Prop where
  holds : Holds pages pml4 s A label
  fresh : label (physToVirt (pages s.allocs)) = none
  parent : label t = some p
  inner : p.length < 3
  dir : A.dir (p ++ [i]) = none
  mem_eq : mem = RadixForest.link s.mem t i (entry (pages s.allocs) flags)
    (physToVirt (pages s.allocs)) 0

namespace Linking
variable {mem : U64 → Fin 512 → U64} {w w' : U64} {q : List (Fin 512)} {j : Fin 512} {f e : U64}

theorem unique (h : Linking pages pml4 s A label t p i flags mem) : label w ≠ some (p ++ [i]) := by
  intro hw
  obtain hnil | hsome := h.holds.used hw
  · simp at hnil
  · exact hsome h.dir

theorem same (h : Linking pages pml4 s A label t p i flags mem)
    (hwu : w ≠ physToVirt (pages s.allocs)) (hw : label w = some q) (hne : q ++ [j] ≠ p ++ [i]) :
    mem w j = s.mem w j := by
  rw [h.mem_eq]
  apply RadixForest.link_other hwu
  intro hslot
  apply hne
  rw [hslot.1, h.parent] at hw
  rw [← Option.some.inj hw, hslot.2]

theorem new (h : Linking pages pml4 s A label t p i flags mem) :
    ¬ mem (physToVirt (pages s.allocs)) j &&& pagePresent ≠ 0 := by
  rw [h.mem_eq, RadixForest.link_new]
  decide

theorem leaf_ne (h : Linking pages pml4 s A label t p i flags mem) (hlen : q.length = 3) :
    q ++ [j] ≠ p ++ [i] := by
  intro heq
  have hinner := h.inner
  rw [(List.append_singleton_inj.mp heq).1] at hlen
  omega

theorem inj (h : Linking pages pml4 s A label t p i flags mem)
    (hw : Function.update label (physToVirt (pages s.allocs)) (some (p ++ [i])) w = some q)
    (hw' : Function.update label (physToVirt (pages s.allocs)) (some (p ++ [i])) w' = some q) :
    w = w' := by
  obtain ⟨rfl, rfl⟩ | ⟨-, hw⟩ := RadixForest.update_cases hw
  · obtain ⟨rfl, -⟩ | ⟨-, hw'⟩ := RadixForest.update_cases hw'
    · rfl
    · exact absurd hw' h.unique
  · obtain ⟨-, rfl⟩ | ⟨-, hw'⟩ := RadixForest.update_cases hw'
    · exact absurd hw h.unique
    · exact h.holds.inj hw hw'

theorem used (h : Linking pages pml4 s A label t p i flags mem)
    (hw : Function.update label (physToVirt (pages s.allocs)) (some (p ++ [i])) w = some q) :
    q = [] ∨ (A.touch (p ++ [i]) flags).dir q ≠ none := by
  by_cases hq : q = p ++ [i]
  · rw [hq, Layout.touch_dir_self]
    exact Or.inr (Option.some_ne_none _)
  · rw [Layout.touch_dir_other hq]
    obtain ⟨-, hq'⟩ | ⟨-, hw⟩ := RadixForest.update_cases hw
    · exact absurd hq' hq
    · exact h.holds.used hw

theorem table (h : Linking pages pml4 s A label t p i flags mem)
    (hpage : IsPhysPage (pages s.allocs)) {uses : List TableUse}
    (huses : uses = ⟨t, i, physToVirt (pages s.allocs), some (pages s.allocs)⟩ :: s.uses)
    (hw : Function.update label (physToVirt (pages s.allocs)) (some (p ++ [i])) w = some q)
    (hlen : q.length < 3) (hf : (A.touch (p ++ [i]) flags).dir (q ++ [j]) = some f) :
    ∃ page, IsPhysPage page ∧ mem w j = entry page f ∧
      Function.update label (physToVirt (pages s.allocs)) (some (p ++ [i])) (physToVirt page) =
        some (q ++ [j]) ∧
      ∃ c ∈ uses, c.parent = w ∧ c.index = j ∧ c.page = some page := by
  by_cases hslot : q ++ [j] = p ++ [i]
  · rw [hslot, Layout.touch_dir_self, h.dir, Option.getD_none] at hf
    obtain rfl := Option.some.inj hf
    obtain ⟨rfl, rfl⟩ := List.append_singleton_inj.mp hslot
    obtain ⟨-, hq⟩ | ⟨hwu, hw⟩ := RadixForest.update_cases hw
    · simp at hq
    · obtain rfl := h.holds.inj h.parent hw
      refine ⟨pages s.allocs, hpage, ?_, Function.update_self _ _ _, ?_⟩
      · rw [h.mem_eq, RadixForest.link_self hwu]
      · rw [huses]
        exact ⟨_, List.mem_cons_self, rfl, rfl, rfl⟩
  · rw [Layout.touch_dir_other hslot] at hf
    obtain ⟨-, rfl⟩ | ⟨hwu, hw⟩ := RadixForest.update_cases hw
    · -- below a new region there is none
      rw [h.holds.closed.dir _ j (by simp) h.dir] at hf
      cases hf
    · obtain ⟨page, hpage, hentry, hlabel, c, hc, hslots⟩ := h.holds.table hw hlen hf
      refine ⟨page, hpage, (h.same hwu hw hslot).trans hentry,
        RadixForest.extends_update h.fresh (p ++ [i]) _ _ hlabel, c, ?_, hslots⟩
      rw [huses]
      exact List.mem_cons_of_mem _ hc

end Linking

theorem Holds.link (h : Holds pages pml4 s A label)
    (hpages : Supply pages (fun page => physToVirt page = pml4) n) (hn : s.allocs < n)
    (ht : label t = some p) (hp : p.length < 3) (hdir : A.dir (p ++ [i]) = none)
    {s' : Machine} (hallocs : s'.allocs = s.allocs + 1)
    (hmem : s'.mem = RadixForest.link s.mem t i (entry (pages s.allocs) flags)
      (physToVirt (pages s.allocs)) 0)
    (huses : s'.uses = ⟨t, i, physToVirt (pages s.allocs), some (pages s.allocs)⟩ :: s.uses) :
    Holds pages pml4 s' (A.touch (p ++ [i]) flags)
      (Function.update label (physToVirt (pages s.allocs)) (some (p ++ [i]))) := by
  have hlink : Linking pages pml4 s A label t p i flags s'.mem :=
    ⟨h, h.fresh hpages hn, ht, hp, hdir, hmem⟩
  refine
    { closed := h.closed.touch (h.used ht)
      root := RadixForest.extends_update hlink.fresh _ _ _ h.root
      inj := hlink.inj
      live := ?_
      used := hlink.used
      absent := ?_
      table := hlink.table (hpages.page _ hn) huses
      unmapped := ?_
      mapped := ?_ }
  · intro w q hw
    rw [hallocs]
    obtain ⟨rfl, -⟩ | ⟨-, hw⟩ := RadixForest.update_cases hw
    · exact Or.inr ⟨s.allocs, Nat.lt_succ_self _, rfl⟩
    · obtain hroot | ⟨k, hk, hpage⟩ := h.live hw
      · exact Or.inl hroot
      · exact Or.inr ⟨k, Nat.lt_succ_of_lt hk, hpage⟩
  · -- slots without a region: all of the new table, and those of before
    intro w q j hw hlen hn
    obtain ⟨hne, hn⟩ := Layout.touch_dir_none hn
    obtain ⟨rfl, -⟩ | ⟨hwu, hw⟩ := RadixForest.update_cases hw
    · exact hlink.new
    · rw [hlink.same hwu hw hne]
      exact h.absent hw hlen hn
  · intro w q j hw hlen hn
    obtain ⟨rfl, -⟩ | ⟨hwu, hw⟩ := RadixForest.update_cases hw
    · exact hlink.new
    · rw [hlink.same hwu hw (hlink.leaf_ne hlen)]
      exact h.unmapped hw hlen hn
  · intro w q j e hw hlen he
    obtain ⟨-, rfl⟩ | ⟨hwu, hw⟩ := RadixForest.update_cases hw
    · rw [show (A.touch (p ++ [i]) flags).leaf = A.leaf from rfl,
        h.closed.leaf _ j (by simp) hdir] at he
      cases he
    · rw [hlink.same hwu hw (hlink.leaf_ne hlen)]
      exact h.mapped hw hlen he

theorem Holds.store (h : Holds pages pml4 s A label) (ht : label t = some p) (hp : p.length = 3)
    (e : U64) : Holds pages pml4 (s.store t i e) (A.setLeaf (p ++ [i]) e) label := by
  -- away from the slot nothing changes
  have same : ∀ {w q j}, label w = some q → q ++ [j] ≠ p ++ [i] →
      (s.store t i e).mem w j = s.mem w j := by
    intro w q j hw hne
    apply RadixForest.put_other
    intro hslot
    apply hne
    rw [hslot.1, ht] at hw
    rw [← Option.some.inj hw, hslot.2]
  have inner : ∀ {q : List (Fin 512)} {j}, q.length < 3 → q ++ [j] ≠ p ++ [i] := by
    intro q j hlen heq
    rw [(List.append_singleton_inj.mp heq).1] at hlen
    omega
  refine
    { closed := h.closed.setLeaf (h.used ht)
      root := h.root, inj := h.inj, live := h.live, used := h.used
      absent := ?_, table := ?_, unmapped := ?_, mapped := ?_ }
  · intro w q j hw hlen hn
    rw [same hw (inner hlen)]
    exact h.absent hw hlen hn
  · intro w q j f hw hlen hf
    rw [same hw (inner hlen)]
    exact h.table hw hlen hf
  · intro w q j hw hlen hn
    by_cases hslot : q ++ [j] = p ++ [i]
    · rw [hslot, Layout.setLeaf_self] at hn
      cases hn
    · rw [same hw hslot]
      exact h.unmapped hw hlen (Layout.setLeaf_other hslot ▸ hn)
  · intro w q j f hw hlen hf
    by_cases hslot : q ++ [j] = p ++ [i]
    · rw [hslot, Layout.setLeaf_self] at hf
      obtain ⟨rfl, rfl⟩ := List.append_singleton_inj.mp hslot
      obtain rfl := h.inj ht hw
      exact RadixForest.put_self.trans (Option.some.inj hf)
    · rw [same hw hslot]
      exact h.mapped hw hlen (Layout.setLeaf_other hslot ▸ hf)

theorem Holds.ne_null (h : Holds pages pml4 s A label)
    (hpages : Supply pages (fun page => physToVirt page = pml4) n) (hn : s.allocs ≤ n)
    (ht : label t = some (p ++ [i])) : t ≠ 0 := by
  obtain rfl | ⟨k, hk, rfl⟩ := h.live ht
  · rw [h.root] at ht
    simp at ht
  · exact hpages.pointer k (Nat.lt_of_lt_of_le hk hn)

/-- One level: the table below a slot is there afterwards, under the path of the
slot. An entry that is there already must have been made without `PAGE_NX`. -/
theorem Holds.table_step (h : Holds pages pml4 s A label) {u : U64} {s' : Machine}
    (hg : getOrCreateTable pages t i flags s = (u, s'))
    (hpages : Supply pages (fun page => physToVirt page = pml4) s'.allocs)
    (ht : label t = some p) (hp : p.length < 3) (hlow : ∀ f, A.dir (p ++ [i]) = some f → LowFlags f) :
    ∃ label', Holds pages pml4 s' (A.touch (p ++ [i]) flags) label' ∧ label' u = some (p ++ [i]) ∧
      (TablesOk s.uses → TablesOk s'.uses) := by
  obtain ⟨hpres, rfl, rfl⟩ | ⟨-, hzero, -, rfl⟩ | ⟨habs, -, rfl, rfl⟩ := getOrCreateTable_cases hg
  · -- the region is there: its entry decodes to its table
    cases hdir : A.dir (p ++ [i]) with
    | none => exact absurd hpres (h.absent ht hp hdir)
    | some f =>
      obtain ⟨page, hpage, hentry, hlabel, c, hc, hparent, hindex, hcpage⟩ := h.table ht hp hdir
      have hcode : s.mem t i &&& pageMask = page := by
        rw [hentry]
        exact entry_code hpage (hlow f hdir)
      rw [Layout.touch_of_some hdir, hcode]
      refine ⟨label, ?_, hlabel, fun hok => ⟨?_, hok⟩⟩
      · exact { h with
          table := fun hw hlen hf => by
            obtain ⟨page, h₁, h₂, h₃, c, hc, hslot⟩ := h.table hw hlen hf
            exact ⟨page, h₁, h₂, h₃, c, List.mem_cons_of_mem _ hc, hslot⟩ }
      · exact ⟨c, List.mem_cons_of_mem _ hc, hparent, hindex, by rw [hcpage]; rfl⟩
  · exact absurd hzero (hpages.nonzero _ (Nat.lt_succ_self _))
  · cases hdir : A.dir (p ++ [i]) with
    | some f =>
      obtain ⟨page, -, hentry, -⟩ := h.table ht hp hdir
      exact absurd (hentry ▸ entry_present page f) habs
    | none =>
      refine ⟨_, h.link hpages (Nat.lt_succ_self _) ht hp hdir rfl rfl rfl,
        Function.update_self _ _ _, fun hok => ⟨?_, hok⟩⟩
      exact ⟨_, List.mem_cons_self, rfl, rfl, rfl⟩

/-- The regions of `c` that are there already were made without `PAGE_NX`. -/
def Decodes (A : Layout) (c : MapCall) : Prop :=
  ∀ k, k = 1 ∨ k = 2 ∨ k = 3 → ∀ f, A.dir (c.region k) = some f → LowFlags f

/-- `vmm_map` on the tables is `Layout.map`. -/
theorem Holds.map_step {vmm : VmmT} {c : MapCall} {r : JarResult} {s' : Machine}
    (h : Holds pages vmm.pml4 s A label)
    (hm : vmmMap pages (some vmm) c.virt c.phys c.flags s = (r, s'))
    (hpages : Supply pages (fun page => physToVirt page = vmm.pml4) s'.allocs) (hlow : Decodes A c) :
    ∃ label', Holds pages vmm.pml4 s' (A.map c) label' ∧ r = .ok ∧
      (TablesOk s.uses → TablesOk s'.uses) := by
  obtain ⟨pdpt, s₁, pd, s₂, pt, s₃, hg₁, hg₂, hg₃, ⟨hle₃, -⟩, hlast⟩ := vmmMap_cases hm
  have hle₁ := getOrCreateTable_allocs hg₂
  have hle₂ := getOrCreateTable_allocs hg₃
  -- one level after the other; the regions of the levels below are not touched
  obtain ⟨label₁, h₁, ht₁, hok₁⟩ :=
    h.table_step hg₁ (hpages.mono (by omega)) h.root (by decide) (hlow 1 (Or.inl rfl))
  have hlow₂ : ∀ f, (A.touch (c.region 1) c.flags).dir (c.region 2) = some f → LowFlags f := by
    rw [Layout.touch_dir_other (by simp [MapCall.region, path])]
    exact hlow 2 (Or.inr (Or.inl rfl))
  obtain ⟨label₂, h₂, ht₂, hok₂⟩ :=
    h₁.table_step hg₂ (hpages.mono (by omega)) ht₁ (by simp) hlow₂
  have hlow₃ : ∀ f, ((A.touch (c.region 1) c.flags).touch (c.region 2) c.flags).dir (c.region 3)
      = some f → LowFlags f := by
    rw [Layout.touch_dir_other (by simp [MapCall.region, path]),
      Layout.touch_dir_other (by simp [MapCall.region, path])]
    exact hlow 3 (Or.inr (Or.inr rfl))
  obtain ⟨label₃, h₃, ht₃, hok₃⟩ :=
    h₂.table_step hg₃ (hpages.mono (by omega)) ht₂ (by simp) hlow₃
  obtain ⟨hnull, -, -⟩ | ⟨-, rfl, rfl⟩ := hlast
  · exact absurd hnull (h₃.ne_null (hpages.mono (Nat.le_of_eq hle₃.symm)) (Nat.le_refl _) ht₃)
  · exact ⟨label₃, h₃.store ht₃ rfl _, rfl, fun hok => hok₃ (hok₂ (hok₁ hok))⟩

/-! ## Runs -/

theorem vmmMaps_cases {vmm : VmmT} {c : MapCall} {calls : List MapCall} {rs : List JarResult}
    {s' : Machine} (h : vmmMaps pages vmm (c :: calls) s = (rs, s')) :
    ∃ r s₁ rs', vmmMap pages (some vmm) c.virt c.phys c.flags s = (r, s₁) ∧
      vmmMaps pages vmm calls s₁ = (rs', s') ∧ rs = r :: rs' := by
  obtain ⟨rfl, rfl⟩ := Prod.mk.inj h
  exact ⟨_, _, _, rfl, rfl, rfl⟩

theorem vmmMaps_allocs {vmm : VmmT} {calls : List MapCall} {rs : List JarResult} {s' : Machine}
    (h : vmmMaps pages vmm calls s = (rs, s')) : s.allocs ≤ s'.allocs := by
  induction calls generalizing s rs with
  | nil =>
    obtain ⟨-, rfl⟩ := Prod.mk.inj h
    exact Nat.le_refl _
  | cons c calls ih =>
    obtain ⟨r, s₁, rs', hm, hrest, -⟩ := vmmMaps_cases h
    exact Nat.le_trans (vmmMap_registers hm).1 (ih hrest)

theorem Holds.maps {vmm : VmmT} {calls : List MapCall} {rs : List JarResult} {s' : Machine}
    (h : Holds pages vmm.pml4 s A label) (hm : vmmMaps pages vmm calls s = (rs, s'))
    (hpages : Supply pages (fun page => physToVirt page = vmm.pml4) s'.allocs)
    (hlow : Runs.Each Layout.map Decodes A calls) :
    ∃ label', Holds pages vmm.pml4 s' (A.maps calls) label' ∧
      rs = List.replicate calls.length .ok ∧
      (TablesOk s.uses → TablesOk s'.uses) := by
  induction calls generalizing s A label rs with
  | nil =>
    obtain ⟨rfl, rfl⟩ := Prod.mk.inj hm
    exact ⟨label, h, rfl, id⟩
  | cons c calls ih =>
    obtain ⟨r, s₁, rs', hmap, hrest, rfl⟩ := vmmMaps_cases hm
    obtain ⟨label₁, h₁, hr, hok₁⟩ :=
      h.map_step hmap (hpages.mono (vmmMaps_allocs hrest)) hlow.1
    obtain ⟨label₂, h₂, hrs, hok₂⟩ := ih h₁ hrest hlow.2
    refine ⟨label₂, h₂, ?_, fun hok => hok₂ (hok₁ hok)⟩
    rw [hr, hrs, List.length_cons, List.replicate_succ]

/-- Flags without `PAGE_NX` decode wherever they are met again. -/
theorem decodes_of_low {calls : List MapCall} (hA : ∀ q f, A.dir q = some f → LowFlags f)
    (hcalls : ∀ c ∈ calls, LowFlags c.flags) : Runs.Each Layout.map Decodes A calls := by
  induction calls generalizing A with
  | nil => trivial
  | cons c calls ih =>
    refine ⟨fun k _ f hf => hA _ f hf, ih ?_ fun d hd => hcalls d (List.mem_cons_of_mem _ hd)⟩
    exact Layout.map_flags hA (hcalls c List.mem_cons_self)

/-- A run without `PAGE_NX` on an address space that starts empty: the tables
spell out what the calls asked for, and every call succeeds. -/
theorem vmmMaps_holds {vmm : VmmT} {calls : List MapCall} {rs : List JarResult} {s' : Machine}
    (hrun : vmmMaps pages vmm calls s = (rs, s'))
    (hempty : ∀ i, ¬ s.mem vmm.pml4 i &&& pagePresent ≠ 0)
    (hpages : Supply pages (fun page => page = vmm.pml4Phys) s'.allocs)
    (hlow : ∀ c ∈ calls, LowFlags c.flags) :
    ∃ label, Holds pages vmm.pml4 s' (Layout.empty.maps calls) label ∧
      rs = List.replicate calls.length .ok ∧
      ∀ q f, (Layout.empty.maps calls).dir q = some f → TableFlags f := by
  have hdec : Runs.Each Layout.map Decodes Layout.empty calls :=
    decodes_of_low (fun q f hf => by cases hf) hlow
  obtain ⟨label, h, hrs, -⟩ := (Holds.empty hempty).maps hrun hpages.pml4 hdec
  refine ⟨label, h, hrs, fun q f hf => ?_⟩
  obtain ⟨c, hc, -, rfl⟩ := Layout.maps_dir_mem hf
  exact (hlow c hc).tableFlags

/-! ## Walks -/

theorem Holds.next (h : Holds pages pml4 s A label) (ht : label t = some p) (hp : p.length < 3)
    {f : U64} (hf : A.dir (p ++ [i]) = some f) (hflags : TableFlags f) :
    ∃ page, IsPhysPage page ∧ s.mem t i = entry page f ∧ ∃ u, tableOf (s.mem t i) = some u ∧
      label u = some (p ++ [i]) := by
  obtain ⟨page, hpage, hentry, hlabel, -⟩ := h.table ht hp hf
  refine ⟨page, hpage, hentry, physToVirt page, ?_, hlabel⟩
  rw [hentry]
  exact tableOf_entry hpage hflags

theorem Holds.walk_mapped (h : Holds pages pml4 s A label)
    (hflags : ∀ q f, A.dir q = some f → TableFlags f) {v e : U64} (he : A.leaf (path v) = some e) :
    ∃ p₁ f₁ p₂ f₂ p₃ f₃,
      A.dir [pml4Index v] = some f₁ ∧ A.dir [pml4Index v, pdptIndex v] = some f₂ ∧
      A.dir [pml4Index v, pdptIndex v, pdIndex v] = some f₃ ∧
      IsPhysPage p₁ ∧ IsPhysPage p₂ ∧ IsPhysPage p₃ ∧
      walk s.mem pml4 v = [entry p₁ f₁, entry p₂ f₂, entry p₃ f₃, e] := by
  -- a page that is mapped lies in regions that are there
  have hd₃ : A.dir [pml4Index v, pdptIndex v, pdIndex v] ≠ none := fun hn => by
    have hleaf := h.closed.leaf _ (ptIndex v) (by simp) hn
    exact Option.some_ne_none e (he.symm.trans hleaf)
  have hd₂ : A.dir [pml4Index v, pdptIndex v] ≠ none := fun hn =>
    hd₃ (h.closed.dir _ (pdIndex v) (by simp) hn)
  have hd₁ : A.dir [pml4Index v] ≠ none := fun hn =>
    hd₂ (h.closed.dir _ (pdptIndex v) (by simp) hn)
  obtain ⟨f₁, hf₁⟩ := Option.ne_none_iff_exists'.mp hd₁
  obtain ⟨f₂, hf₂⟩ := Option.ne_none_iff_exists'.mp hd₂
  obtain ⟨f₃, hf₃⟩ := Option.ne_none_iff_exists'.mp hd₃
  obtain ⟨p₁, hp₁, he₁, u₁, hn₁, hl₁⟩ := h.next h.root (by simp) hf₁ (hflags _ _ hf₁)
  obtain ⟨p₂, hp₂, he₂, u₂, hn₂, hl₂⟩ := h.next hl₁ (by simp) hf₂ (hflags _ _ hf₂)
  obtain ⟨p₃, hp₃, he₃, u₃, hn₃, hl₃⟩ := h.next hl₂ (by simp) hf₃ (hflags _ _ hf₃)
  refine ⟨p₁, f₁, p₂, f₂, p₃, f₃, hf₁, hf₂, hf₃, hp₁, hp₂, hp₃, ?_⟩
  calc walk s.mem pml4 v
      = [s.mem pml4 (pml4Index v), s.mem u₁ (pdptIndex v), s.mem u₂ (pdIndex v),
          s.mem u₃ (ptIndex v)] := walk_of_tables hn₁ hn₂ hn₃
    _ = [entry p₁ f₁, entry p₂ f₂, entry p₃ f₃, e] := by
        rw [he₁, he₂, he₃, h.mapped hl₃ rfl he]

theorem Holds.walk_unmapped (h : Holds pages pml4 s A label)
    (hflags : ∀ q f, A.dir q = some f → TableFlags f) {v : U64} (hn : A.leaf (path v) = none) :
    ∃ e, (walk s.mem pml4 v).getLast? = some e ∧ ¬ e &&& pagePresent ≠ 0 := by
  unfold walk
  cases hf₁ : A.dir [pml4Index v] with
  | none =>
    have habs := h.absent h.root (by simp) hf₁
    rw [RadixForest.trail_stop tableOf (tableOf_absent habs)]
    exact ⟨_, rfl, habs⟩
  | some f₁ =>
    obtain ⟨p₁, hp₁, he₁, u₁, hn₁, hl₁⟩ := h.next h.root (by simp) hf₁ (hflags _ _ hf₁)
    rw [RadixForest.trail_step tableOf hn₁]
    cases hf₂ : A.dir [pml4Index v, pdptIndex v] with
    | none =>
      have habs := h.absent hl₁ (by simp) hf₂
      rw [RadixForest.trail_stop tableOf (tableOf_absent habs)]
      exact ⟨_, rfl, habs⟩
    | some f₂ =>
      obtain ⟨p₂, hp₂, he₂, u₂, hn₂, hl₂⟩ := h.next hl₁ (by simp) hf₂ (hflags _ _ hf₂)
      rw [RadixForest.trail_step tableOf hn₂]
      cases hf₃ : A.dir [pml4Index v, pdptIndex v, pdIndex v] with
      | none =>
        have habs := h.absent hl₂ (by simp) hf₃
        rw [RadixForest.trail_stop tableOf (tableOf_absent habs)]
        exact ⟨_, rfl, habs⟩
      | some f₃ =>
        obtain ⟨p₃, hp₃, he₃, u₃, hn₃, hl₃⟩ := h.next hl₂ (by simp) hf₃ (hflags _ _ hf₃)
        rw [RadixForest.trail_step tableOf hn₃, RadixForest.trail]
        exact ⟨_, rfl, h.unmapped hl₃ rfl hn⟩

end

/-! ## The last call for a page -/

/-- The flags that leave a page mapped, executable and of the common size. -/
def plainFlags : U64 :=
  pageWritable ||| pageUser ||| pageWritethrough ||| pageNocache ||| pageAccessed ||| pageDirty |||
    pageGlobal

theorem plainFlags_low {flags : U64} (h : FlagsIn plainFlags flags) : LowFlags flags :=
  h.low (by decide)

/-- On an address space that starts empty every call succeeds, and afterwards the
walk reaches the leaf of the last call for the page, or an entry that is not
present when no call was for it. -/
theorem vmmMap_last_call (pages : Nat → U64) (vmm : VmmT) (calls : List MapCall) (s s' : Machine)
    (rs : List JarResult) (hrun : vmmMaps pages vmm calls s = (rs, s'))
    (hempty : ∀ i, ¬ s.mem vmm.pml4 i &&& pagePresent ≠ 0)
    (hpages : Supply pages (fun page => page = vmm.pml4Phys) s'.allocs)
    (hcalls : ∀ c ∈ calls, FlagsIn plainFlags c.flags) :
    rs = List.replicate calls.length .ok ∧
      ∀ v, match calls.reverse.find? (fun c => pageNumber v = pageNumber c.virt) with
        | some c => ∃ e₁ e₂ e₃, walk s'.mem vmm.pml4 v = [e₁, e₂, e₃, entry c.phys c.flags]
        | none => ∃ e, (walk s'.mem vmm.pml4 v).getLast? = some e ∧ ¬ e &&& pagePresent ≠ 0 := by
  obtain ⟨label, h, hrs, hflags⟩ := vmmMaps_holds hrun hempty hpages
    (fun c hc => plainFlags_low (hcalls c hc))
  refine ⟨hrs, fun v => ?_⟩
  have hleaf := Layout.maps_last calls v
  cases hfind : calls.reverse.find? (fun c => pageNumber v = pageNumber c.virt) with
  | some c =>
    rw [hfind] at hleaf
    obtain ⟨p₁, f₁, p₂, f₂, p₃, f₃, -, -, -, -, -, -, hwalk⟩ := h.walk_mapped hflags hleaf
    exact ⟨_, _, _, hwalk⟩
  | none =>
    rw [hfind] at hleaf
    exact h.walk_unmapped hflags hleaf

theorem supply_three {n : Nat} (hn : n = 3) :
    Supply (pagesFrom 2) (fun page => page = (VmmT.ofPhys 0x1000).pml4Phys) n := by
  rw [hn]
  exact supply_pagesFrom (by decide) (by decide)

/-- Remapping a page of a fresh address space. -/
theorem vmmMap_last_call_remap :
    ∃ e₁ e₂ e₃,
      walk (vmmMaps (pagesFrom 2) (VmmT.ofPhys 0x1000)
        [⟨0x400000, 0x7000, 0⟩, ⟨0x400000, 0x9000, pageWritable⟩]
        (Machine.cleared 0x1000)).2.mem (VmmT.ofPhys 0x1000).pml4 0x400123 =
      [e₁, e₂, e₃, entry 0x9000 pageWritable] := by
  generalize hrun : vmmMaps (pagesFrom 2) (VmmT.ofPhys 0x1000)
    [⟨0x400000, 0x7000, 0⟩, ⟨0x400000, 0x9000, pageWritable⟩] (Machine.cleared 0x1000) = run
  have hallocs : run.2.allocs = 3 := by
    rw [← hrun]
    decide +kernel
  have hpages := supply_three hallocs
  have hlast := vmmMap_last_call (pagesFrom 2) (VmmT.ofPhys 0x1000) _ (Machine.cleared 0x1000) run.2
    run.1 hrun (Machine.cleared_absent _ _) hpages (by decide)
  exact hlast.2 0x400123

end JarJar.Vmm
