import JarJar.VmmMap

/- Where the tables come from. `PAGE_MASK` keeps the bits above the address field,
   so an entry made with `PAGE_NX` decodes to another pointer than the one that
   was encoded. As long as no call meets such an entry again, every table
   `get_or_create_table` returns is the page `pmm_alloc_page` returned for its
   slot; the first call that does gets a table that is no page. -/
namespace JarJar.Vmm

/-- The first call in each region that is used again had no `PAGE_NX`. -/
def NxNotReused (calls : List MapCall) : Prop :=
  ∀ before c after, calls = before ++ c :: after → ∀ k, k = 1 ∨ k = 2 ∨ k = 3 →
    ∀ d, before.find? (fun d => d.region k = c.region k) = some d → d.flags &&& pageNx = 0

/-- The flags of a page, `PAGE_NX` among them. -/
def nxFlags : U64 :=
  pageWritable ||| pageUser ||| pageWritethrough ||| pageNocache ||| pageGlobal ||| pageNx

theorem nxFlags_low_iff {flags : U64} (h : FlagsIn nxFlags flags) :
    LowFlags flags ↔ flags &&& pageNx = 0 := by
  have hnx : flags &&& pageNx ≠ 0 ↔ flags.getLsbD 63 = true := and_flag_ne_zero flags (by decide)
  refine ⟨fun hlow => ?_, fun hz i hi => ?_⟩
  · by_contra hne
    have := hlow 63 (hnx.mp hne)
    omega
  · have hall : ∀ i < 64, nxFlags.getLsbD i = true → (i < 12 ∧ i ≠ 7) ∨ i = 63 := by decide
    cases hall i (BitVec.lt_of_getLsbD hi) (h.bit hi) with
    | inl hlow => exact hlow
    | inr htop =>
      subst htop
      exact absurd hz (hnx.mpr hi)

/-! ## The log -/

theorem TablesOk.suffix {uses uses' : List TableUse} (hs : uses <:+ uses') (h : TablesOk uses') :
    TablesOk uses := by
  obtain ⟨new, rfl⟩ := hs
  induction new with
  | nil => exact h
  | cons u new ih => exact ih h.2

/-- Pages in the log came from `pmm_alloc_page`. -/
def Logged (pages : Nat → U64) (s : Machine) : Prop :=
  ∀ c ∈ s.uses, ∀ page, c.page = some page → ∃ k < s.allocs, page = pages k

section
variable {pages : Nat → U64} {s s' : Machine} {vmm : VmmT} {c : MapCall} {calls : List MapCall}
  {A : Layout} {label : U64 → Option (List (Fin 512))}

theorem Logged.table_step {parent : U64} {index : Fin 512} {flags table : U64} (h : Logged pages s)
    (hg : getOrCreateTable pages parent index flags s = (table, s')) : Logged pages s' := by
  intro c hc page hpage
  obtain ⟨-, -, rfl⟩ | ⟨-, -, -, rfl⟩ | ⟨-, -, -, rfl⟩ := getOrCreateTable_cases hg
  · cases List.mem_cons.mp hc with
    | inl hnew => rw [hnew] at hpage; cases hpage
    | inr hold => exact h c hold page hpage
  · obtain ⟨k, hk, hpk⟩ := h c hc page hpage
    exact ⟨k, Nat.lt_succ_of_lt hk, hpk⟩
  · cases List.mem_cons.mp hc with
    | inl hnew =>
      rw [hnew] at hpage
      exact ⟨s.allocs, Nat.lt_succ_self _, (Option.some.inj hpage).symm⟩
    | inr hold =>
      obtain ⟨k, hk, hpk⟩ := h c hold page hpage
      exact ⟨k, Nat.lt_succ_of_lt hk, hpk⟩

theorem vmmMap_uses {virt phys flags : U64} {r : JarResult}
    (h : vmmMap pages (some vmm) virt phys flags s = (r, s')) :
    s.uses <:+ s'.uses ∧ (Logged pages s → Logged pages s') := by
  obtain ⟨pdpt, s₁, pd, s₂, pt, s₃, h₁, h₂, h₃, ⟨hallocs, huses, -⟩, -⟩ := vmmMap_cases h
  have hs₃ : s.uses <:+ s₃.uses :=
    (getOrCreateTable_uses h₁).trans ((getOrCreateTable_uses h₂).trans (getOrCreateTable_uses h₃))
  have hl₃ : Logged pages s → Logged pages s₃ :=
    fun hl => ((hl.table_step h₁).table_step h₂).table_step h₃
  unfold Logged at hl₃ ⊢
  rw [huses, hallocs]
  exact ⟨hs₃, hl₃⟩

theorem vmmMaps_uses {rs : List JarResult} (h : vmmMaps pages vmm calls s = (rs, s')) :
    s.uses <:+ s'.uses := by
  induction calls generalizing s rs with
  | nil =>
    obtain ⟨-, rfl⟩ := Prod.mk.inj h
    exact List.suffix_rfl
  | cons c calls ih =>
    obtain ⟨r, s₁, rs', hm, hrest, -⟩ := vmmMaps_cases h
    exact (vmmMap_uses hm).1.trans (ih hrest)

/-! ## A region made with `PAGE_NX` met again -/

/-- What comes back is not a page anybody returned. -/
theorem Holds.table_bad {pml4 t u flags f : U64} {p : List (Fin 512)} {i : Fin 512}
    (h : Holds pages pml4 s A label) (hlog : Logged pages s)
    (hg : getOrCreateTable pages t i flags s = (u, s'))
    (hpages : Supply pages (fun page => physToVirt page = pml4) s'.allocs)
    (ht : label t = some p) (hp : p.length < 3) (hf : A.dir (p ++ [i]) = some f)
    (hnx : f.getLsbD 63 = true) : ¬ TablesOk s'.uses := by
  obtain ⟨page, -, hentry, -⟩ := h.table ht hp hf
  have hpres : s.mem t i &&& pagePresent ≠ 0 := hentry ▸ entry_present page f
  obtain ⟨-, rfl, rfl⟩ | ⟨habs, -⟩ | ⟨habs, -⟩ := getOrCreateTable_cases hg
  · -- the pointer that comes back would have to be that of a logged page
    intro hok
    obtain ⟨c, hc, -, -, htable⟩ := hok.1
    obtain ⟨page', hpage', heq⟩ := Option.map_eq_some_iff.mp htable
    have hdec : page' = entry page f &&& pageMask := by
      rw [← hentry]
      exact physToVirt_inj heq
    cases List.mem_cons.mp hc with
    | inl hnew => rw [hnew] at hpage'; cases hpage'
    | inr hold =>
      obtain ⟨k, hk, rfl⟩ := hlog c hold page' hpage'
      have hphys : IsPhysPage (entry page f &&& pageMask) := by
        rw [← hdec]
        exact hpages.page k hk
      exact entry_code_nx hnx hphys
  · exact absurd hpres habs
  · exact absurd hpres habs

/-- One call: if an entry it meets does not decode, some table it gets is not the
page returned for the slot. -/
theorem Holds.map_bad {r : JarResult} (h : Holds pages vmm.pml4 s A label) (hlog : Logged pages s)
    (hm : vmmMap pages (some vmm) c.virt c.phys c.flags s = (r, s'))
    (hpages : Supply pages (fun page => physToVirt page = vmm.pml4) s'.allocs)
    (hA : ∀ q f, A.dir q = some f → FlagsIn nxFlags f) (hbad : ¬ Decodes A c) :
    ¬ TablesOk s'.uses := by
  obtain ⟨pdpt, s₁, pd, s₂, pt, s₃, hg₁, hg₂, hg₃, ⟨hle₃, huses, -⟩, -⟩ := vmmMap_cases hm
  have hle₁ := getOrCreateTable_allocs hg₂
  have hle₂ := getOrCreateTable_allocs hg₃
  rw [huses]
  have hnx : ∀ {q f}, A.dir q = some f → ¬ LowFlags f → f.getLsbD 63 = true := by
    intro q f hf hlow
    rw [nxFlags_low_iff (hA q f hf)] at hlow
    exact (and_flag_ne_zero f (by decide)).mp hlow
  -- level by level, down to the first entry that does not decode
  by_cases hlow₁ : ∀ f, A.dir (c.region 1) = some f → LowFlags f
  · obtain ⟨label₁, h₁, ht₁, -⟩ :=
      h.table_step hg₁ (hpages.mono (by omega)) h.root (by simp) hlow₁
    have hlog₁ := hlog.table_step hg₁
    have hd₂ : (A.touch (c.region 1) c.flags).dir (c.region 2) = A.dir (c.region 2) :=
      Layout.touch_dir_other (by simp [MapCall.region, path])
    by_cases hlow₂ : ∀ f, A.dir (c.region 2) = some f → LowFlags f
    · obtain ⟨label₂, h₂, ht₂, -⟩ :=
        h₁.table_step hg₂ (hpages.mono (by omega)) ht₁ (by simp) (fun f hf => hlow₂ f (hd₂ ▸ hf))
      have hlog₂ := hlog₁.table_step hg₂
      have hd₃ : ((A.touch (c.region 1) c.flags).touch (c.region 2) c.flags).dir (c.region 3) =
          A.dir (c.region 3) := by
        rw [Layout.touch_dir_other (by simp [MapCall.region, path]),
          Layout.touch_dir_other (by simp [MapCall.region, path])]
      by_cases hlow₃ : ∀ f, A.dir (c.region 3) = some f → LowFlags f
      · exfalso
        apply hbad
        intro k hk
        obtain rfl | rfl | rfl := hk
        · exact hlow₁
        · exact hlow₂
        · exact hlow₃
      · push Not at hlow₃
        obtain ⟨f, hf, hnlow⟩ := hlow₃
        exact h₂.table_bad hlog₂ hg₃ (hpages.mono (by omega)) ht₂ (by simp) (hd₃.trans hf)
          (hnx hf hnlow)
    · push Not at hlow₂
      obtain ⟨f, hf, hnlow⟩ := hlow₂
      intro hok
      exact h₁.table_bad hlog₁ hg₂ (hpages.mono (by omega)) ht₁ (by simp) (hd₂.trans hf)
        (hnx hf hnlow) (hok.suffix (getOrCreateTable_uses hg₃))
  · push Not at hlow₁
    obtain ⟨f, hf, hnlow⟩ := hlow₁
    intro hok
    exact h.table_bad hlog hg₁ (hpages.mono (by omega)) h.root (by simp) hf (hnx hf hnlow)
      (hok.suffix ((getOrCreateTable_uses hg₂).trans (getOrCreateTable_uses hg₃)))

/-- A run whose tables are right met only entries that decode. -/
theorem Holds.maps_decodes {rs : List JarResult} (h : Holds pages vmm.pml4 s A label)
    (hlog : Logged pages s) (hm : vmmMaps pages vmm calls s = (rs, s'))
    (hpages : Supply pages (fun page => physToVirt page = vmm.pml4) s'.allocs)
    (hA : ∀ q f, A.dir q = some f → FlagsIn nxFlags f) (hcalls : ∀ c ∈ calls, FlagsIn nxFlags c.flags)
    (hok : TablesOk s'.uses) : Runs.Each Layout.map Decodes A calls := by
  induction calls generalizing s A label rs with
  | nil => trivial
  | cons c calls ih =>
    obtain ⟨r, s₁, rs', hmap, hrest, -⟩ := vmmMaps_cases hm
    have hpages₁ := hpages.mono (vmmMaps_allocs hrest)
    have hdec : Decodes A c := by
      by_contra hbad
      exact h.map_bad hlog hmap hpages₁ hA hbad (hok.suffix (vmmMaps_uses hrest))
    obtain ⟨label₁, h₁, -, -⟩ := h.map_step hmap hpages₁ hdec
    refine ⟨hdec, ih h₁ ((vmmMap_uses hmap).2 hlog) hrest ?_ fun d hd => ?_⟩
    · exact Layout.map_flags hA (hcalls c List.mem_cons_self)
    · exact hcalls d (List.mem_cons_of_mem _ hd)

end

theorem nxNotReused_iff {calls : List MapCall} (hcalls : ∀ c ∈ calls, FlagsIn nxFlags c.flags) :
    NxNotReused calls ↔ Runs.Each Layout.map Decodes Layout.empty calls := by
  rw [Runs.each_iff]
  have hdir : ∀ before (c : MapCall) k, k = 1 ∨ k = 2 ∨ k = 3 →
      (Runs.run Layout.map Layout.empty before).dir (c.region k) =
      (before.find? (fun d => d.region k = c.region k)).map MapCall.flags := by
    intro before c k hk
    show (Layout.empty.maps before).dir (c.region k) = _
    rw [Layout.maps_first]
    simp only [MapCall.in_region hk]
  refine ⟨fun h before c after heq k hk f hf => ?_, fun h before c after heq k hk d hd => ?_⟩
  · rw [hdir before c k hk] at hf
    obtain ⟨d, hd, rfl⟩ := Option.map_eq_some_iff.mp hf
    have hmem : d ∈ calls := by
      rw [heq]
      exact List.mem_append_left _ (List.mem_of_find?_eq_some hd)
    exact (nxFlags_low_iff (hcalls d hmem)).mpr (h before c after heq k hk d hd)
  · have hmem : d ∈ calls := by
      rw [heq]
      exact List.mem_append_left _ (List.mem_of_find?_eq_some hd)
    refine (nxFlags_low_iff (hcalls d hmem)).mp (h before c after heq k hk d.flags ?_)
    rw [hdir before c k hk, hd]
    rfl

/-- Every table returned in a run is the page returned for its slot exactly when
no region made with `PAGE_NX` is used again. -/
theorem vmmMap_tables_iff (pages : Nat → U64) (vmm : VmmT) (calls : List MapCall) (s s' : Machine)
    (rs : List JarResult) (hrun : vmmMaps pages vmm calls s = (rs, s'))
    (hempty : ∀ i, ¬ s.mem vmm.pml4 i &&& pagePresent ≠ 0) (huses : s.uses = [])
    (hpages : Supply pages (fun page => page = vmm.pml4Phys) s'.allocs)
    (hcalls : ∀ c ∈ calls, FlagsIn nxFlags c.flags) :
    TablesOk s'.uses ↔ NxNotReused calls := by
  have h : Holds pages vmm.pml4 s Layout.empty _ := Holds.empty hempty
  rw [nxNotReused_iff hcalls]
  refine ⟨fun hok => ?_, fun hdec => ?_⟩
  · refine h.maps_decodes ?_ hrun hpages.pml4 (fun q f hf => by cases hf) hcalls hok
    intro c hc
    rw [huses] at hc
    exact absurd hc List.not_mem_nil
  · obtain ⟨label, -, -, hok⟩ := h.maps hrun hpages.pml4 hdec
    apply hok
    rw [huses]
    trivial

/-- Two pages of one region, the first without `PAGE_NX` and then the first with it. -/
theorem vmmMap_tables_iff_twoPages :
    TablesOk (vmmMaps (pagesFrom 2) (VmmT.ofPhys 0x1000)
      [⟨0x400000, 0x7000, 0⟩, ⟨0x401000, 0x8000, pageNx⟩] (Machine.cleared 0x1000)).2.uses ∧
    ¬ TablesOk (vmmMaps (pagesFrom 2) (VmmT.ofPhys 0x1000)
      [⟨0x400000, 0x7000, pageNx⟩, ⟨0x401000, 0x8000, 0⟩] (Machine.cleared 0x1000)).2.uses := by
  constructor
  · have hnx : NxNotReused [⟨0x400000, 0x7000, 0⟩, ⟨0x401000, 0x8000, pageNx⟩] := by
      intro before c after heq k _ d hd
      have hfirst : d ∈ [(⟨0x400000, 0x7000, 0⟩ : MapCall), ⟨0x401000, 0x8000, pageNx⟩].dropLast := by
        rw [heq, List.dropLast_append_of_ne_nil (List.cons_ne_nil _ _)]
        exact List.mem_append_left _ (List.mem_of_find?_eq_some hd)
      obtain rfl := List.mem_singleton.mp hfirst
      decide
    generalize hrun : vmmMaps (pagesFrom 2) (VmmT.ofPhys 0x1000)
      [⟨0x400000, 0x7000, 0⟩, ⟨0x401000, 0x8000, pageNx⟩] (Machine.cleared 0x1000) = run
    have hallocs : run.2.allocs = 3 := by
      rw [← hrun]
      decide +kernel
    have hpages := supply_three hallocs
    exact (vmmMap_tables_iff (pagesFrom 2) (VmmT.ofPhys 0x1000) _ (Machine.cleared 0x1000) run.2
      run.1 hrun (Machine.cleared_absent _ _) rfl hpages (by decide)).mpr hnx
  · have hnx : ¬ NxNotReused [⟨0x400000, 0x7000, pageNx⟩, ⟨0x401000, 0x8000, 0⟩] := fun h =>
      absurd (h [⟨0x400000, 0x7000, pageNx⟩] ⟨0x401000, 0x8000, 0⟩ [] rfl 1 (Or.inl rfl) _ rfl)
        (by decide)
    generalize hrun : vmmMaps (pagesFrom 2) (VmmT.ofPhys 0x1000)
      [⟨0x400000, 0x7000, pageNx⟩, ⟨0x401000, 0x8000, 0⟩] (Machine.cleared 0x1000) = run
    have hallocs : run.2.allocs = 5 := by
      rw [← hrun]
      decide +kernel
    have hpages : Supply (pagesFrom 2) (fun page => page = (VmmT.ofPhys 0x1000).pml4Phys)
        run.2.allocs := by
      rw [hallocs]
      exact supply_pagesFrom (by decide) (by decide)
    exact fun hok => hnx ((vmmMap_tables_iff (pagesFrom 2) (VmmT.ofPhys 0x1000) _
      (Machine.cleared 0x1000) run.2 run.1 hrun (Machine.cleared_absent _ _) rfl hpages
      (by decide)).mp hok)

/-- The other way round: the second call meets the first one's entry in the PML4
and takes the page it finds there for another one. -/
theorem vmmMap_loses_table :
    let run := vmmMaps (pagesFrom 2) (VmmT.ofPhys 0x1000)
      [⟨0x400000, 0x7000, pageNx⟩, ⟨0x401000, 0x8000, 0⟩] (Machine.cleared 0x1000)
    run.2.allocs = 5 ∧ Supply (pagesFrom 2) (fun page => page = (VmmT.ofPhys 0x1000).pml4Phys) 5 ∧
      ¬ TablesOk run.2.uses := by
  refine ⟨by decide +kernel, supply_pagesFrom (by decide) (by decide), ?_⟩
  decide +kernel

end JarJar.Vmm
