import JarJar.VmmMap

/- Permissions. The processor lets an access through only when the entries of all
   four levels do. The entry of a region takes the flags of the first call in it
   and keeps them, so a page gets what its last call asked for only when the first
   call in each of its three regions asked for as much. -/
namespace JarJar.Vmm

/-- The flags the processor checks on every level. -/
def permFlags : U64 := pageWritable ||| pageUser

/-- The permissions a walk ends with: those all its entries have. -/
def effective (entries : List U64) : U64 := entries.foldl (· &&& ·) permFlags

/-- The first calls in the three regions of `c` asked for `flag`. -/
def FirstsHave (calls : List MapCall) (c : MapCall) (flag : U64) : Prop :=
  ∀ k, k = 1 ∨ k = 2 ∨ k = 3 →
    ∀ d, calls.find? (fun d => d.region k = c.region k) = some d → d.flags &&& flag ≠ 0

/-- Each permission `c` asks for was asked for by the first calls in its regions;
and where they all did, `phys` does not bring in one that `c` does not ask for. -/
def PermsKept (calls : List MapCall) (c : MapCall) : Prop :=
  ∀ flag, flag = pageWritable ∨ flag = pageUser →
    (c.flags &&& flag ≠ 0 → FirstsHave calls c flag) ∧
    (c.phys &&& flag ≠ 0 → FirstsHave calls c flag → c.flags &&& flag ≠ 0)

theorem permFlags_bit (i : Nat) : permFlags.getLsbD i = true ↔ i = 1 ∨ i = 2 := by
  rw [getLsbD_of_lt (m := permFlags) (P := fun i => i = 1 ∨ i = 2) (by decide)
    (fun i hi => by omega), decide_eq_true_iff]

theorem foldl_and_bit (entries : List U64) (a : U64) (i : Nat) :
    (entries.foldl (· &&& ·) a).getLsbD i = true ↔
      a.getLsbD i = true ∧ ∀ e ∈ entries, e.getLsbD i = true := by
  induction entries generalizing a with
  | nil => simp
  | cons e entries ih =>
    rw [List.foldl_cons, ih, BitVec.getLsbD_and, Bool.and_eq_true, and_assoc, List.forall_mem_cons]

theorem effective_bit (entries : List U64) (i : Nat) :
    (effective entries).getLsbD i = true ↔
      (i = 1 ∨ i = 2) ∧ ∀ e ∈ entries, e.getLsbD i = true := by
  rw [effective, foldl_and_bit, permFlags_bit]

theorem effective_eq_iff {entries : List U64} {flags : U64} (h : FlagsIn permFlags flags) :
    effective entries = flags ↔ ∀ i, i = 1 ∨ i = 2 →
      ((∀ e ∈ entries, e.getLsbD i = true) ↔ flags.getLsbD i = true) := by
  refine ⟨fun heq i hi => ?_, fun hbits => ?_⟩
  · rw [← heq, effective_bit]
    exact ⟨fun hall => ⟨hi, hall⟩, fun hall => hall.2⟩
  · apply BitVec.eq_of_getLsbD_eq
    intro i _
    rw [Bool.eq_iff_iff, effective_bit]
    by_cases hi : i = 1 ∨ i = 2
    · rw [← hbits i hi]
      exact ⟨fun hall => hall.2, fun hall => ⟨hi, hall⟩⟩
    · refine ⟨fun hall => absurd hall.1 hi, fun hf => ?_⟩
      exact absurd ((permFlags_bit i).mp (h.bit hf)) hi

theorem entry_perm_bit {page flags : U64} (hp : IsPhysPage page) {i : Nat} (hi : i = 1 ∨ i = 2) :
    (entry page flags).getLsbD i = true ↔ flags.getLsbD i = true := by
  rw [entry_bit, Bool.or_eq_true, Bool.or_eq_true, decide_eq_true_iff]
  refine ⟨fun h => ?_, fun h => Or.inl (Or.inr h)⟩
  obtain (hpage | hflag) | hzero := h
  · have := hp.bit hpage
    omega
  · exact hflag
  · omega

theorem permsKept_iff {calls : List MapCall} {c : MapCall} : PermsKept calls c ↔
    ∀ i, i = 1 ∨ i = 2 →
      (c.flags.getLsbD i = true → FirstsHave calls c (1#64 <<< i)) ∧
      (c.phys.getLsbD i = true → FirstsHave calls c (1#64 <<< i) → c.flags.getLsbD i = true) := by
  refine ⟨fun h i hi => ?_, fun h flag hflag => ?_⟩
  · have hflag := h (1#64 <<< i) (by obtain rfl | rfl := hi <;> decide)
    rwa [and_flag_ne_zero _ (by omega), and_flag_ne_zero _ (by omega)] at hflag
  · obtain rfl | rfl := hflag
    · have hbit := h 1 (Or.inl rfl)
      rwa [← and_flag_ne_zero _ (by omega), ← and_flag_ne_zero _ (by omega)] at hbit
    · have hbit := h 2 (Or.inr rfl)
      rwa [← and_flag_ne_zero _ (by omega), ← and_flag_ne_zero _ (by omega)] at hbit

section
variable {calls : List MapCall} {c : MapCall}

/-- The entry of a region has the flags of the first call in it. -/
theorem firstsHave_iff {f₁ f₂ f₃ : U64} {i : Nat} (hi : i < 64)
    (hf₁ : (Layout.empty.maps calls).dir (c.region 1) = some f₁)
    (hf₂ : (Layout.empty.maps calls).dir (c.region 2) = some f₂)
    (hf₃ : (Layout.empty.maps calls).dir (c.region 3) = some f₃) :
    FirstsHave calls c (1#64 <<< i) ↔
      f₁.getLsbD i = true ∧ f₂.getLsbD i = true ∧ f₃.getLsbD i = true := by
  -- on each level: the flags there are those of the first call found
  have first : ∀ {k f}, k = 1 ∨ k = 2 ∨ k = 3 →
      (Layout.empty.maps calls).dir (c.region k) = some f →
      ((∀ d, calls.find? (fun d => d.region k = c.region k) = some d → d.flags &&& 1#64 <<< i ≠ 0) ↔
        f.getLsbD i = true) := by
    intro k f hk hf
    rw [Layout.maps_first] at hf
    simp only [MapCall.in_region hk] at hf
    obtain ⟨d, hd, rfl⟩ := Option.map_eq_some_iff.mp hf
    rw [← and_flag_ne_zero _ hi]
    refine ⟨fun h => h d hd, fun h e he => ?_⟩
    rw [Option.some.inj (he.symm.trans hd)]
    exact h
  refine ⟨fun h => ⟨?_, ?_, ?_⟩, fun h k hk => ?_⟩
  · exact (first (Or.inl rfl) hf₁).mp (h 1 (Or.inl rfl))
  · exact (first (Or.inr (Or.inl rfl)) hf₂).mp (h 2 (Or.inr (Or.inl rfl)))
  · exact (first (Or.inr (Or.inr rfl)) hf₃).mp (h 3 (Or.inr (Or.inr rfl)))
  · obtain rfl | rfl | rfl := hk
    · exact (first (Or.inl rfl) hf₁).mpr h.1
    · exact (first (Or.inr (Or.inl rfl)) hf₂).mpr h.2.1
    · exact (first (Or.inr (Or.inr rfl)) hf₃).mpr h.2.2

end

/-- A permission all levels give, the leaf by its address or by its flags. -/
theorem perm_iff {firsts phys flags : Prop} :
    (firsts ∧ (phys ∨ flags) ↔ flags) ↔ (flags → firsts) ∧ (phys → firsts → flags) := by
  tauto

theorem permFlags_low {flags : U64} (h : FlagsIn permFlags flags) : LowFlags flags :=
  h.low (by decide)

/-- After a run of calls a mapped page has the permissions of its last call
exactly when the first calls in its regions had them. -/
theorem vmmMap_perms_iff (pages : Nat → U64) (vmm : VmmT) (calls : List MapCall) (s s' : Machine)
    (rs : List JarResult) (hrun : vmmMaps pages vmm calls s = (rs, s'))
    (hempty : ∀ i, ¬ s.mem vmm.pml4 i &&& pagePresent ≠ 0)
    (hpages : Supply pages (fun page => page = vmm.pml4Phys) s'.allocs)
    (hcalls : ∀ c ∈ calls, FlagsIn permFlags c.flags) :
    ∀ v c, calls.reverse.find? (fun c => pageNumber v = pageNumber c.virt) = some c →
      (effective (walk s'.mem vmm.pml4 v) = c.flags ↔ PermsKept calls c) := by
  intro v c hlast
  obtain ⟨label, h, -, hflags⟩ := vmmMaps_holds hrun hempty hpages
    (fun c hc => permFlags_low (hcalls c hc))
  have hleaf : (Layout.empty.maps calls).leaf (path v) = some c.leaf := by
    rw [Layout.maps_last, hlast]
    rfl
  have hc : c ∈ calls := List.mem_reverse.mp (List.mem_of_find?_eq_some hlast)
  have hpath : path c.virt = path v := by
    have hpage := List.find?_some hlast
    exact ((path_eq_iff v c.virt).mpr (of_decide_eq_true hpage)).symm
  have hregion : ∀ k, c.region k = (path v).take k := fun k => by rw [MapCall.region, hpath]
  obtain ⟨p₁, f₁, p₂, f₂, p₃, f₃, hf₁, hf₂, hf₃, hp₁, hp₂, hp₃, hwalk⟩ := h.walk_mapped hflags hleaf
  rw [hwalk, effective_eq_iff (hcalls c hc), permsKept_iff]
  apply forall₂_congr
  intro i hi
  -- bit `i` of the walk: the three entries for tables, and the leaf
  have hfirsts := firstsHave_iff (c := c) (i := i) (by omega) (by rw [hregion]; exact hf₁)
    (by rw [hregion]; exact hf₂) (by rw [hregion]; exact hf₃)
  have hall : (∀ e ∈ [entry p₁ f₁, entry p₂ f₂, entry p₃ f₃, c.leaf], e.getLsbD i = true) ↔
      FirstsHave calls c (1#64 <<< i) ∧ (c.phys.getLsbD i = true ∨ c.flags.getLsbD i = true) := by
    have hleafbit : c.leaf.getLsbD i = true ↔
        c.phys.getLsbD i = true ∨ c.flags.getLsbD i = true := by
      rw [MapCall.leaf, entry_bit, decide_eq_false (by omega), Bool.or_false, Bool.or_eq_true]
    simp only [List.forall_mem_cons, entry_perm_bit hp₁ hi, entry_perm_bit hp₂ hi,
      entry_perm_bit hp₃ hi, hleafbit, hfirsts, and_assoc, List.not_mem_nil, false_implies,
      implies_true, and_true]
  rw [hall]
  exact perm_iff

/-- Two writable pages of one region, and one behind a page that is not. -/
theorem vmmMap_perms_iff_twoPages :
    effective (walk (vmmMaps (pagesFrom 2) (VmmT.ofPhys 0x1000)
      [⟨0x400000, 0x7000, pageWritable⟩, ⟨0x401000, 0x8000, pageWritable⟩]
      (Machine.cleared 0x1000)).2.mem (VmmT.ofPhys 0x1000).pml4 0x401000) = pageWritable ∧
    effective (walk (vmmMaps (pagesFrom 2) (VmmT.ofPhys 0x1000)
      [⟨0x400000, 0x7000, 0⟩, ⟨0x401000, 0x8000, pageWritable⟩]
      (Machine.cleared 0x1000)).2.mem (VmmT.ofPhys 0x1000).pml4 0x401000) ≠ pageWritable := by
  have perms (flags : U64) (hflags : FlagsIn permFlags flags)
      (hallocs : (vmmMaps (pagesFrom 2) (VmmT.ofPhys 0x1000) [⟨0x400000, 0x7000, flags⟩,
        ⟨0x401000, 0x8000, pageWritable⟩] (Machine.cleared 0x1000)).2.allocs = 3) :
      effective (walk (vmmMaps (pagesFrom 2) (VmmT.ofPhys 0x1000) [⟨0x400000, 0x7000, flags⟩,
        ⟨0x401000, 0x8000, pageWritable⟩] (Machine.cleared 0x1000)).2.mem
          (VmmT.ofPhys 0x1000).pml4 0x401000) = pageWritable ↔
      PermsKept [⟨0x400000, 0x7000, flags⟩, ⟨0x401000, 0x8000, pageWritable⟩]
        ⟨0x401000, 0x8000, pageWritable⟩ := by
    generalize hrun : vmmMaps (pagesFrom 2) (VmmT.ofPhys 0x1000) [⟨0x400000, 0x7000, flags⟩,
      ⟨0x401000, 0x8000, pageWritable⟩] (Machine.cleared 0x1000) = run at hallocs ⊢
    obtain ⟨rs, s'⟩ := run
    exact vmmMap_perms_iff (pagesFrom 2) (VmmT.ofPhys 0x1000) _ (Machine.cleared 0x1000) s' rs
      hrun (Machine.cleared_absent _ _) (supply_three hallocs)
      (List.forall_mem_cons.mpr ⟨hflags, List.forall_mem_singleton.mpr (by decide)⟩) 0x401000
      ⟨0x401000, 0x8000, pageWritable⟩ rfl
  constructor
  · refine (perms pageWritable (by decide) (by decide +kernel)).mpr fun flag hflag => ?_
    have hfirst (k d) (hd : [(⟨0x400000, 0x7000, pageWritable⟩ : MapCall),
        ⟨0x401000, 0x8000, pageWritable⟩].find? (fun d => d.region k =
          MapCall.region ⟨0x401000, 0x8000, pageWritable⟩ k) = some d) : d.flags = pageWritable := by
      have hmem := List.mem_of_find?_eq_some hd
      simp only [List.mem_cons, List.not_mem_nil, or_false] at hmem
      obtain rfl | rfl := hmem <;> rfl
    obtain rfl | rfl := hflag
    · exact ⟨fun h k _ d hd => (hfirst k d hd).symm ▸ h, fun h => absurd h (by decide)⟩
    · exact ⟨fun h => absurd h (by decide), fun h => absurd h (by decide)⟩
  · intro h
    have hkept := (perms 0 (by decide) (by decide +kernel)).mp h
    exact absurd ((hkept pageWritable (Or.inl rfl)).1 (by decide) 1 (Or.inl rfl) _ rfl) (by decide)

/-- A read-only page mapped first makes every later page of its region read-only
too: the second call asks for a writable page and gets one that is not. -/
theorem vmmMap_not_widened :
    let run := vmmMaps (pagesFrom 2) (VmmT.ofPhys 0x1000)
      [⟨0x400000, 0x7000, 0⟩, ⟨0x401000, 0x8000, pageWritable⟩] (Machine.cleared 0x1000)
    run.1 = [.ok, .ok] ∧ effective (walk run.2.mem (VmmT.ofPhys 0x1000).pml4 0x401000) = 0 := by
  decide +kernel

end JarJar.Vmm
