import JarJar.VmmSpaces

/- `vmm_map` when `pmm_alloc_page` has no page. Each level of tables may need one, and only
   the result of the last level is tested: a NULL from the level above is indexed. When the
   last level is the one that fails, the tables that were added above it stay, and a walk
   must not find anything in them.

   What is proved (`vmmMap_nomem_iff`): such a call returns `JAR_NOMEM`, indexes no NULL and
   leaves what every walk finds as it was, exactly when the upper levels were there or could
   be added, and no walk sees the tables that were added (`Unseen`). A walk may pass one table
   at several depths, as nothing keeps an entry from leading back up; the new entry must then
   show nothing at each of them. -/
namespace JarJar.Vmm
open RadixForest

abbrev Present (e : U64) : Prop := e &&& pagePresent ≠ 0

/-- What the processor finds for an address: the entries of the walk, if the last is present. -/
def walkResult (mem : U64 → Fin 512 → U64) (pml4 virt : U64) : Option (List U64) :=
  found Present (walk mem pml4 virt)

theorem walkResult_eq_lookup (mem : U64 → Fin 512 → U64) (pml4 virt : U64) :
    walkResult mem pml4 virt = lookup tableOf Present mem pml4 (pml4Index virt)
      [pdptIndex virt, pdIndex virt, ptIndex virt] := rfl

section Definitions
variable (pages : Nat → U64)

/-- The tables a call of `vmm_map` indexes; the last one is tested for NULL before. -/
def tablesIndexed (vmm : VmmT) (virt flags : U64) (s : Machine) : List U64 :=
  let (pdpt, s) := getOrCreateTable pages vmm.pml4 (pml4Index virt) flags s
  let (pd, s) := getOrCreateTable pages pdpt (pdptIndex virt) flags s
  let (pt, _) := getOrCreateTable pages pd (pdIndex virt) flags s
  if pt = 0 then [vmm.pml4, pdpt, pd] else [vmm.pml4, pdpt, pd, pt]

/-- `JAR_NOMEM`, no NULL is indexed, and every walk finds what it found before. -/
def CleanFailure (vmm : VmmT) (virt flags : U64) (s : Machine) (r : JarResult) (s' : Machine) :
    Prop :=
  r = .nomem ∧ 0 ∉ tablesIndexed pages vmm virt flags s ∧
    ∀ v, walkResult s'.mem vmm.pml4 v = walkResult s.mem vmm.pml4 v

/-- Call `k` of `pmm_alloc_page` returns a page, which the kernel does not see at NULL. -/
def Handed (k : Nat) : Prop := pages k ≠ 0 ∧ physToVirt (pages k) ≠ 0

/-- The entries for an address in the PML4 and in the table the kernel finds below it. -/
def entry₁ (s : Machine) (pml4 virt : U64) : U64 := s.mem pml4 (pml4Index virt)

def pdptOf (s : Machine) (pml4 virt : U64) : U64 := physToVirt (entry₁ s pml4 virt &&& pageMask)

def entry₂ (s : Machine) (pml4 virt : U64) : U64 := s.mem (pdptOf s pml4 virt) (pdptIndex virt)

/-- The two upper levels below the PML4 are there, or there are pages for them. -/
def UppersFound (s : Machine) (pml4 virt : U64) : Prop :=
  pml4 ≠ 0 ∧
    if Present (entry₁ s pml4 virt) then
      pdptOf s pml4 virt ≠ 0 ∧
        if Present (entry₂ s pml4 virt) then
          physToVirt (entry₂ s pml4 virt &&& pageMask) ≠ 0
        else Handed pages s.allocs
    else Handed pages s.allocs ∧ Handed pages (s.allocs + 1)

/-- How many of these two levels the call adds. -/
def newTables (s : Machine) (pml4 virt : U64) : Nat :=
  if Present (entry₁ s pml4 virt) then if Present (entry₂ s pml4 virt) then 0 else 1 else 2

/-- The slot the first of them is stored into. -/
def parentOf (s : Machine) (pml4 virt : U64) : U64 :=
  if Present (entry₁ s pml4 virt) then pdptOf s pml4 virt else pml4

def parentIndex (s : Machine) (pml4 virt : U64) : Fin 512 :=
  if Present (entry₁ s pml4 virt) then pdptIndex virt else pml4Index virt

/-- The new tables, and the entry for the first. -/
def newTable (s : Machine) (k : Nat) : U64 := physToVirt (pages (s.allocs + k))

def newEntry (s : Machine) (flags : U64) : U64 := entry (pages s.allocs) flags

/-- The new tables filled in, before the first is stored into its slot: cleared, the second
below the first. -/
def prepared (s : Machine) (pml4 virt flags : U64) : U64 → Fin 512 → U64 :=
  match newTables s pml4 virt with
  | 0 => s.mem
  | 1 => clear s.mem (newTable pages s 0) 0
  | _ => link (clear s.mem (newTable pages s 0) 0) (newTable pages s 0) (pdptIndex virt)
      (entry (pages (s.allocs + 1)) flags) (newTable pages s 1) 0

/-- The tables after that store. -/
def withTables (s : Machine) (pml4 virt flags : U64) : U64 → Fin 512 → U64 :=
  put (prepared pages s pml4 virt flags) (parentOf s pml4 virt) (parentIndex s pml4 virt)
    (newEntry pages s flags)

/-- A slot of a table that was there gets the entry. -/
def Linked (s : Machine) (pml4 virt : U64) : Prop :=
  newTables s pml4 virt ≠ 0 ∧
    ∀ k < newTables s pml4 virt, parentOf s pml4 virt ≠ newTable pages s k

/-- The new tables are seen in no walk. Filling them in changes none, and wherever the processor
reaches the table with the slot, as many levels down as it may be, the new entry shows
nothing. -/
structure Unseen (s : Machine) (pml4 virt flags : U64) : Prop where
  idle : ∀ v, walkResult (prepared pages s pml4 virt flags) pml4 v = walkResult s.mem pml4 v
  hidden : Linked pages s pml4 virt → ∀ q, q.length ≤ 3 →
    descend tableOf (prepared pages s pml4 virt flags) pml4 q = some (parentOf s pml4 virt) →
    Hides tableOf Present (withTables pages s pml4 virt flags) (newEntry pages s flags)
      (3 - q.length)

/-- The pages for the new tables are pages, different ones, and no walk gets to them. -/
structure Fresh (s : Machine) (pml4 virt : U64) : Prop where
  page : ∀ k < newTables s pml4 virt, IsPhysPage (pages (s.allocs + k))
  idle : ∀ k < newTables s pml4 virt, ∀ q, q.length ≤ 3 →
    descend tableOf s.mem pml4 q ≠ some (newTable pages s k)
  apart : newTables s pml4 virt = 2 → pages s.allocs ≠ pages (s.allocs + 1)

end Definitions

/-! ## The two upper levels -/

section
variable {pages : Nat → U64} {vmm : VmmT} {virt flags pdpt pd pt : U64} {s s₁ s₂ s₃ : Machine}

/-- The three ways through the upper levels. -/
inductive Uppers (pages : Nat → U64) (pml4 virt flags : U64) (s : Machine) (pdpt pd : U64)
    (s₂ : Machine) : Prop where
  | found (h₁ : Present (entry₁ s pml4 virt))
      (h₂ : Present (entry₂ s pml4 virt)) (hpdpt : pdpt = pdptOf s pml4 virt)
      (hmem : s₂.mem = s.mem) (hallocs : s₂.allocs = s.allocs)
  | second (h₁ : Present (entry₁ s pml4 virt))
      (h₂ : ¬ Present (entry₂ s pml4 virt)) (hpdpt : pdpt = pdptOf s pml4 virt)
      (hpage : pages s.allocs ≠ 0) (hpd : pd = physToVirt (pages s.allocs))
      (hmem : s₂.mem = link s.mem pdpt (pdptIndex virt) (entry (pages s.allocs) flags) pd 0)
      (hallocs : s₂.allocs = s.allocs + 1)
  | both (h₁ : ¬ Present (entry₁ s pml4 virt))
      (hpage : pages s.allocs ≠ 0) (hpdpt : pdpt = physToVirt (pages s.allocs))
      (hpage' : pages (s.allocs + 1) ≠ 0) (hpd : pd = physToVirt (pages (s.allocs + 1)))
      (hmem : s₂.mem = link (link s.mem pml4 (pml4Index virt) (entry (pages s.allocs) flags) pdpt 0)
        pdpt (pdptIndex virt) (entry (pages (s.allocs + 1)) flags) pd 0)
      (hallocs : s₂.allocs = s.allocs + 2)

theorem zero_absent : ¬ Present 0 := by decide

theorem uppers_cases (h₁ : getOrCreateTable pages vmm.pml4 (pml4Index virt) flags s = (pdpt, s₁))
    (h₂ : getOrCreateTable pages pdpt (pdptIndex virt) flags s₁ = (pd, s₂)) (hpdpt : pdpt ≠ 0)
    (hpd : pd ≠ 0) : Uppers pages vmm.pml4 virt flags s pdpt pd s₂ := by
  obtain ⟨hp₁, htable₁, rfl⟩ | ⟨-, -, hnull, -⟩ | ⟨ha₁, hpage₁, htable₁, hs₁⟩ :=
    getOrCreateTable_cases h₁
  · obtain ⟨hp₂, -, rfl⟩ | ⟨-, -, hnull, -⟩ | ⟨ha₂, hpage₂, htable₂, rfl⟩ := getOrCreateTable_cases h₂
    · rw [htable₁] at hp₂
      exact .found hp₁ hp₂ htable₁ rfl rfl
    · exact absurd hnull hpd
    · have hentry : ¬ Present (entry₂ s vmm.pml4 virt) := by
        rw [htable₁] at ha₂
        exact ha₂
      exact .second hp₁ hentry htable₁ hpage₂ htable₂ rfl rfl
  · exact absurd hnull hpdpt
  · -- the first table is new, so its slot is absent and the second one is new too
    have hnew : s₁.mem pdpt (pdptIndex virt) = 0 := by rw [hs₁]; exact link_new
    have hallocs : s₁.allocs = s.allocs + 1 := by rw [hs₁]
    obtain ⟨hp₂, -⟩ | ⟨-, -, hnull, -⟩ | ⟨-, hpage₂, htable₂, rfl⟩ := getOrCreateTable_cases h₂
    · rw [hnew] at hp₂
      exact absurd hp₂ zero_absent
    · exact absurd hnull hpd
    · rw [hallocs] at hpage₂ htable₂
      refine .both ha₁ hpage₁ htable₁ hpage₂ htable₂ ?_ (by rw [hallocs])
      dsimp only
      rw [hallocs, hs₁]

theorem table_ne_zero_iff {parent table : U64} {index : Fin 512} {s' : Machine}
    (h : getOrCreateTable pages parent index flags s = (table, s')) :
    table ≠ 0 ↔ if Present (s.mem parent index) then
      physToVirt (s.mem parent index &&& pageMask) ≠ 0 else Handed pages s.allocs := by
  obtain ⟨hp, htable, -⟩ | ⟨ha, hnone, hnull, -⟩ | ⟨ha, hpage, htable, -⟩ := getOrCreateTable_cases h
  · rw [if_pos hp, htable]
  · rw [if_neg ha, hnull]
    exact ⟨fun h => absurd rfl h, fun h => absurd hnone h.1⟩
  · rw [if_neg ha, htable]
    exact ⟨fun h => ⟨hpage, h⟩, fun h => h.2⟩

theorem uppersFound_iff (h₁ : getOrCreateTable pages vmm.pml4 (pml4Index virt) flags s = (pdpt, s₁))
    (h₂ : getOrCreateTable pages pdpt (pdptIndex virt) flags s₁ = (pd, s₂)) :
    UppersFound pages s vmm.pml4 virt ↔ vmm.pml4 ≠ 0 ∧ pdpt ≠ 0 ∧ pd ≠ 0 := by
  rw [UppersFound, table_ne_zero_iff h₁, table_ne_zero_iff h₂]
  refine and_congr_right fun _ => ?_
  obtain ⟨hp, htable, rfl⟩ | ⟨ha, hnone, -, -⟩ | ⟨ha, -, -, hs₁⟩ := getOrCreateTable_cases h₁
  · rw [entry₂, pdptOf, entry₁, if_pos hp, if_pos hp, ← htable]
    exact Iff.rfl
  · rw [entry₁, if_neg ha, if_neg ha]
    exact ⟨fun h => absurd hnone h.1.1, fun h => absurd hnone h.1.1⟩
  · have hnew : s₁.mem pdpt (pdptIndex virt) = 0 := by rw [hs₁]; exact link_new
    have hallocs : s₁.allocs = s.allocs + 1 := by rw [hs₁]
    rw [entry₁, if_neg ha, if_neg ha, hnew, if_neg zero_absent, hallocs]

/-- With the upper levels in place the page that is missing is that of the last level, which
changes no table. -/
theorem last_fails (hupper : Uppers pages vmm.pml4 virt flags s pdpt pd s₂)
    (h₃ : getOrCreateTable pages pd (pdIndex virt) flags s₂ = (pt, s₃))
    (hfail : ∃ k, s.allocs ≤ k ∧ k < s₃.allocs ∧ pages k = 0) : pt = 0 ∧ s₃.mem = s₂.mem := by
  obtain ⟨k, hk, hk', hnone⟩ := hfail
  -- the pages of the upper levels were pages
  have hpages : ∀ k, s.allocs ≤ k → k < s₂.allocs → pages k ≠ 0 := by
    intro k hk hk'
    cases hupper with
    | found _ _ _ _ hallocs => omega
    | second _ _ _ hpage _ _ hallocs =>
      obtain rfl : k = s.allocs := by omega
      exact hpage
    | both _ hpage _ hpage' _ _ hallocs =>
      obtain rfl | rfl : k = s.allocs ∨ k = s.allocs + 1 := by omega
      · exact hpage
      · exact hpage'
  obtain ⟨-, -, rfl⟩ | ⟨-, -, hnull, rfl⟩ | ⟨-, hpage, -, rfl⟩ := getOrCreateTable_cases h₃
  · exact absurd hnone (hpages k hk hk')
  · exact ⟨hnull, rfl⟩
  · have hlast : k = s₂.allocs := by
      by_contra hne
      exact hpages k hk (by dsimp only at hk'; omega) hnone
    exact absurd (hlast ▸ hnone) hpage

/-- A call in which a page is missing fails cleanly if the upper levels are in place and the
walks find what they found before. -/
theorem cleanFailure_iff {phys : U64} {s' : Machine} {r : JarResult}
    (hrun : vmmMap pages (some vmm) virt phys flags s = (r, s'))
    (hfail : ∃ k, s.allocs ≤ k ∧ k < s'.allocs ∧ pages k = 0) :
    CleanFailure pages vmm virt flags s r s' ↔ UppersFound pages s vmm.pml4 virt ∧
      ∀ v, walkResult s'.mem vmm.pml4 v = walkResult s.mem vmm.pml4 v := by
  obtain ⟨pdpt, s₁, pd, s₂, pt, s₃, h₁, h₂, h₃, ⟨hallocs, -⟩, hlast⟩ := vmmMap_cases hrun
  have hindexed : tablesIndexed pages vmm virt flags s =
      if pt = 0 then [vmm.pml4, pdpt, pd] else [vmm.pml4, pdpt, pd, pt] := by
    simp only [tablesIndexed, h₁, h₂, h₃]
  have hnull : 0 ∉ tablesIndexed pages vmm virt flags s ↔ vmm.pml4 ≠ 0 ∧ pdpt ≠ 0 ∧ pd ≠ 0 := by
    rw [hindexed]
    split
    · simp only [List.mem_cons, List.not_mem_nil, or_false, not_or]
      exact ⟨fun ⟨a, b, c⟩ => ⟨Ne.symm a, Ne.symm b, Ne.symm c⟩,
        fun ⟨a, b, c⟩ => ⟨Ne.symm a, Ne.symm b, Ne.symm c⟩⟩
    · next hpt =>
      simp only [List.mem_cons, List.not_mem_nil, or_false, not_or]
      exact ⟨fun ⟨a, b, c, _⟩ => ⟨Ne.symm a, Ne.symm b, Ne.symm c⟩,
        fun ⟨a, b, c⟩ => ⟨Ne.symm a, Ne.symm b, Ne.symm c, Ne.symm hpt⟩⟩
  rw [CleanFailure, hnull, ← uppersFound_iff h₁ h₂]
  refine ⟨fun h => h.2, fun h => ⟨?_, h⟩⟩
  obtain ⟨-, hpdpt, hpd⟩ := (uppersFound_iff h₁ h₂).mp h.1
  rw [hallocs] at hfail
  obtain ⟨hpt, -⟩ := last_fails (uppers_cases h₁ h₂ hpdpt hpd) h₃ hfail
  obtain ⟨-, hr, -⟩ | ⟨hne, -⟩ := hlast
  · exact hr
  · exact absurd hpt hne

end

/-! ## The new tables in the walks -/

theorem path_surjective (i j k l : Fin 512) : ∃ v : U64, path v = [i, j, k, l] := by
  have hi := i.isLt
  have hj := j.isLt
  have hk := k.isLt
  have hl := l.isLt
  refine ⟨BitVec.ofNat 64 (i.val * 2^39 + j.val * 2^30 + k.val * 2^21 + l.val * 2^12), ?_⟩
  simp only [path, pml4Index, pdptIndex, pdIndex, ptIndex, List.cons.injEq, Fin.ext_iff, index_val,
    BitVec.toNat_ofNat, and_true]
  omega

theorem walkResult_all {m m' : U64 → Fin 512 → U64} {pml4 : U64} :
    (∀ v, walkResult m' pml4 v = walkResult m pml4 v) ↔
      ∀ j q, q.length = 3 → lookup tableOf Present m' pml4 j q = lookup tableOf Present m pml4 j q := by
  refine ⟨fun h j q hq => ?_, fun h v => h _ _ rfl⟩
  obtain ⟨a, b, c, rfl⟩ := List.length_eq_three.mp hq
  obtain ⟨v, hv⟩ := path_surjective j a b c
  have hpath := h v
  rw [walkResult_eq_lookup, walkResult_eq_lookup] at hpath
  simp only [path, List.cons.injEq, and_true] at hv
  obtain ⟨rfl, rfl, rfl, rfl⟩ := hv
  exact hpath

section
variable {pages : Nat → U64} {pml4 virt flags pdpt pd : U64} {s s₂ : Machine}

theorem newTables_cases (s : Machine) (pml4 virt : U64) :
    (newTables s pml4 virt = 0 ∧ Present (entry₁ s pml4 virt) ∧ Present (entry₂ s pml4 virt)) ∨
    (newTables s pml4 virt = 1 ∧ Present (entry₁ s pml4 virt) ∧ ¬ Present (entry₂ s pml4 virt)) ∨
    (newTables s pml4 virt = 2 ∧ ¬ Present (entry₁ s pml4 virt)) := by
  rw [newTables]
  split
  · next h₁ =>
    split
    · next h₂ => exact .inl ⟨rfl, h₁, h₂⟩
    · next h₂ => exact .inr (.inl ⟨rfl, h₁, h₂⟩)
  · next h₁ => exact .inr (.inr ⟨rfl, h₁⟩)

theorem parent_absent (h : newTables s pml4 virt ≠ 0) :
    ¬ Present (s.mem (parentOf s pml4 virt) (parentIndex s pml4 virt)) := by
  obtain ⟨h0, -⟩ | ⟨-, h₁, h₂⟩ | ⟨-, h₁⟩ := newTables_cases s pml4 virt
  · exact absurd h0 h
  · rw [parentOf, parentIndex, if_pos h₁, if_pos h₁]
    exact h₂
  · rw [parentOf, parentIndex, if_neg h₁, if_neg h₁]
    exact h₁

theorem prepared_none (h : newTables s pml4 virt = 0) :
    prepared pages s pml4 virt flags = s.mem := by
  simp only [prepared, h]

theorem prepared_one (h : newTables s pml4 virt = 1) :
    prepared pages s pml4 virt flags = clear s.mem (newTable pages s 0) 0 := by
  simp only [prepared, h]

theorem prepared_two (h : newTables s pml4 virt = 2) : prepared pages s pml4 virt flags =
    link (clear s.mem (newTable pages s 0) 0) (newTable pages s 0) (pdptIndex virt)
      (entry (pages (s.allocs + 1)) flags) (newTable pages s 1) 0 := by
  simp only [prepared, h]

theorem prepared_other {t : U64} (h : ∀ k < newTables s pml4 virt, t ≠ newTable pages s k) :
    prepared pages s pml4 virt flags t = s.mem t := by
  obtain ⟨hn, -⟩ | ⟨hn, -⟩ | ⟨hn, -⟩ := newTables_cases s pml4 virt
  · rw [prepared_none hn]
  · rw [prepared_one hn, clear_other (h 0 (by omega))]
  · funext i
    rw [prepared_two hn, link_other (h 1 (by omega)) fun heq => h 0 (by omega) heq.1,
      clear_other (h 0 (by omega))]

/-- Where the entry is not linked, one of the new pages is the table with the slot. -/
theorem parent_new (hn : newTables s pml4 virt ≠ 0) (hno : ¬ Linked pages s pml4 virt) :
    ∃ k < newTables s pml4 virt, parentOf s pml4 virt = newTable pages s k := by
  by_contra hne
  exact hno ⟨hn, fun k hk heq => hne ⟨k, hk, heq⟩⟩

theorem Uppers.mem_eq (h : Uppers pages pml4 virt flags s pdpt pd s₂) :
    (¬ Linked pages s pml4 virt → s₂.mem = prepared pages s pml4 virt flags) ∧
    (Linked pages s pml4 virt → s₂.mem = withTables pages s pml4 virt flags) := by
  rw [withTables]
  cases h with
  | found h₁ h₂ _ hmem =>
    have hn : newTables s pml4 virt = 0 := by rw [newTables, if_pos h₁, if_pos h₂]
    rw [prepared_none hn]
    exact ⟨fun _ => hmem, fun hlinked => absurd hn hlinked.1⟩
  | second h₁ h₂ hpdpt _ hpd hmem =>
    have hn : newTables s pml4 virt = 1 := by rw [newTables, if_pos h₁, if_neg h₂]
    have hparent : parentOf s pml4 virt = pdpt := by rw [parentOf, if_pos h₁, hpdpt]
    have hindex : parentIndex s pml4 virt = pdptIndex virt := by rw [parentIndex, if_pos h₁]
    have hnew : pd = newTable pages s 0 := hpd
    rw [prepared_one hn, hparent, hindex, newEntry, hmem, link, hnew]
    refine ⟨fun hno => ?_, fun hlinked => clear_put ?_⟩
    · -- clearing the page takes the entry away again
      obtain ⟨k, hk, hsame⟩ := parent_new (by omega) hno
      obtain rfl : k = 0 := by omega
      rw [← hparent, hsame, clear_put_self]
    · rw [← hparent]
      exact hlinked.2 0 (by omega)
  | both h₁ _ hpdpt _ hpd hmem =>
    have hn : newTables s pml4 virt = 2 := by rw [newTables, if_neg h₁]
    have hparent : parentOf s pml4 virt = pml4 := by rw [parentOf, if_neg h₁]
    have hindex : parentIndex s pml4 virt = pml4Index virt := by rw [parentIndex, if_neg h₁]
    have hnew : pdpt = newTable pages s 0 := hpdpt
    have hnew' : pd = newTable pages s 1 := hpd
    rw [hnew, hnew'] at hmem
    rw [prepared_two hn, hparent, hindex, newEntry, hmem]
    refine ⟨fun hno => ?_, fun hlinked => ?_⟩
    · obtain ⟨k, hk, hsame⟩ := parent_new (by omega) hno
      rw [hparent] at hsame
      by_cases hfirst : pml4 = newTable pages s 0
      · rw [← hfirst, link_self_eq]
      · obtain rfl | rfl : k = 0 ∨ k = 1 := by omega
        · exact absurd hsame hfirst
        · rw [← hsame]
          exact link_link_self hfirst
    · have hfirst := hlinked.2 0 (by omega)
      have hsecond := hlinked.2 1 (by omega)
      rw [hparent] at hfirst hsecond
      exact link_link hfirst hsecond

theorem Uppers.frame_iff (h : Uppers pages pml4 virt flags s pdpt pd s₂) :
    (∀ v, walkResult s₂.mem pml4 v = walkResult s.mem pml4 v) ↔ Unseen pages s pml4 virt flags := by
  obtain ⟨hnone, hput⟩ := h.mem_eq
  by_cases hlinked : Linked pages s pml4 virt
  · -- the entry goes into a slot that was absent, in a table that is not cleared
    have habsent := parent_absent hlinked.1
    have hslot : prepared pages s pml4 virt flags (parentOf s pml4 virt) (parentIndex s pml4 virt) =
        s.mem (parentOf s pml4 virt) (parentIndex s pml4 virt) :=
      congrFun (prepared_other hlinked.2) _
    rw [hput hlinked, withTables, walkResult_all,
      lookup_put_iff (tableOf_absent habsent) habsent hslot, ← walkResult_all]
    exact ⟨fun ⟨hidle, hhidden⟩ => ⟨hidle, fun _ => hhidden⟩, fun h => ⟨h.idle, h.hidden hlinked⟩⟩
  · rw [hnone hlinked]
    exact ⟨fun h => ⟨h, fun h => absurd h hlinked⟩, fun h => h.idle⟩

end

theorem tableFlags_of_masks {flags : U64} (haddr : flags &&& addrMask = 0)
    (hhuge : flags &&& pageHuge = 0) : TableFlags flags := by
  intro i hi
  have hbit : (flags &&& addrMask).getLsbD i = false := by rw [haddr]; simp
  rw [BitVec.getLsbD_and, hi, addrMask_bit, Bool.true_and, decide_eq_false_iff_not] at hbit
  have hseven : i ≠ 7 := by
    rintro rfl
    exact (huge_iff flags).mpr hi hhuge
  omega

theorem tableOf_huge {page flags : U64} (h : flags &&& pageHuge ≠ 0) :
    tableOf (entry page flags) = none := by
  have hentry : entry page flags &&& pageHuge ≠ 0 := by
    rw [huge_iff, entry_bit, (huge_iff flags).mp h]
    simp
  exact if_neg fun hc => hentry hc.2

section
variable {pages : Nat → U64} {pml4 virt flags : U64} {s : Machine}

/-- Fresh pages are filled in behind the back of every walk. -/
theorem Fresh.same (hF : Fresh pages s pml4 virt) {q : List (Fin 512)} {t : U64}
    (hq : q.length ≤ 3) (hdesc : descend tableOf s.mem pml4 q = some t) :
    prepared pages s pml4 virt flags t = s.mem t :=
  prepared_other fun k hk heq => hF.idle k hk q hq (heq ▸ hdesc)

theorem Linked.new (h : Linked pages s pml4 virt) {k : Nat} (hk : k < newTables s pml4 virt)
    (i : Fin 512) : withTables pages s pml4 virt flags (newTable pages s k) i =
      prepared pages s pml4 virt flags (newTable pages s k) i :=
  put_other fun heq => h.2 k hk heq.1.symm

theorem Fresh.first_entry (hF : Fresh pages s pml4 virt) (hn : newTables s pml4 virt = 2)
    (i : Fin 512) : prepared pages s pml4 virt flags (newTable pages s 0) i =
      if i = pdptIndex virt then entry (pages (s.allocs + 1)) flags else 0 := by
  have hne : newTable pages s 0 ≠ newTable pages s 1 :=
    fun heq => hF.apart hn (physToVirt_inj heq)
  rw [prepared_two hn]
  split
  · next hi => rw [hi, link_self hne]
  · next hi => rw [link_other hne fun h => hi h.2, clear_self]

theorem zero_hides {mem : U64 → Fin 512 → U64} (n : Nat) : Hides tableOf Present mem 0 n :=
  hides_absent tableOf_zero zero_absent

/-- Where two tables are added the entry for the second shows nothing if there is a level
below it. -/
theorem Fresh.hides_second (hF : Fresh pages s pml4 virt) (hflags : TableFlags flags)
    (hlinked : Linked pages s pml4 virt) (hn : newTables s pml4 virt = 2) (n : Nat) :
    Hides tableOf Present (withTables pages s pml4 virt flags) (entry (pages (s.allocs + 1)) flags)
      n ↔ 1 ≤ n := by
  have hnext : tableOf (entry (pages (s.allocs + 1)) flags) = some (newTable pages s 1) :=
    tableOf_entry (hF.page 1 (by omega)) hflags
  cases n with
  | zero => exact iff_of_false (fun h => h (entry_present _ _)) (by decide)
  | succ n =>
    rw [hides_step hnext, bare_iff]
    refine iff_of_true (fun i => ?_) (by omega)
    rw [hlinked.new (by omega), prepared_two hn, link_new]
    exact zero_hides n

/-- With flags that leave the address alone the new entry shows nothing if it leads to the new
tables and there are as many levels below it. -/
theorem Fresh.hides_iff (hF : Fresh pages s pml4 virt) (haddr : flags &&& addrMask = 0)
    (hlinked : Linked pages s pml4 virt) (n : Nat) :
    Hides tableOf Present (withTables pages s pml4 virt flags) (newEntry pages s flags) n ↔
      flags &&& pageHuge = 0 ∧ newTables s pml4 virt ≤ n := by
  by_cases hhuge : flags &&& pageHuge = 0
  · have hflags := tableFlags_of_masks haddr hhuge
    have hpos := Nat.pos_of_ne_zero hlinked.1
    have hnext : tableOf (newEntry pages s flags) = some (newTable pages s 0) :=
      tableOf_entry (hF.page 0 hpos) hflags
    rw [and_iff_right hhuge]
    cases n with
    | zero => exact iff_of_false (fun h => h (entry_present _ _)) (by omega)
    | succ n =>
      rw [hides_step hnext, bare_iff]
      simp only [hlinked.new hpos]
      obtain ⟨hn, -⟩ | ⟨hn, -⟩ | ⟨hn, -⟩ := newTables_cases s pml4 virt
      · omega
      · -- all entries of the one new table are absent
        refine iff_of_true (fun i => ?_) (by omega)
        rw [prepared_one hn, clear_self]
        exact zero_hides n
      · -- all but the entry for the second are
        rw [hn, show 2 ≤ n + 1 ↔ 1 ≤ n by omega, ← hF.hides_second hflags hlinked hn]
        simp only [hF.first_entry hn]
        refine ⟨fun h => by simpa using h (pdptIndex virt), fun h i => ?_⟩
        split
        · exact h
        · exact zero_hides n
  · exact iff_of_false (hides_stop (tableOf_huge hhuge) (entry_present _ _)) fun h => hhuge h.1

/-- Where new tables from fresh pages show. -/
theorem Fresh.unseen_iff (hF : Fresh pages s pml4 virt) (haddr : flags &&& addrMask = 0) :
    Unseen pages s pml4 virt flags ↔
      ∀ q : List (Fin 512), q.length ≤ 3 →
        descend tableOf s.mem pml4 q = some (parentOf s pml4 virt) → newTables s pml4 virt ≠ 0 →
        flags &&& pageHuge = 0 ∧ q.length + newTables s pml4 virt ≤ 3 := by
  -- no path leads to a fresh page, so filling them in leaves all paths
  have hdesc (q : List (Fin 512)) (hq : q.length ≤ 3) :
      descend tableOf (prepared pages s pml4 virt flags) pml4 q = descend tableOf s.mem pml4 q :=
    descend_reach (n := 3) (fun _ _ hp h => hF.same hp h) hq
  refine ⟨fun h q hq hparent hn => ?_, fun h => ⟨?_, fun hlinked q hq hparent => ?_⟩⟩
  · have hlinked : Linked pages s pml4 virt :=
      ⟨hn, fun k hk heq => hF.idle k hk q hq (heq ▸ hparent)⟩
    obtain ⟨hhuge, hle⟩ := (hF.hides_iff haddr hlinked _).mp (h.hidden hlinked q hq
      ((hdesc q hq).trans hparent))
    exact ⟨hhuge, by omega⟩
  · rw [walkResult_all]
    exact fun j q hq => lookup_reach (n := 3) (fun _ _ hp h => hF.same hp h) hq
  · rw [hdesc q hq] at hparent
    obtain ⟨hhuge, hle⟩ := h q hq hparent hlinked.1
    exact (hF.hides_iff haddr hlinked _).mpr ⟨hhuge, by omega⟩

end

/-- **When a call that runs out of pages fails cleanly.** The upper levels must be there or
there must be pages for them, and the tables that are added must be seen in no walk. With fresh
pages and flags that leave the address alone this means that `PAGE_HUGE` is not among the
flags and that no walk reaches the table with the new entry too far down for the added
tables to stand below it, as it does where an entry of a table points back up. -/
theorem vmmMap_nomem_iff (pages : Nat → U64) (vmm : VmmT) (virt phys flags : U64) (s s' : Machine)
    (r : JarResult) (hrun : vmmMap pages (some vmm) virt phys flags s = (r, s'))
    (hfail : ∃ k, s.allocs ≤ k ∧ k < s'.allocs ∧ pages k = 0) :
    (CleanFailure pages vmm virt flags s r s' ↔
      UppersFound pages s vmm.pml4 virt ∧ Unseen pages s vmm.pml4 virt flags) ∧
    (Fresh pages s vmm.pml4 virt → flags &&& addrMask = 0 →
      (Unseen pages s vmm.pml4 virt flags ↔
        ∀ q : List (Fin 512), q.length ≤ 3 →
          descend tableOf s.mem vmm.pml4 q = some (parentOf s vmm.pml4 virt) →
          newTables s vmm.pml4 virt ≠ 0 →
          flags &&& pageHuge = 0 ∧ q.length + newTables s vmm.pml4 virt ≤ 3)) := by
  refine ⟨?_, fun hF haddr => hF.unseen_iff haddr⟩
  rw [cleanFailure_iff hrun hfail]
  refine and_congr_right fun hfound => ?_
  -- with the upper levels in place the memory is that after the upper levels
  obtain ⟨pdpt, s₁, pd, s₂, pt, s₃, h₁, h₂, h₃, ⟨hallocs, -⟩, hlast⟩ := vmmMap_cases hrun
  rw [hallocs] at hfail
  obtain ⟨-, hpdpt, hpd⟩ := (uppersFound_iff h₁ h₂).mp hfound
  have hcases := uppers_cases h₁ h₂ hpdpt hpd
  obtain ⟨hpt, hmem⟩ := last_fails hcases h₃ hfail
  obtain ⟨-, -, rfl⟩ | ⟨hne, -⟩ := hlast
  · rw [hmem]
    exact hcases.frame_iff
  · exact absurd hpt hne

/-- Two pages, and then none. -/
def twoPages (k : Nat) : U64 := if k < 2 then pagesFrom 2 k else 0

theorem fresh_twoPages {s : Machine} {virt : U64} (hallocs : s.allocs = 0)
    (hroot : ∀ i u, tableOf (s.mem (physToVirt 0x1000) i) = some u → u = physToVirt 0x1000) :
    Fresh twoPages s (physToVirt 0x1000) virt := by
  have hle : newTables s (physToVirt 0x1000) virt ≤ 2 := by
    obtain ⟨hn, -⟩ | ⟨hn, -⟩ | ⟨hn, -⟩ := newTables_cases s (physToVirt 0x1000) virt <;> omega
  have hpage : ∀ k < newTables s (physToVirt 0x1000) virt,
      IsPhysPage (twoPages k) ∧ twoPages k ≠ 0x1000 := by
    intro k hk
    obtain rfl | rfl : k = 0 ∨ k = 1 := by omega
    · decide
    · decide
  refine ⟨fun k hk => ?_, fun k hk q _ hdesc => ?_, fun _ => ?_⟩
  · rw [hallocs, Nat.zero_add]
    exact (hpage k hk).1
  · have hsame := descend_root hroot hdesc
    rw [newTable, hallocs, Nat.zero_add] at hsame
    exact (hpage k hk).2 (physToVirt_inj hsame)
  · rw [hallocs]
    decide

/-- A PML4 whose last entry leads back to it. -/
def looped : Machine := (Machine.cleared 0x1000).store (physToVirt 0x1000) (Fin.last 511) 0x1003

theorem looped_mem : looped.mem = put (fun _ _ => 0) (physToVirt 0x1000) 511 0x1003 := rfl

theorem looped_root (i : Fin 512) (u : U64)
    (h : tableOf (looped.mem (physToVirt 0x1000) i) = some u) : u = physToVirt 0x1000 := by
  have hself : tableOf 0x1003 = some (physToVirt 0x1000) := by decide
  rw [looped_mem] at h
  by_cases hi : i = 511
  · rw [hi, put_self, hself] at h
    exact (Option.some.inj h).symm
  · rw [put_other fun heq => hi heq.2] at h
    cases h

/-- A first call on an empty address space, with pages for all levels but the last, fails
cleanly; with `PAGE_HUGE`, or where the PML4 leads back to itself, it does not. -/
theorem vmmMap_nomem_iff_twoPages :
    let vmm := VmmT.ofPhys 0x1000
    let empty := Machine.cleared 0x1000
    let run := vmmMap twoPages (some vmm) 0x400000 0x7000 0 empty
    let huge := vmmMap twoPages (some vmm) 0x400000 0x7000 pageHuge empty
    let loop := vmmMap twoPages (some vmm) 0x400000 0x7000 0 looped
    CleanFailure twoPages vmm 0x400000 0 empty run.1 run.2 ∧
      ¬ CleanFailure twoPages vmm 0x400000 pageHuge empty huge.1 huge.2 ∧
      ¬ CleanFailure twoPages vmm 0x400000 0 looped loop.1 loop.2 := by
  intro vmm empty run huge loop
  have hempty (i : Fin 512) (u : U64) (h : tableOf (empty.mem (physToVirt 0x1000) i) = some u) :
      u = physToVirt 0x1000 := by
    rw [show empty.mem (physToVirt 0x1000) i = 0 from rfl, tableOf_zero] at h
    cases h
  have habsent : ¬ Present (entry₁ empty vmm.pml4 0x400000) := Machine.cleared_absent _ _ _
  have hparent : parentOf empty vmm.pml4 0x400000 = vmm.pml4 := if_neg habsent
  have hnew : newTables empty vmm.pml4 0x400000 = 2 := if_neg habsent
  have hnew' : newTables looped vmm.pml4 0x400000 = 2 := by decide +kernel
  have hfound : UppersFound twoPages empty vmm.pml4 0x400000 := by
    refine ⟨by decide +kernel, ?_⟩
    rw [if_neg habsent]
    exact ⟨⟨by decide, by decide +kernel⟩, ⟨by decide, by decide +kernel⟩⟩
  obtain ⟨hclean, hseen⟩ := vmmMap_nomem_iff twoPages vmm 0x400000 0x7000 0 empty run.2 run.1 rfl
    ⟨2, by decide, by decide +kernel, by decide⟩
  obtain ⟨hcleanHuge, hseenHuge⟩ := vmmMap_nomem_iff twoPages vmm 0x400000 0x7000 pageHuge empty
    huge.2 huge.1 rfl ⟨2, by decide, by decide +kernel, by decide⟩
  obtain ⟨hcleanLoop, hseenLoop⟩ := vmmMap_nomem_iff twoPages vmm 0x400000 0x7000 0 looped loop.2
    loop.1 rfl ⟨2, by decide, by decide +kernel, by decide⟩
  refine ⟨hclean.mpr ⟨hfound, ?_⟩, fun h => ?_, fun h => ?_⟩
  · refine (hseen (fresh_twoPages rfl hempty) (by decide)).mpr fun q _ hdesc _ => ?_
    obtain ⟨rfl, -⟩ := descend_cleared hdesc
    rw [hnew]
    decide
  · have hflags := (hseenHuge (fresh_twoPages rfl hempty) (by decide)).mp (hcleanHuge.mp h).2 []
      (by decide) (by rw [hparent]; rfl) (by rw [hnew]; decide)
    exact absurd hflags.1 (by decide)
  · have hlevel := (hseenLoop (fresh_twoPages rfl looped_root) (by decide)).mp (hcleanLoop.mp h).2
      [511, 511] (by decide) (by decide +kernel) (by rw [hnew']; decide)
    rw [hnew'] at hlevel
    exact absurd hlevel.2 (by decide)

/-- Without any page the call goes on at NULL. -/
theorem vmmMap_indexes_null :
    let pages : Nat → U64 := fun _ => 0
    let s := Machine.cleared 0x1000
    let run := vmmMap pages (some (VmmT.ofPhys 0x1000)) 0x400000 0x7000 0 s
    run.2.allocs = 3 ∧ 0 ∈ tablesIndexed pages (VmmT.ofPhys 0x1000) 0x400000 0 s ∧
      ¬ CleanFailure pages (VmmT.ofPhys 0x1000) 0x400000 0 s run.1 run.2 := by
  intro pages s run
  have hnull : 0 ∈ tablesIndexed pages (VmmT.ofPhys 0x1000) 0x400000 0 s := by decide +kernel
  exact ⟨by decide +kernel, hnull, fun h => h.2.1 hnull⟩

end JarJar.Vmm
