import JarJar.PmmRuns

/- What `pmm_init` leaves behind. The bitmap has `total_pages / 8` bytes, rounded
   down, and its region is cut by that many bytes, not by whole pages; the two
   facts decide when the bitmap describes memory as it is.

   What is proved (`pmmInit_exact_iff`): the clear bits are the usable pages
   outside the bitmap exactly when the bitmap fills whole pages and the bits past
   its last byte were set in memory already. What they should be is stated over
   the map alone: `memTop`, `bitmapBytes`, `bitmapHome` and `ToBeFree`. -/
namespace JarJar.Pmm

/-! ## The memory map, in its own terms -/

/-- The end of an entry, as a 64-bit sum. -/
def MemmapEntry.top (en : MemmapEntry) : Nat := (en.base + en.length).toNat

/-- The highest end of a usable entry. -/
def memTop (map : List MemmapEntry) : Nat :=
  ((map.filter (·.usable)).map MemmapEntry.top).foldr max 0

/-- The bitmap's size: an eighth of the page count, rounded down. -/
def bitmapBytes (map : List MemmapEntry) : Nat := memTop map / 4096 / 8

/-- The first usable entry that can hold the bitmap. -/
def bitmapHome (map : List MemmapEntry) : Option MemmapEntry :=
  map.find? (fun en => en.usable && decide (bitmapBytes map ≤ en.length.toNat))

/-- Page `p` has a byte in `[start, start + size)`. -/
def Overlaps (p start size : Nat) : Prop :=
  ∃ x, p * 4096 ≤ x ∧ x < (p + 1) * 4096 ∧ start ≤ x ∧ x < start + size

/-- Page `p` lies wholly inside a usable entry. -/
def WhollyUsable (map : List MemmapEntry) (p : Nat) : Prop :=
  ∃ en ∈ map, en.usable = true ∧ en.base.toNat ≤ p * 4096 ∧
    (p + 1) * 4096 ≤ en.base.toNat + en.length.toNat

/-- Page `p` is memory to hand out when the bitmap is at `start`. -/
def ToBeFree (map : List MemmapEntry) (start : U64) (p : Nat) : Prop :=
  WhollyUsable map p ∧ ¬ Overlaps p start.toNat (bitmapBytes map)

/-- Address `x` lies in the entry. -/
def MemmapEntry.Covers (en : MemmapEntry) (x : Nat) : Prop :=
  en.base.toNat ≤ x ∧ x < en.base.toNat + en.length.toNat

/-- What the boot loader promises of a memory map: usable entries are whole pages
of physical memory, whose end is an address, apart from every other entry and
without page 0. -/
structure LimineMap (map : List MemmapEntry) : Prop where
  aligned : ∀ en ∈ map, en.usable = true → en.base.toNat % 4096 = 0 ∧ en.length.toNat % 4096 = 0
  fits : ∀ en ∈ map, en.usable = true → en.base.toNat + en.length.toNat < 2^64
  separate : map.Pairwise (fun a b => a.usable = true ∨ b.usable = true →
    ∀ x, ¬ (a.Covers x ∧ b.Covers x))
  noPageZero : ∀ en ∈ map, en.usable = true → en.length.toNat ≠ 0 → en.base.toNat ≠ 0

/-! ## Step 1 finds the top of memory -/

theorem highestAddr_fold (map : List MemmapEntry) (h : U64) :
    (map.foldl (fun highest en =>
      if en.usable then
        let top := en.base + en.length
        if highest < top then top else highest
      else highest) h).toNat = max h.toNat (memTop map) := by
  induction map generalizing h with
  | nil => simp [memTop]
  | cons en rest ih =>
    rw [List.foldl_cons, ih]
    cases hu : en.usable
    · simp [memTop, hu]
    · simp only [memTop, hu, List.filter_cons, if_true, List.map_cons, List.foldr_cons,
        MemmapEntry.top, BitVec.lt_def]
      split <;> omega

theorem highestAddr_toNat (map : List MemmapEntry) : (highestAddr map).toNat = memTop map := by
  rw [highestAddr, highestAddr_fold]
  simp

theorem top_le_memTop {map : List MemmapEntry} {en : MemmapEntry} (hen : en ∈ map)
    (hu : en.usable = true) : en.top ≤ memTop map := by
  induction map with
  | nil => exact absurd hen List.not_mem_nil
  | cons e rest ih =>
    rcases List.mem_cons.mp hen with rfl | hen
    · simp [memTop, hu]
    · have := ih hen
      cases he : e.usable
      · simpa [memTop, he] using this
      · simp only [memTop, he, List.filter_cons, if_true, List.map_cons, List.foldr_cons] at this ⊢
        omega

/-! ## Step 2 finds the bitmap's home -/

/-- An entry less the bitmap at its front. -/
def MemmapEntry.carve (size : Nat) (en : MemmapEntry) : MemmapEntry :=
  { en with base := en.base + BitVec.ofNat 64 size, length := en.length - BitVec.ofNat 64 size }

theorem placeBitmap_none {size : Nat} {map : List MemmapEntry} :
    placeBitmap size map = none ↔
      map.find? (fun en => en.usable && decide (size ≤ en.length.toNat)) = none := by
  induction map with
  | nil => simp [placeBitmap]
  | cons en rest ih =>
    by_cases h : en.usable = true ∧ size ≤ en.length.toNat
    · simp [placeBitmap, h]
    · rw [placeBitmap, if_neg h, Option.map_eq_none_iff, ih, List.find?_cons_of_neg (by simpa using h)]

theorem placeBitmap_some {size : Nat} {map map' : List MemmapEntry} {en : MemmapEntry}
    (h : placeBitmap size map = some (en, map')) :
    map.find? (fun en => en.usable && decide (size ≤ en.length.toNat)) = some en ∧
    ∃ pre post, map = pre ++ en :: post ∧ map' = pre ++ en.carve size :: post := by
  induction map generalizing map' with
  | nil => simp [placeBitmap] at h
  | cons e rest ih =>
    by_cases he : e.usable = true ∧ size ≤ e.length.toNat
    · rw [placeBitmap, if_pos he] at h
      simp only [Option.some.injEq, Prod.mk.injEq] at h
      obtain ⟨rfl, rfl⟩ := h
      exact ⟨List.find?_cons_of_pos (by simpa using he), [], rest, rfl, rfl⟩
    · rw [placeBitmap, if_neg he] at h
      obtain ⟨⟨c, r⟩, hr, hc⟩ := Option.map_eq_some_iff.mp h
      simp only [Prod.mk.injEq] at hc
      obtain ⟨rfl, rfl⟩ := hc
      obtain ⟨hfind, pre, post, rfl, rfl⟩ := ih hr
      exact ⟨by rw [List.find?_cons_of_neg (by simpa using he), hfind], e :: pre, post, rfl, rfl⟩

/-! ## Steps 3 and 4 on the bits -/

@[simp] theorem fillBitmap_pmm (n : Nat) (s : Machine) : (fillBitmap n s).pmm = s.pmm := by
  induction n with
  | zero => rfl
  | succ n ih => exact ih

theorem fillBitmap_bytes (n : Nat) (s : Machine) (k : Nat) :
    (fillBitmap n s).bytes k = if k < n then 0xFF#8 else s.bytes k := by
  induction n with
  | zero => rfl
  | succ n ih =>
    rw [fillBitmap, Machine.store_bytes]
    by_cases hk : k = n
    · subst hk; simp
    · rw [Function.update_of_ne hk, ih]
      have : k < n + 1 ↔ k < n := by omega
      simp only [this]

/-- After step 3 a bit is set, or lies past the bitmap and is as it was. -/
theorem fillBitmap_bit (n : Nat) (s : Machine) (i : Nat) :
    PackedBits.bit (fillBitmap n s).bytes i = (decide (i < 8 * n) || PackedBits.bit s.bytes i) := by
  have hi : i % 8 < 8 := Nat.mod_lt i (by decide)
  unfold PackedBits.bit
  rw [fillBitmap_bytes]
  by_cases h : i / 8 < n
  · have hlt : i < 8 * n := by omega
    rw [if_pos h, show (0xFF#8).getLsbD (i % 8) = true from
      (by decide : ∀ k < 8, (0xFF#8).getLsbD k = true) _ hi]
    simp [hlt]
  · have hlt : ¬ i < 8 * n := by omega
    simp [h, hlt]

theorem markEntry_keeps {P : Machine → Prop} (hrelease : ∀ s i, P s → P (releasePage s i))
    {base : U64} {length j : Nat} {s : Machine} (h : P s) : P (markEntry base length j s) := by
  fun_induction markEntry base length j s with
  | case1 j s _ ih => exact ih (hrelease s _ h)
  | case2 => exact h

@[simp] theorem markEntry_pmm (base : U64) (length j : Nat) (s : Machine) :
    (markEntry base length j s).pmm = s.pmm :=
  markEntry_keeps (P := fun s' => s'.pmm = s.pmm) (fun s' i h => (releasePage_pmm s' i).trans h) rfl

theorem free_markEntry (base : U64) (length j : Nat) (s : Machine) (i : Nat) :
    Free (markEntry base length j s) i ↔ Free s i ∨ (i < s.pmm.totalPages ∧
      ∃ m, j + m * 4096 < length ∧ i = (base + BitVec.ofNat 64 (j + m * 4096)).toNat / 4096) := by
  fun_induction markEntry base length j s with
  | case1 j s hj ih =>
    rw [ih, free_releasePage, releasePage_pmm]
    -- the page at offset `j` is the one for `m = 0`, the rest of the loop has the others
    constructor
    · rintro ((⟨rfl, hi⟩ | h) | ⟨hi, m, hm, h⟩)
      · exact Or.inr ⟨hi, 0, by simpa using hj, by simp⟩
      · exact Or.inl h
      · refine Or.inr ⟨hi, m + 1, by omega, ?_⟩
        rw [show j + (m + 1) * 4096 = j + 4096 + m * 4096 by omega]
        exact h
    · rintro (h | ⟨hi, m, hm, h⟩)
      · exact Or.inl (Or.inr h)
      · cases m with
        | zero =>
          simp only [Nat.zero_mul, Nat.add_zero] at h
          exact Or.inl (Or.inl ⟨h, h ▸ hi⟩)
        | succ m =>
          rw [show j + (m + 1) * 4096 = j + 4096 + m * 4096 by omega] at hm h
          exact Or.inr ⟨hi, m, hm, h⟩
  | case2 j s hj =>
    constructor
    · exact Or.inl
    · rintro (h | ⟨-, m, hm, -⟩)
      · exact h
      · omega

/-- The pages step 4 visits in an entry. -/
def MemmapEntry.Marks (en : MemmapEntry) (i : Nat) : Prop :=
  en.usable = true ∧ ∃ m, m * 4096 < en.length.toNat ∧
    i = (en.base + BitVec.ofNat 64 (m * 4096)).toNat / 4096

/-- Step 4 on one entry, usable or not. -/
def markIfUsable (s : Machine) (en : MemmapEntry) : Machine :=
  if en.usable then markEntry en.base en.length.toNat 0 s else s

theorem markIfUsable_pmm (s : Machine) (en : MemmapEntry) : (markIfUsable s en).pmm = s.pmm := by
  unfold markIfUsable
  split
  · exact markEntry_pmm _ _ _ _
  · rfl

theorem free_markIfUsable (s : Machine) (en : MemmapEntry) (i : Nat) :
    Free (markIfUsable s en) i ↔ Free s i ∨ (i < s.pmm.totalPages ∧ en.Marks i) := by
  unfold markIfUsable MemmapEntry.Marks
  cases en.usable
  · simp
  · rw [if_pos rfl, free_markEntry]
    simp only [Nat.zero_add, true_and]

theorem markFree_cons (en : MemmapEntry) (rest : List MemmapEntry) (s : Machine) :
    markFree (en :: rest) s = markFree rest (markIfUsable s en) := rfl

theorem markFree_keeps {P : Machine → Prop} (hrelease : ∀ s i, P s → P (releasePage s i))
    {map : List MemmapEntry} {s : Machine} (h : P s) : P (markFree map s) := by
  induction map generalizing s with
  | nil => exact h
  | cons en rest ih =>
    rw [markFree_cons]
    apply ih
    rw [markIfUsable]
    split
    · exact markEntry_keeps hrelease h
    · exact h

@[simp] theorem markFree_pmm (map : List MemmapEntry) (s : Machine) :
    (markFree map s).pmm = s.pmm :=
  markFree_keeps (P := fun s' => s'.pmm = s.pmm) (fun s' i h => (releasePage_pmm s' i).trans h) rfl

theorem free_markFree (map : List MemmapEntry) (s : Machine) (i : Nat) :
    Free (markFree map s) i ↔
      Free s i ∨ (i < s.pmm.totalPages ∧ ∃ en ∈ map, en.Marks i) := by
  induction map generalizing s with
  | nil => simp [markFree]
  | cons en rest ih =>
    rw [markFree_cons, ih, free_markIfUsable, markIfUsable_pmm]
    simp only [List.mem_cons, exists_eq_or_imp]
    tauto

/-! ## The whole of `pmm_init` -/

variable {map : List MemmapEntry} (hhdm : U64) (mem : U64 → Nat → U8) {en : MemmapEntry}

@[simp] theorem placed_bytes (map' : List MemmapEntry) :
    (placed map map' hhdm mem en).bytes = mem (physToVirt en.base) := rfl

@[simp] theorem placed_totalPages (map' : List MemmapEntry) :
    (placed map map' hhdm mem en).pmm.totalPages = (highestAddr map).toNat / 4096 := rfl

theorem totalPages_eq (map : List MemmapEntry) :
    (highestAddr map).toNat / 4096 = memTop map / 4096 := by
  rw [highestAddr_toNat]

theorem bitmapBytes_eq (map : List MemmapEntry) :
    (highestAddr map).toNat / 4096 / 8 = bitmapBytes map := by
  rw [highestAddr_toNat, bitmapBytes]

theorem pmmInit_unplaced (h : bitmapHome map = none) :
    pmmInit (boot map hhdm mem) =
      markFree map (fillBitmap (bitmapBytes map) (unplaced map hhdm mem)) := by
  have hp : placeBitmap (bitmapBytes map) map = none := placeBitmap_none.mpr h
  simp only [pmmInit, boot, unplaced, bitmapBytes_eq, hp]

theorem pmmInit_placed (h : bitmapHome map = some en) :
    ∃ pre post, map = pre ++ en :: post ∧ pmmInit (boot map hhdm mem) =
      markFree (pre ++ en.carve (bitmapBytes map) :: post) (fillBitmap (bitmapBytes map)
        (placed map (pre ++ en.carve (bitmapBytes map) :: post) hhdm mem en)) := by
  cases hp : placeBitmap (bitmapBytes map) map with
  | none =>
    rw [bitmapHome, placeBitmap_none.mp hp] at h
    cases h
  | some r =>
    obtain ⟨c, map'⟩ := r
    obtain ⟨hfind, pre, post, hmap, rfl⟩ := placeBitmap_some hp
    obtain rfl : c = en := Option.some.inj (hfind.symm.trans h)
    refine ⟨pre, post, hmap, ?_⟩
    simp only [pmmInit, boot, placed, bitmapBytes_eq, hp]

theorem pmmInit_pmm (h : bitmapHome map = some en) :
    (pmmInit (boot map hhdm mem)).pmm =
      ⟨(highestAddr map).toNat / 4096, pages_lt _, physToVirt en.base, en.base,
        (highestAddr map).toNat / 4096 / 8⟩ := by
  obtain ⟨pre, post, -, heq⟩ := pmmInit_placed hhdm mem h
  rw [heq, markFree_pmm, fillBitmap_pmm, placed]

/-- The clear bits after `pmm_init`: the pages step 4 marks, and those whose bit
lies past the bitmap's last byte and was clear in memory. -/
theorem free_pmmInit (h : bitmapHome map = some en) :
    ∃ pre post, map = pre ++ en :: post ∧ ∀ i, Free (pmmInit (boot map hhdm mem)) i ↔
      i < memTop map / 4096 ∧
        ((8 * bitmapBytes map ≤ i ∧ PackedBits.bit (mem (physToVirt en.base)) i = false) ∨
          ∃ e ∈ pre ++ en.carve (bitmapBytes map) :: post, e.Marks i) := by
  obtain ⟨pre, post, hmap, heq⟩ := pmmInit_placed hhdm mem h
  refine ⟨pre, post, hmap, fun i => ?_⟩
  rw [heq, free_markFree]
  simp only [Free, fillBitmap_pmm, fillBitmap_bit, Bool.or_eq_false_iff, decide_eq_false_iff_not,
    Nat.not_lt, placed_bytes, placed_totalPages, highestAddr_toNat]
  tauto

/-- Step 4 on an entry of whole pages, less `c` bytes at its front: every page
from the one `c` ends in. -/
theorem carve_marks {en : MemmapEntry} {c : Nat} (hb : en.base.toNat % 4096 = 0)
    (hl : en.length.toNat % 4096 = 0) (hfit : en.base.toNat + en.length.toNat < 2^64)
    (hc : c ≤ en.length.toNat) (i : Nat) :
    (en.carve c).Marks i ↔ en.usable = true ∧ (en.base.toNat + c) / 4096 ≤ i ∧
      (i + 1) * 4096 ≤ en.base.toNat + en.length.toNat := by
  have hbase : (en.carve c).base.toNat = en.base.toNat + c := by
    simp only [MemmapEntry.carve, BitVec.toNat_add, BitVec.toNat_ofNat]
    omega
  have hlen : (en.carve c).length.toNat = en.length.toNat - c := by
    simp only [MemmapEntry.carve, BitVec.toNat_sub, BitVec.toNat_ofNat]
    omega
  have hidx : ∀ m, m * 4096 < en.length.toNat - c →
      ((en.carve c).base + BitVec.ofNat 64 (m * 4096)).toNat = en.base.toNat + c + m * 4096 := by
    intro m hm
    rw [BitVec.toNat_add, hbase, BitVec.toNat_ofNat]
    omega
  unfold MemmapEntry.Marks
  rw [hlen]
  refine and_congr Iff.rfl ⟨?_, ?_⟩
  · rintro ⟨m, hm, rfl⟩
    rw [hidx m hm]
    omega
  · rintro ⟨hlo, hhi⟩
    refine ⟨i - (en.base.toNat + c) / 4096, by omega, ?_⟩
    rw [hidx _ (by omega)]
    omega

theorem carve_zero (en : MemmapEntry) : en.carve 0 = en := by
  cases en
  simp [MemmapEntry.carve]

theorem marks_iff {en : MemmapEntry} (hb : en.base.toNat % 4096 = 0)
    (hl : en.length.toNat % 4096 = 0) (hfit : en.base.toNat + en.length.toNat < 2^64) (i : Nat) :
    en.Marks i ↔ en.usable = true ∧ en.base.toNat ≤ i * 4096 ∧
      (i + 1) * 4096 ≤ en.base.toNat + en.length.toNat := by
  have h := carve_marks hb hl hfit (Nat.zero_le _) i
  rw [carve_zero] at h
  rw [h]
  refine and_congr Iff.rfl (and_congr ?_ Iff.rfl)
  omega

/-- A page inside a usable region meets the bitmap at that region's start only
when it begins before the bitmap ends. -/
theorem not_overlaps_iff {p start size : Nat} (h : start ≤ p * 4096) :
    ¬ Overlaps p start size ↔ start + size ≤ p * 4096 := by
  constructor
  · intro hno
    by_contra hlt
    exact hno ⟨p * 4096, Nat.le_refl _, by omega, h, by omega⟩
  · rintro hle ⟨x, h₁, -, -, h₂⟩
    omega

theorem bitmapHome_spec (h : bitmapHome map = some en) :
    en ∈ map ∧ en.usable = true ∧ bitmapBytes map ≤ en.length.toNat := by
  have hp := List.find?_some h
  simp only [Bool.and_eq_true, decide_eq_true_eq] at hp
  exact ⟨List.mem_of_find?_eq_some h, hp.1, hp.2⟩

theorem LimineMap.apart {pre post : List MemmapEntry} (hm : LimineMap (pre ++ en :: post))
    (hu : en.usable = true) {e : MemmapEntry} (he : e ∈ pre ∨ e ∈ post) (x : Nat) :
    ¬ (e.Covers x ∧ en.Covers x) := by
  have hsep := hm.separate
  rw [List.pairwise_append, List.pairwise_cons] at hsep
  obtain ⟨-, ⟨hpost, -⟩, hpre⟩ := hsep
  rcases he with he | he
  · exact hpre e he en List.mem_cons_self (Or.inr hu) x
  · exact fun h => hpost e he (Or.inl hu) x h.symm

theorem mem_split {pre post : List MemmapEntry} {e : MemmapEntry} :
    e ∈ pre ++ en :: post ↔ e = en ∨ e ∈ pre ∨ e ∈ post := by
  simp only [List.mem_append, List.mem_cons]
  tauto

section Exact
variable {pre post : List MemmapEntry} {c : Nat}

/-- What step 4 marks, in terms of the map as it was: the pages of every other
usable entry, and the home's from the one the bitmap ends in. -/
theorem marked_iff (hm : LimineMap (pre ++ en :: post)) (hu : en.usable = true)
    (hc : c ≤ en.length.toNat) (i : Nat) :
    (∃ e ∈ pre ++ en.carve c :: post, e.Marks i) ↔
      ∃ e ∈ pre ++ en :: post, e.usable = true ∧ e.base.toNat ≤ i * 4096 ∧
        (i + 1) * 4096 ≤ e.base.toNat + e.length.toNat ∧
        (e = en → (en.base.toNat + c) / 4096 ≤ i) := by
  obtain ⟨hbn, hln⟩ := hm.aligned en (by simp) hu
  have hfn := hm.fits en (by simp) hu
  -- the home is marked from where the bitmap ends, every other entry as a whole
  constructor
  · rintro ⟨e, he, hmark⟩
    rcases mem_split.mp he with rfl | hother
    · obtain ⟨-, hlo, hhi⟩ := (carve_marks hbn hln hfn hc i).mp hmark
      exact ⟨en, by simp, hu, by omega, hhi, fun _ => hlo⟩
    · have hmem : e ∈ pre ++ en :: post := mem_split.mpr (Or.inr hother)
      have hue := hmark.1
      obtain ⟨hb, hl⟩ := hm.aligned e hmem hue
      obtain ⟨-, hlo, hhi⟩ := (marks_iff hb hl (hm.fits e hmem hue) i).mp hmark
      refine ⟨e, hmem, hue, hlo, hhi, ?_⟩
      -- no other entry equals the home, with which it shares no address
      rintro rfl
      exact absurd ⟨⟨Nat.le_refl _, by omega⟩, Nat.le_refl _, by omega⟩
        (hm.apart hu hother e.base.toNat)
  · rintro ⟨e, he, hue, hlo, hhi, hself⟩
    rcases mem_split.mp he with rfl | hother
    · exact ⟨_, by simp, (carve_marks hbn hln hfn hc i).mpr ⟨hu, hself rfl, hhi⟩⟩
    · obtain ⟨hb, hl⟩ := hm.aligned e he hue
      exact ⟨e, mem_split.mpr (Or.inr hother),
        (marks_iff hb hl (hm.fits e he hue) i).mpr ⟨hue, hlo, hhi⟩⟩

theorem marked_of_toBeFree (hm : LimineMap (pre ++ en :: post)) (hu : en.usable = true)
    (hc : bitmapBytes (pre ++ en :: post) ≤ en.length.toNat) {i : Nat}
    (h : ToBeFree (pre ++ en :: post) en.base i) :
    ∃ e ∈ pre ++ en.carve (bitmapBytes (pre ++ en :: post)) :: post, e.Marks i := by
  obtain ⟨⟨e, he, hue, hlo, hhi⟩, hno⟩ := h
  refine (marked_iff hm hu hc i).mpr ⟨e, he, hue, hlo, hhi, ?_⟩
  rintro rfl
  have := (not_overlaps_iff hlo).mp hno
  omega

/-- When the bitmap fills whole pages, only pages that are to be free are marked. -/
theorem toBeFree_of_marked (hm : LimineMap (pre ++ en :: post)) (hu : en.usable = true)
    (hc : bitmapBytes (pre ++ en :: post) ≤ en.length.toNat)
    (hwhole : bitmapBytes (pre ++ en :: post) % 4096 = 0) {i : Nat}
    (h : ∃ e ∈ pre ++ en.carve (bitmapBytes (pre ++ en :: post)) :: post, e.Marks i) :
    ToBeFree (pre ++ en :: post) en.base i := by
  obtain ⟨e, he, hue, hlo, hhi, hself⟩ := (marked_iff hm hu hc i).mp h
  refine ⟨⟨e, he, hue, hlo, hhi⟩, ?_⟩
  obtain ⟨hbn, -⟩ := hm.aligned en (by simp) hu
  rcases mem_split.mp he with rfl | hother
  · have := hself rfl
    rw [not_overlaps_iff hlo]
    omega
  · rintro ⟨x, h₁, h₂, h₃, h₄⟩
    exact hm.apart hu hother x ⟨⟨by omega, by omega⟩, by omega, by omega⟩

/-- When it does not, the page the bitmap ends in is marked all the same. -/
theorem tail_marked (hm : LimineMap (pre ++ en :: post)) (hu : en.usable = true)
    (hc : bitmapBytes (pre ++ en :: post) ≤ en.length.toNat)
    (hpart : bitmapBytes (pre ++ en :: post) % 4096 ≠ 0) :
    ∃ i, (∃ e ∈ pre ++ en.carve (bitmapBytes (pre ++ en :: post)) :: post, e.Marks i) ∧
      Overlaps i en.base.toNat (bitmapBytes (pre ++ en :: post)) := by
  obtain ⟨hbn, hln⟩ := hm.aligned en (by simp) hu
  refine ⟨(en.base.toNat + bitmapBytes (pre ++ en :: post)) / 4096,
    (marked_iff hm hu hc _).mpr ⟨en, by simp, hu, by omega, by omega, fun _ => Nat.le_refl _⟩, ?_⟩
  by_contra hno
  rw [not_overlaps_iff (by omega)] at hno
  omega

theorem marked_lt (hm : LimineMap (pre ++ en :: post)) (hu : en.usable = true)
    (hc : c ≤ en.length.toNat) {i : Nat} (h : ∃ e ∈ pre ++ en.carve c :: post, e.Marks i) :
    i < memTop (pre ++ en :: post) / 4096 := by
  obtain ⟨e, he, hue, -, hhi, -⟩ := (marked_iff hm hu hc i).mp h
  have htop := top_le_memTop he hue
  rw [MemmapEntry.top, BitVec.toNat_add, Nat.mod_eq_of_lt (hm.fits e he hue)] at htop
  omega

end Exact

/-! ## The bitmap describes memory as it is -/

/-- The clear bits are the usable pages outside the bitmap, and no allocation of
any run hands out a page of the bitmap. -/
def InitExact (s : Machine) (map : List MemmapEntry) : Prop :=
  (∀ p, Free s p ↔
    WhollyUsable map p ∧ ¬ Overlaps p s.pmm.bitmapPhys.toNat s.pmm.bitmapSize) ∧
  ∀ s' held, Run s s' held → (pmmAllocPage s').1 ≠ 0 →
    ¬ Overlaps ((pmmAllocPage s').1.toNat / 4096) s.pmm.bitmapPhys.toNat s.pmm.bitmapSize

theorem initExact_of_bits {s : Machine} (hm : LimineMap map)
    (h : ∀ p, Free s p ↔
      WhollyUsable map p ∧ ¬ Overlaps p s.pmm.bitmapPhys.toNat s.pmm.bitmapSize) :
    InitExact s map := by
  refine ⟨h, fun s' held hr hne => ?_⟩
  have h0 : ¬ Free s 0 := by
    intro hfree
    obtain ⟨⟨e, he, hue, hlo, hhi⟩, -⟩ := (h 0).mp hfree
    exact hm.noPageZero e he hue (by omega) (by omega)
  obtain ⟨-, ⟨k, hk, hres, -⟩ | ⟨-, hres, -⟩⟩ := pmmAllocPage_cases s'
  · have hk0 : Free s k := (hr.conserves h0).free_subset hk.1
    rw [hres, pageAddr_toNat (free_lt hk.1), Nat.mul_div_cancel _ (by decide)]
    exact ((h k).mp hk0).2
  · exact absurd hres hne

theorem initExact_bits_iff (h : bitmapHome map = some en) :
    (∀ p, Free (pmmInit (boot map hhdm mem)) p ↔ WhollyUsable map p ∧
      ¬ Overlaps p (pmmInit (boot map hhdm mem)).pmm.bitmapPhys.toNat
        (pmmInit (boot map hhdm mem)).pmm.bitmapSize) ↔
    ∀ p, Free (pmmInit (boot map hhdm mem)) p ↔ ToBeFree map en.base p := by
  simp only [pmmInit_pmm hhdm mem h, bitmapBytes_eq, ToBeFree]

/-- The bits are exact when the bitmap fills whole pages and memory had the bits
past its last byte set. -/
theorem initExact_iff (hm : LimineMap map) (h : bitmapHome map = some en) :
    InitExact (pmmInit (boot map hhdm mem)) map ↔
      bitmapBytes map % 4096 = 0 ∧
        ∀ p, 8 * bitmapBytes map ≤ p → p < memTop map / 4096 → ¬ ToBeFree map en.base p →
          PackedBits.bit (mem (physToVirt en.base)) p = true := by
  obtain ⟨-, hu, hc⟩ := bitmapHome_spec h
  obtain ⟨pre, post, rfl, hfree⟩ := free_pmmInit hhdm mem h
  constructor
  · intro hex
    have hbits := (initExact_bits_iff hhdm mem h).mp hex.1
    refine ⟨?_, ?_⟩
    · -- the page the bitmap ends in would be free
      by_contra hpart
      obtain ⟨i, hmark, hover⟩ := tail_marked hm hu hc hpart
      have hi := (hbits i).mp ((hfree i).mpr ⟨marked_lt hm hu hc hmark, Or.inr hmark⟩)
      exact hi.2 hover
    · -- so would be a page whose bit memory had clear
      intro p hp hlt hno
      by_contra hclear
      have hclear' : PackedBits.bit (mem (physToVirt en.base)) p = false := by simpa using hclear
      exact hno ((hbits p).mp ((hfree p).mpr ⟨hlt, Or.inl ⟨hp, hclear'⟩⟩))
  · rintro ⟨hwhole, htail⟩
    refine initExact_of_bits hm ((initExact_bits_iff hhdm mem h).mpr fun p => ?_)
    rw [hfree]
    constructor
    · rintro ⟨hlt, ⟨hp, hclear⟩ | hmark⟩
      · by_contra hno
        rw [htail p hp hlt hno] at hclear
        exact Bool.noConfusion hclear
      · exact toBeFree_of_marked hm hu hc hwhole hmark
    · intro hto
      have hmark := marked_of_toBeFree hm hu hc hto
      exact ⟨marked_lt hm hu hc hmark, Or.inr hmark⟩

theorem bitmapHome_exists
    (hfit : ∃ en ∈ map, en.usable = true ∧ bitmapBytes map ≤ en.length.toNat) :
    ∃ en, bitmapHome map = some en := by
  obtain ⟨en, hen, hu, hc⟩ := hfit
  cases h : bitmapHome map with
  | some e => exact ⟨e, rfl⟩
  | none =>
    have := List.find?_eq_none.mp h en hen
    simp [hu, hc] at this

/-- **When the allocator starts from memory as it is.** For every memory map the
boot loader hands over in which the bitmap has a home, the clear bits are the
usable pages outside the bitmap, and no run hands out a page of the bitmap,
exactly when the bitmap's size is a multiple of 4096 and, for each page past the
bitmap's last byte that is not to be free, memory held a set bit there. -/
theorem pmmInit_exact_iff (map : List MemmapEntry) (hhdm : U64) (mem : U64 → Nat → U8)
    (hm : LimineMap map)
    (hfit : ∃ en ∈ map, en.usable = true ∧ bitmapBytes map ≤ en.length.toNat) :
    InitExact (pmmInit (boot map hhdm mem)) map ↔
      bitmapBytes map % 4096 = 0 ∧
        ∀ en, bitmapHome map = some en →
          ∀ p, 8 * bitmapBytes map ≤ p → p < memTop map / 4096 → ¬ ToBeFree map en.base p →
            PackedBits.bit (mem (physToVirt en.base)) p = true := by
  obtain ⟨en, hhome⟩ := bitmapHome_exists hfit
  rw [initExact_iff hhdm mem hm hhome]
  refine and_congr Iff.rfl ⟨?_, fun h => h en hhome⟩
  intro h en' hhome'
  obtain rfl : en = en' := Option.some.inj (hhome.symm.trans hhome')
  exact h

/-- One usable region of `pages` pages from address `base` on. -/
def oneRegion (base pages : Nat) : List MemmapEntry :=
  [⟨BitVec.ofNat 64 base, BitVec.ofNat 64 (pages * 4096), true⟩]

theorem limineMap_oneRegion {base pages : Nat} (halign : base % 4096 = 0) (hpos : base ≠ 0)
    (hfit : base + pages * 4096 < 2^64) : LimineMap (oneRegion base pages) := by
  have hbase : (BitVec.ofNat 64 base).toNat = base := by
    rw [BitVec.toNat_ofNat]
    exact Nat.mod_eq_of_lt (by omega)
  have hlength : (BitVec.ofNat 64 (pages * 4096)).toNat = pages * 4096 := by
    rw [BitVec.toNat_ofNat]
    exact Nat.mod_eq_of_lt (by omega)
  refine ⟨fun en hen _ => ?_, fun en hen _ => ?_, List.pairwise_singleton _ _, fun en hen _ _ => ?_⟩
  · obtain rfl := List.mem_singleton.mp hen
    rw [hbase, hlength]
    exact ⟨halign, Nat.mul_mod_left _ _⟩
  · obtain rfl := List.mem_singleton.mp hen
    rw [hbase, hlength]
    exact hfit
  · obtain rfl := List.mem_singleton.mp hen
    rw [hbase]
    exact hpos

theorem toBeFree_oneRegion {p : Nat} :
    ToBeFree (oneRegion 0x100000 32512) 0x100000#64 p ↔ 257 ≤ p ∧ p < 32768 := by
  have hsize : bitmapBytes (oneRegion 0x100000 32512) = 4096 := by decide
  have hbase : (0x100000#64).toNat = 1048576 := rfl
  have hregion : WhollyUsable (oneRegion 0x100000 32512) p ↔
      1048576 ≤ p * 4096 ∧ (p + 1) * 4096 ≤ 1048576 + 133169152 := by
    refine ⟨fun ⟨en, hen, _, hlo, hhi⟩ => ?_, fun ⟨hlo, hhi⟩ => ?_⟩
    · obtain rfl := List.mem_singleton.mp hen
      exact ⟨hlo, hhi⟩
    · exact ⟨_, List.mem_singleton.mpr rfl, rfl, hlo, hhi⟩
  rw [ToBeFree, hregion, hsize, hbase]
  refine ⟨fun ⟨⟨hlo, hhi⟩, hoff⟩ => ⟨?_, by omega⟩, fun ⟨hlo, hhi⟩ => ⟨by omega, ?_⟩⟩
  · by_contra hlt
    exact hoff ⟨p * 4096, by omega⟩
  · rintro ⟨x, hx⟩
    omega

/-- 128 MiB, usable from 1 MiB on: the bitmap of 4096 bytes fills page 256, and the pages behind
it are free. -/
theorem pmmInit_exact_iff_oneRegion :
    let s := pmmInit (boot (oneRegion 0x100000 32512) 0 fun _ _ => 0)
    bitmapBytes (oneRegion 0x100000 32512) = 4096 ∧ InitExact s (oneRegion 0x100000 32512) ∧
      ∀ p, Free s p ↔ 257 ≤ p ∧ p < 32768 := by
  intro s
  have hexact : InitExact s (oneRegion 0x100000 32512) :=
    (pmmInit_exact_iff (oneRegion 0x100000 32512) 0 (fun _ _ => 0)
      (limineMap_oneRegion (by decide) (by decide) (by decide)) (by decide)).mpr
      ⟨by decide, fun en _ p hp hlt _ => by
        have hsize : bitmapBytes (oneRegion 0x100000 32512) = 4096 := by decide
        have htop : memTop (oneRegion 0x100000 32512) / 4096 = 32768 := by decide
        omega⟩
  have hhome : bitmapHome (oneRegion 0x100000 32512) = some ⟨0x100000#64, 0x7F00000#64, true⟩ := rfl
  refine ⟨by decide, hexact, fun p => ?_⟩
  rw [(initExact_bits_iff 0 (fun _ _ => 0) hhome).mp hexact.1 p]
  exact toBeFree_oneRegion

/-- Sixteen pages at 1 MiB: the 34 bytes of the bitmap do not fill page 256,
which is marked free. -/
theorem pmmInit_hands_out_bitmap :
    ¬ ∀ (map : List MemmapEntry) (hhdm : U64) (mem : U64 → Nat → U8), LimineMap map →
      (∃ en ∈ map, en.usable = true ∧ bitmapBytes map ≤ en.length.toNat) →
      InitExact (pmmInit (boot map hhdm mem)) map := by
  intro h
  have hex := h (oneRegion 0x100000 16) 0 (fun _ _ => 0)
    (limineMap_oneRegion (by decide) (by decide) (by decide)) (by decide)
  have hpart := ((initExact_iff _ _ (limineMap_oneRegion (by decide) (by decide) (by decide))
    (by rfl)).mp hex).1
  exact absurd hpart (by decide)

end JarJar.Pmm
