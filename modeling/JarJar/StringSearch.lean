import JarJar.Memory
import JarJar.Stdlib

/- Searching in strings: for the end of what a set of bytes allows, and for another string.

   Correspondence (C ↔ Lean):
     `while (*p && ...) p++`             ↔ `skipWhile`, `none` when the turns run out
     `strchr`, `strspn`, `strcspn`       ↔ `strchr`, `strspn`, `strcspn`
     `while (*h && *n && *h == *n)`      ↔ `matchLoop`, where `n` stops
     `while (*haystack)`                 ↔ `strstrLoop`, `none` when the turns run out
     `strstr`, NULL                      ↔ `strstr`, with `none` for the pointer
   A set of bytes is not in the memory that is searched, and `strchr` gives the index in it. The
   two strings of `strstr` may stand anywhere in memory, also one in the other: nothing is
   written. -/
namespace JarJar.Libc

def skipWhile (P : U8 → Bool) : Nat → Nat → Memory → Option (Nat × Memory)
  | 0, _, _ => none
  | fuel + 1, p, m =>
    let (c, m) := m.load p
    if c ≠ 0 ∧ P c then skipWhile P fuel (p + 1) m else some (p, m)

def strchr : List U8 → U8 → Option Nat
  | [], c => if c = 0 then some 0 else none
  | b :: s, c => if b = c then some 0 else (strchr s c).map (· + 1)

def strspn (fuel s : Nat) (accept : CStr) (m : Memory) : Option (Nat × Memory) :=
  match skipWhile (fun c => (strchr accept.bytes c).isSome) fuel s m with
  | none => none
  | some (p, m) => some (p - s, m)

def strcspn (fuel s : Nat) (reject : CStr) (m : Memory) : Option (Nat × Memory) :=
  match skipWhile (fun c => !(strchr reject.bytes c).isSome) fuel s m with
  | none => none
  | some (p, m) => some (p - s, m)

def matchLoop : Nat → Nat → Nat → Memory → Option (Nat × Memory)
  | 0, _, _, _ => none
  | fuel + 1, h, n, m =>
    let (a, m) := m.load h
    if a ≠ 0 then
      let (b, m) := m.load n
      if b ≠ 0 ∧ a = b then matchLoop fuel (h + 1) (n + 1) m else some (n, m)
    -- the needle is not read behind the end of the other string
    else some (n, m)

/-- The inner loop may take `turns` turns each time. -/
def strstrLoop (turns needle : Nat) : Nat → Nat → Memory → Option (Option Nat × Memory)
  | 0, _, _ => none
  | fuel + 1, haystack, m =>
    let (c, m) := m.load haystack
    if c ≠ 0 then
      match matchLoop turns haystack needle m with
      | none => none
      | some (n, m) =>
        let (b, m) := m.load n
        if b = 0 then some (some haystack, m) else strstrLoop turns needle fuel (haystack + 1) m
    else some (none, m)

def strstr (fuel haystack needle : Nat) (m : Memory) : Option (Option Nat × Memory) :=
  let (b, m) := m.load needle
  if b = 0 then some (some haystack, m) else strstrLoop fuel needle fuel haystack m

/-! ## The end of a span -/

/-- A byte of the string at `p`, or its NUL. -/
def InString (p : Nat) (s : List U8) (x : Nat) : Prop := p ≤ x ∧ x ≤ p + s.length

section
variable {m : Memory} {p x fuel : Nat} {b c : U8} {P : U8 → Bool} {s : List U8}

theorem inString_start (p : Nat) (s : List U8) : InString p s p :=
  ⟨Nat.le_refl p, Nat.le_add_right p _⟩

theorem InString.cons (h : InString (p + 1) s x) : InString p (b :: s) x := by
  rw [InString] at h ⊢
  rw [List.length_cons]
  omega

theorem skipWhile_eq (hs : m.HasString p s) (hfuel : s.length < fuel) :
    ∃ m', skipWhile P fuel p m = some (p + (s.takeWhile P).length, m') ∧
      ReadsOnly (InString p s) m m' := by
  induction s generalizing m p fuel with
  | nil =>
    cases fuel with
    | zero => exact absurd hfuel (Nat.not_lt_zero _)
    | succ fuel => exact ⟨(m.load p).2, if_neg fun h => h.1 hs, .load (inString_start p [])⟩
  | cons b s ih =>
    cases fuel with
    | zero => exact absurd hfuel (Nat.not_lt_zero _)
    | succ fuel =>
      have hbyte : (m.load p).1 = b := hs.1
      have hread : ReadsOnly (InString p (b :: s)) m (m.load p).2 := .load (inString_start p _)
      rw [skipWhile]
      simp only [hbyte]
      by_cases hP : P b = true
      · obtain ⟨m', hskip, hreads⟩ := ih (hread.hasString hs.2.2) (Nat.lt_of_succ_lt_succ hfuel)
        have hnext : p + ((b :: s).takeWhile P).length = p + 1 + (s.takeWhile P).length := by
          rw [List.takeWhile_cons_of_pos hP, List.length_cons, Nat.add_assoc, Nat.add_comm 1]
        rw [if_pos ⟨hs.2.1, hP⟩, hnext]
        exact ⟨m', hskip, hread.trans (hreads.mono fun x hx => hx.cons)⟩
      · rw [if_neg fun h => hP h.2, List.takeWhile_cons_of_neg hP]
        exact ⟨_, rfl, hread⟩

theorem strchr_isSome (hc : c ≠ 0) : (strchr s c).isSome = decide (c ∈ s) := by
  induction s with
  | nil =>
    rw [strchr, if_neg hc]
    rfl
  | cons b s ih =>
    rw [strchr]
    by_cases heq : b = c
    · rw [if_pos heq, heq]
      simp
    · rw [if_neg heq, Option.isSome_map, ih]
      simp [Ne.symm heq]

end

/-! ## One comparison -/

section
variable {m : Memory} {p q fuel turns : Nat} {b : U8} {s hay needle : List U8}

theorem Memory.HasString.nul_iff (hs : m.HasString p s) : m.bytes p = 0 ↔ s = [] := by
  cases s with
  | nil => exact iff_of_true hs rfl
  | cons b s =>
    exact iff_of_false (fun hnul => hs.2.1 (hs.1.symm.trans hnul)) (List.cons_ne_nil b s)

/-- The loop stops at the NUL of the needle exactly if the needle is what the other string
begins with. -/
theorem matchLoop_stops (hhay : m.HasString p hay) (hneedle : m.HasString q needle)
    (hfuel : hay.length < fuel) :
    ∃ n m', matchLoop fuel p q m = some (n, m') ∧ InString q needle n ∧
      ReadsOnly (fun x => InString p hay x ∨ InString q needle x) m m' ∧
      (m.bytes n = 0 ↔ needle <+: hay) := by
  induction hay generalizing p q needle fuel m with
  | nil =>
    cases fuel with
    | zero => exact absurd hfuel (Nat.not_lt_zero _)
    | succ fuel =>
      have hstop : ¬ (m.load p).1 ≠ 0 := not_not_intro hhay
      refine ⟨q, (m.load p).2, if_neg hstop, inString_start q needle,
        .load (Or.inl (inString_start p [])), ?_⟩
      rw [List.prefix_nil]
      exact hneedle.nul_iff
  | cons a hay ih =>
    cases fuel with
    | zero => exact absurd hfuel (Nat.not_lt_zero _)
    | succ fuel =>
      have hgo : (m.load p).1 ≠ 0 := fun hnul => List.cons_ne_nil a hay (hhay.nul_iff.mp hnul)
      obtain ⟨ha, hne, hhay⟩ := hhay
      have hread : ReadsOnly (fun x => InString p (a :: hay) x ∨ InString q needle x) m
          ((m.load p).2.load q).2 := by
        apply ReadsOnly.trans (.load (Or.inl (inString_start p _)))
        exact .load (Or.inr (inString_start q _))
      rw [matchLoop]
      simp only [hgo, ne_eq, not_false_eq_true, if_true]
      cases needle with
      | nil =>
        have hnul : ((m.load p).2.load q).1 = 0 := hneedle
        refine ⟨q, _, if_neg fun h => h.1 hnul, inString_start q [], hread, ?_⟩
        exact iff_of_true hneedle List.nil_prefix
      | cons b needle =>
        obtain ⟨hb, hb0, hneedle⟩ := hneedle
        have hloads : ((m.load p).2.load q).1 = b := hb
        have ha' : (m.load p).1 = a := ha
        rw [hloads, ha', List.cons_prefix_cons]
        by_cases heq : a = b
        · rw [if_pos ⟨hb0, heq⟩, and_iff_right heq.symm]
          obtain ⟨n, m', hloop, hn, hreads, hnul⟩ := ih (hread.hasString hhay)
            (hread.hasString hneedle) (Nat.lt_of_succ_lt_succ hfuel)
          refine ⟨n, m', hloop, hn.cons, hread.trans (hreads.mono fun x hx => ?_), hnul⟩
          exact hx.imp InString.cons InString.cons
        · rw [if_neg fun h => heq h.2]
          refine ⟨q, _, rfl, inString_start q _, hread, ?_⟩
          exact iff_of_false (fun hnul => hb0 (hb.symm.trans hnul)) fun h => heq h.1.symm

/-! ## All of them -/

/-- The result is the first place at which the needle stands, or NULL when there is none. -/
def FindsFirst (p : Nat) (hay needle : List U8) (r : Option Nat) : Prop :=
  (∃ i, r = some (p + i) ∧ needle <+: hay.drop i ∧ ∀ j < i, ¬ needle <+: hay.drop j) ∨
    (r = none ∧ ∀ i, ¬ needle <+: hay.drop i)

theorem FindsFirst.cons {r : Option Nat} (h : FindsFirst (p + 1) hay needle r)
    (hb : ¬ needle <+: b :: hay) : FindsFirst p (b :: hay) needle r := by
  obtain ⟨i, hr, hstarts, hleast⟩ | ⟨hr, hnone⟩ := h
  · refine Or.inl ⟨i + 1, ?_, hstarts, fun j hj => ?_⟩
    · rw [hr, Nat.add_assoc, Nat.add_comm 1]
    · cases j with
      | zero => exact hb
      | succ j => exact hleast j (Nat.lt_of_succ_lt_succ hj)
  · refine Or.inr ⟨hr, fun i => ?_⟩
    cases i with
    | zero => exact hb
    | succ i => exact hnone i

theorem strstrLoop_finds (hhay : m.HasString p hay) (hneedle : m.HasString q needle)
    (hne : needle ≠ []) (hfuel : hay.length < fuel) (hturns : hay.length < turns) :
    ∃ r m', strstrLoop turns q fuel p m = some (r, m') ∧ FindsFirst p hay needle r ∧
      ReadsOnly (fun x => InString p hay x ∨ InString q needle x) m m' := by
  induction hay generalizing p fuel m with
  | nil =>
    cases fuel with
    | zero => exact absurd hfuel (Nat.not_lt_zero _)
    | succ fuel =>
      have hstop : ¬ (m.load p).1 ≠ 0 := not_not_intro hhay
      refine ⟨none, (m.load p).2, if_neg hstop, Or.inr ⟨rfl, fun i => ?_⟩,
        .load (Or.inl (inString_start p []))⟩
      rw [List.drop_nil, List.prefix_nil]
      exact hne
  | cons a hay ih =>
    cases fuel with
    | zero => exact absurd hfuel (Nat.not_lt_zero _)
    | succ fuel =>
      have hgo : (m.load p).1 ≠ 0 := fun hnul => List.cons_ne_nil a hay (hhay.nul_iff.mp hnul)
      have hread : ReadsOnly (fun x => InString p (a :: hay) x ∨ InString q needle x) m
          (m.load p).2 := .load (Or.inl (inString_start p _))
      obtain ⟨n, m', hloop, hn, hreads, hnul⟩ :=
        matchLoop_stops (hread.hasString hhay) (hread.hasString hneedle) hturns
      have hreads' : ReadsOnly (fun x => InString p (a :: hay) x ∨ InString q needle x) m
          (m'.load n).2 := (hread.trans hreads).trans (.load (Or.inr hn))
      have hbyte : (m'.load n).1 = 0 ↔ needle <+: a :: hay := by
        rw [← hnul, ← hreads.bytes]
        rfl
      rw [strstrLoop]
      simp only [hgo, ne_eq, not_false_eq_true, if_true, hloop]
      by_cases hstarts : needle <+: a :: hay
      · rw [if_pos (hbyte.mpr hstarts)]
        have hleast : ∀ j < 0, ¬ needle <+: (a :: hay).drop j := fun j hj =>
          absurd hj (Nat.not_lt_zero j)
        exact ⟨_, _, rfl, Or.inl ⟨0, rfl, hstarts, hleast⟩, hreads'⟩
      · rw [if_neg fun h => hstarts (hbyte.mp h)]
        obtain ⟨r, m'', hrest, hfinds, hreads''⟩ := ih (hreads'.hasString hhay.2.2)
          (hreads'.hasString hneedle) (Nat.lt_of_succ_lt_succ hfuel) (Nat.lt_of_succ_lt hturns)
        refine ⟨r, m'', hrest, hfinds.cons hstarts, hreads'.trans (hreads''.mono fun x hx => ?_)⟩
        exact hx.imp_left InString.cons

end

/-- `strstr` finds the first place at which the needle stands, or returns NULL when there is
none, and reads neither of the two strings behind its NUL. -/
theorem strstr_finds {m : Memory} {p q fuel : Nat} {hay needle : List U8}
    (hhay : m.HasString p hay) (hneedle : m.HasString q needle) (hfuel : hay.length < fuel) :
    ∃ r m', strstr fuel p q m = some (r, m') ∧ FindsFirst p hay needle r ∧
      ReadsOnly (fun x => InString p hay x ∨ InString q needle x) m m' := by
  have hread : ReadsOnly (fun x => InString p hay x ∨ InString q needle x) m (m.load q).2 :=
    .load (Or.inr (inString_start q needle))
  rw [strstr]
  by_cases hempty : needle = []
  · subst hempty
    have hnul : (m.load q).1 = 0 := hneedle
    have hleast : ∀ j < 0, ¬ [] <+: hay.drop j := fun j hj => absurd hj (Nat.not_lt_zero j)
    exact ⟨some p, (m.load q).2, if_pos hnul, Or.inl ⟨0, rfl, List.nil_prefix, hleast⟩, hread⟩
  · have hnul : ¬ (m.load q).1 = 0 := fun h => hempty (hneedle.nul_iff.mp h)
    obtain ⟨r, m', hloop, hfinds, hreads⟩ := strstrLoop_finds (hread.hasString hhay)
      (hread.hasString hneedle) hempty hfuel hfuel
    exact ⟨r, m', (if_neg hnul).trans hloop, hfinds, hread.trans hreads⟩

/-- `"aab"`, the end of `"aaab"`: the first match breaks off. -/
theorem strstr_finds_overlapping :
    let text : List U8 := [97, 97, 97, 98]
    let m : Memory := ⟨fun x => text.getD x 0, []⟩
    ∃ r m', strstr 5 0 1 m = some (r, m') ∧ FindsFirst 0 text text.tail r ∧
      ReadsOnly (fun x => InString 0 text x ∨ InString 1 text.tail x) m m' := by
  intro text m
  have hhay : m.HasString 0 text := Memory.hasString_getD (by decide)
  exact strstr_finds hhay hhay.2.2 (show 4 < 5 by decide)

end JarJar.Libc
