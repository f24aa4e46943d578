import JarJar.StringCopies
import JarJar.StringSearch
import Mathlib.Data.List.DropRight

/- Cutting the blanks off a string. From behind they are looked for down to the first byte of
   the string, which is kept whatever it is; from the front the scan stops at the NUL.

   Correspondence (C ↔ Lean):
     `strlen`                            ↔ `strlen`, `none` when the turns run out
     `while (end > str && ...) end--`    ↔ `rtrimLoop`, with `end` as `str` and an index
     `strltrim`                          ↔ `strltrim`, by `skipWhile`
     `strrtrim`, `strtrim`               ↔ `strrtrim`, `strtrim` -/
namespace JarJar.Libc

def strlen (fuel s : Nat) (m : Memory) : Option (Nat × Memory) :=
  match skipString fuel s m with
  | none => none
  | some (p, m) => some (p - s, m)

def strltrim (fuel str : Nat) (m : Memory) : Option (Nat × Memory) := skipWhile isspace fuel str m

def rtrimLoop (str : Nat) : Nat → Memory → Nat × Memory
  -- the first byte is not looked at
  | 0, m => (str, m)
  | k + 1, m =>
    let (c, m) := m.load (str + (k + 1))
    if isspace c then rtrimLoop str k m else (str + (k + 1), m)

def strrtrim (fuel str : Nat) (m : Memory) : Option (Nat × Memory) :=
  match strlen fuel str m with
  | none => none
  | some (len, m) =>
    if len = 0 then some (str, m)
    else
      let (last, m) := rtrimLoop str (len - 1) m
      some (str, m.store (last + 1) 0)

def strtrim (fuel str : Nat) (m : Memory) : Option (Nat × Memory) :=
  match strltrim fuel str m with
  | none => none
  | some (str, m) => strrtrim fuel str m

/-! ## What is kept -/

/-- The string without the blanks at its end, but not without its first byte. -/
def kept (s : List U8) : List U8 := s.take (max 1 (s.rdropWhile isspace).length)

/-- There is a byte that is no blank in the string, or nothing at all. -/
def HasText (s : List U8) : Prop := s = [] ∨ ∃ b ∈ s, isspace b = false

section
variable {s t : List U8} {b : U8}

theorem hasText_cases (s : List U8) :
    HasText s ∨ ∃ b t, s = b :: t ∧ ∀ c ∈ s, isspace c = true := by
  cases s with
  | nil => exact Or.inl (Or.inl rfl)
  | cons b t =>
    by_cases hblank : ∀ c ∈ b :: t, isspace c = true
    · exact Or.inr ⟨b, t, rfl, hblank⟩
    · simp only [not_forall, Bool.not_eq_true, exists_prop] at hblank
      exact Or.inl (Or.inr hblank)

theorem HasText.kept_eq (h : HasText s) : kept s = s.rdropWhile isspace := by
  obtain rfl | ⟨b, hb, htext⟩ := h
  · rfl
  · have hne : s.rdropWhile isspace ≠ [] := by
      intro hnil
      rw [List.rdropWhile_eq_nil_iff] at hnil
      exact absurd (hnil b hb) (by rw [htext]; decide)
    rw [kept, Nat.max_eq_right (List.length_pos_iff.mpr hne)]
    exact (List.prefix_iff_eq_take.mp (List.rdropWhile_prefix isspace s)).symm

theorem kept_of_blank (h : ∀ c ∈ b :: t, isspace c = true) : kept (b :: t) = [b] := by
  rw [kept, List.rdropWhile_eq_nil_iff.mpr h]
  rfl

theorem kept_eq_iff : kept s = s.rdropWhile isspace ↔ HasText s := by
  refine ⟨fun heq => ?_, HasText.kept_eq⟩
  obtain htext | ⟨b, t, rfl, hblank⟩ := hasText_cases s
  · exact htext
  · rw [kept_of_blank hblank, List.rdropWhile_eq_nil_iff.mpr hblank] at heq
    exact absurd heq (List.cons_ne_nil b [])

theorem kept_getLast_iff : (∀ b ∈ (kept s).getLast?, isspace b = false) ↔ HasText s := by
  constructor
  · intro hlast
    obtain htext | ⟨b, t, rfl, hblank⟩ := hasText_cases s
    · exact htext
    · rw [kept_of_blank hblank] at hlast
      exact absurd (hblank b List.mem_cons_self) (by rw [hlast b rfl]; decide)
  · intro htext b hb
    rw [htext.kept_eq] at hb
    obtain ⟨hne, rfl⟩ := List.mem_getLast?_eq_getLast hb
    exact Bool.eq_false_iff.mpr (List.rdropWhile_last_not isspace s hne)

theorem kept_of_rdropWhile (h : s.rdropWhile isspace = s) : kept s = s := by
  rw [kept, h]
  exact List.take_of_length_le (Nat.le_max_right _ _)

theorem kept_concat_text (h : isspace b = false) : kept (t ++ [b]) = t ++ [b] :=
  kept_of_rdropWhile (List.rdropWhile_concat_neg isspace t b (Bool.eq_false_iff.mp h))

theorem kept_concat_blank (hne : t ≠ []) (h : isspace b = true) : kept (t ++ [b]) = kept t := by
  rw [kept, kept, List.rdropWhile_concat_pos isspace t b h]
  apply List.take_append_of_le_length
  exact Nat.max_le.mpr ⟨List.length_pos_iff.mpr hne, (List.rdropWhile_prefix isspace t).length_le⟩

theorem kept_kept (s : List U8) : kept (kept s) = kept s := by
  obtain htext | ⟨b, t, rfl, hblank⟩ := hasText_cases s
  · rw [htext.kept_eq]
    exact kept_of_rdropWhile (List.rdropWhile_idempotent isspace s)
  · rw [kept_of_blank hblank]
    exact kept_of_blank fun c hc => hblank c (List.mem_singleton.mp hc ▸ List.mem_cons_self)

theorem kept_length_le (s : List U8) : (kept s).length ≤ s.length := by
  rw [kept, List.length_take]
  exact Nat.min_le_right _ _

end

/-! ## From behind -/

section
variable {m m' : Memory} {p fuel : Nat} {s : List U8}

theorem strlen_eq (hs : m.HasString p s) (hfuel : s.length < fuel) :
    ∃ m', strlen fuel p m = some (s.length, m') ∧ m'.bytes = m.bytes := by
  obtain ⟨m', hskip, hbytes, -⟩ := skipString_eq hs hfuel
  refine ⟨m', ?_, hbytes⟩
  rw [strlen, hskip]
  simp

/-- The loop stops at the last byte that is kept. -/
theorem rtrimLoop_eq (hne : s ≠ []) (hs : ∀ i < s.length, m.bytes (p + i) = s.getD i 0) :
    (rtrimLoop p (s.length - 1) m).1 + 1 = p + (kept s).length ∧
      (rtrimLoop p (s.length - 1) m).2.bytes = m.bytes := by
  induction s using List.reverseRecOn generalizing m with
  | nil => exact absurd rfl hne
  | append_singleton t b ih =>
    by_cases ht : t = []
    · -- one byte is kept, blank or not
      have hkept : (kept [b]).length = 1 := by
        rw [kept, List.length_take, List.length_singleton]
        omega
      rw [ht, List.nil_append, hkept]
      exact ⟨rfl, rfl⟩
    · obtain ⟨k, hk⟩ := Nat.exists_eq_succ_of_ne_zero (mt List.length_eq_zero_iff.mp ht)
      have hlast : (m.load (p + (k + 1))).1 = b := by
        have hbyte := hs t.length (by rw [List.length_append]; exact Nat.lt_succ_self _)
        rw [List.getD_append_right _ _ _ _ (Nat.le_refl _), Nat.sub_self, hk] at hbyte
        exact hbyte
      rw [List.length_append, List.length_singleton, Nat.add_sub_cancel, hk, rtrimLoop]
      simp only [hlast]
      by_cases hblank : isspace b = true
      · rw [if_pos hblank, kept_concat_blank ht hblank]
        have hrest := ih (m := (m.load (p + (k + 1))).2) ht fun i hi => by
          have hbyte := hs i (by rw [List.length_append]; omega)
          rwa [List.getD_append _ _ _ _ hi] at hbyte
        rw [hk] at hrest
        exact hrest
      · rw [if_neg hblank, kept_concat_text (Bool.eq_false_iff.mpr hblank), List.length_append,
          List.length_singleton, hk]
        exact ⟨rfl, rfl⟩

/-- What is kept ends at the NUL that is stored, or at the one that was there. -/
theorem strrtrim_eq (hs : m.HasString p s) (hfuel : s.length < fuel) :
    ∃ m', strrtrim fuel p m = some (p, m') ∧
      ∀ x, m'.bytes x = if x = p + (kept s).length then 0 else m.bytes x := by
  obtain ⟨m₁, hlen, hbytes⟩ := strlen_eq hs hfuel
  rw [strrtrim, hlen]
  by_cases hempty : s = []
  · subst hempty
    refine ⟨m₁, rfl, fun x => ?_⟩
    rw [hbytes]
    split
    · next heq =>
      rw [heq]
      exact hs
    · rfl
  · have hbyte : ∀ i < s.length, m₁.bytes (p + i) = s.getD i 0 := fun i hi => by
      rw [hbytes, hs.getD (Nat.le_of_lt hi)]
    obtain ⟨hend, hsame⟩ := rtrimLoop_eq hempty hbyte
    refine ⟨_, if_neg (mt List.length_eq_zero_iff.mp hempty), fun x => ?_⟩
    show (if x = (rtrimLoop p (s.length - 1) m₁).1 + 1 then 0
      else (rtrimLoop p (s.length - 1) m₁).2.bytes x) = _
    rw [hend, hsame, hbytes]

theorem kept_hasString (hs : m.HasString p s)
    (hm' : ∀ x, m'.bytes x = if x = p + (kept s).length then 0 else m.bytes x) :
    m'.HasString p (kept s) := by
  have hle := kept_length_le s
  apply Memory.hasString_of_getD
  · exact fun b hb => hs.nonzero b (List.mem_of_mem_take hb)
  · intro i hi
    rw [hm', if_neg (by omega), hs.getD (by omega), kept, List.getD_eq_getElem?_getD,
      List.getD_eq_getElem?_getD, List.getElem?_take_of_lt]
    rw [kept, List.length_take] at hi
    omega
  · rw [hm', if_pos rfl]

theorem strrtrim_same (hs : m.HasString p s) (hkept : kept s = s) (hfuel : s.length < fuel) :
    ∃ m', strrtrim fuel p m = some (p, m') ∧ m'.bytes = m.bytes := by
  obtain ⟨m', htrim, hbytes⟩ := strrtrim_eq hs hfuel
  refine ⟨m', htrim, funext fun x => ?_⟩
  rw [hbytes, hkept]
  split
  · next heq =>
    rw [heq, hs.getD (Nat.le_refl _)]
    simp
  · rfl

end

/-- `strrtrim` cuts off exactly the blanks at the end of a string, and leaves one that does not
end in a blank, if there is anything else in it or nothing at all; of a string of blanks it
leaves the first. A second call changes nothing. -/
theorem strrtrim_leaves_iff {m : Memory} {p fuel : Nat} {s : List U8} (hs : m.HasString p s)
    (hfuel : s.length < fuel) :
    ∃ m', strrtrim fuel p m = some (p, m') ∧
      (m'.HasString p (s.rdropWhile isspace) ↔ HasText s) ∧
      ((∃ t, m'.HasString p t ∧ ∀ b ∈ t.getLast?, isspace b = false) ↔ HasText s) ∧
      ∃ m'', strrtrim fuel p m' = some (p, m'') ∧ m''.bytes = m'.bytes := by
  obtain ⟨m', htrim, hbytes⟩ := strrtrim_eq hs hfuel
  have hkept : m'.HasString p (kept s) := kept_hasString hs hbytes
  refine ⟨m', htrim, ?_, ?_, ?_⟩
  · refine Iff.trans ?_ kept_eq_iff
    exact ⟨fun hstring => hkept.unique hstring, fun heq => heq ▸ hkept⟩
  · refine Iff.trans ?_ kept_getLast_iff
    constructor
    · rintro ⟨t, hstring, hlast⟩
      rwa [hkept.unique hstring]
    · exact fun hlast => ⟨_, hkept, hlast⟩
  · exact strrtrim_same hkept (kept_kept s) (Nat.lt_of_le_of_lt (kept_length_le s) hfuel)

/-- `"a"` with two blanks behind it. -/
theorem strrtrim_leaves_a :
    let m : Memory := ⟨fun x => ([97, 32, 32] : List U8).getD x 0, []⟩
    ∃ m', strrtrim 4 0 m = some (0, m') ∧ m'.HasString 0 [97] := by
  intro m
  have hs : m.HasString 0 [97, 32, 32] := by decide
  obtain ⟨m', htrim, hleaves, -⟩ := strrtrim_leaves_iff hs (show 3 < 4 by decide)
  exact ⟨m', htrim, hleaves.mpr (Or.inr ⟨97, by decide, by decide⟩)⟩

/-- A string of one blank stays as it is. -/
theorem strrtrim_keeps_blank :
    ¬ ∀ (m : Memory) (p fuel : Nat) (s : List U8), m.HasString p s → s.length < fuel →
      ∃ m', strrtrim fuel p m = some (p, m') ∧ m'.HasString p (s.rdropWhile isspace) := by
  intro h
  have hs : Memory.HasString ⟨fun x => ([32] : List U8).getD x 0, []⟩ 0 [32] := by decide
  obtain ⟨m', htrim, hstring⟩ := h _ 0 2 [32] hs (by decide)
  obtain rfl := congrArg Prod.snd (Option.some.inj htrim)
  revert hstring
  decide

/-! ## From the front -/

section
variable {m : Memory} {p fuel : Nat} {s : List U8}

theorem strltrim_eq (hs : m.HasString p s) (hfuel : s.length < fuel) :
    ∃ m', strltrim fuel p m = some (p + (s.takeWhile isspace).length, m') ∧ m'.bytes = m.bytes ∧
      m'.HasString (p + (s.takeWhile isspace).length) (s.dropWhile isspace) := by
  obtain ⟨m', hskip, hreads⟩ := skipWhile_eq hs hfuel
  have hdrop : s.drop (s.takeWhile isspace).length = s.dropWhile isspace := by
    calc s.drop (s.takeWhile isspace).length
        = (s.takeWhile isspace ++ s.dropWhile isspace).drop (s.takeWhile isspace).length := by
          rw [List.takeWhile_append_dropWhile]
      _ = s.dropWhile isspace := List.drop_left
  refine ⟨m', hskip, hreads.bytes, ?_⟩
  rw [← hdrop]
  exact hreads.hasString (hs.drop (List.takeWhile_prefix isspace).length_le)

end

/-- The text between the first and the last byte that is no blank. -/
def trimmed (s : List U8) : List U8 := (s.dropWhile isspace).rdropWhile isspace

theorem hasText_dropWhile (s : List U8) : HasText (s.dropWhile isspace) := by
  by_cases hnil : s.dropWhile isspace = []
  · exact Or.inl hnil
  · refine Or.inr ⟨_, List.head_mem hnil, ?_⟩
    exact Bool.eq_false_iff.mpr (by rw [List.head_dropWhile_not isspace hnil]; decide)

theorem takeWhile_trimmed (s : List U8) : (trimmed s).takeWhile isspace = [] := by
  have hpre : trimmed s <+: s.dropWhile isspace := List.rdropWhile_prefix isspace _
  cases htext : trimmed s with
  | nil => rfl
  | cons b t =>
    obtain ⟨rest, hrest⟩ := hpre
    rw [htext, List.cons_append] at hrest
    have hne : s.dropWhile isspace ≠ [] := hrest ▸ List.cons_ne_nil b _
    have hhead : isspace ((s.dropWhile isspace).head hne) = false :=
      List.head_dropWhile_not isspace hne
    simp only [← hrest, List.head_cons] at hhead
    exact List.takeWhile_cons_of_neg (Bool.eq_false_iff.mp hhead)

theorem kept_trimmed (s : List U8) : kept (trimmed s) = trimmed s :=
  kept_of_rdropWhile (List.rdropWhile_idempotent isspace _)

theorem trimmed_length_le (s : List U8) : (trimmed s).length ≤ s.length :=
  Nat.le_trans (List.rdropWhile_prefix isspace _).length_le (List.dropWhile_suffix isspace).length_le

theorem strtrim_same {m : Memory} {p fuel : Nat} {s : List U8} (hs : m.HasString p s)
    (hfront : s.takeWhile isspace = []) (hkept : kept s = s) (hfuel : s.length < fuel) :
    ∃ m', strtrim fuel p m = some (p, m') ∧ m'.bytes = m.bytes := by
  obtain ⟨m₁, hleft, hbytes, -⟩ := strltrim_eq hs hfuel
  have hs₁ : m₁.HasString p s := hs.frame fun x _ _ => congrFun hbytes x
  obtain ⟨m', hright, hsame⟩ := strrtrim_same hs₁ hkept hfuel
  refine ⟨m', ?_, hsame.trans hbytes⟩
  rw [strtrim, hleft, hfront]
  exact hright

/-- `strtrim` returns a pointer to the text between the first and the last byte of the string that
is no blank. Called with its own result it returns it again, and changes nothing. -/
theorem strtrim_trims {m : Memory} {p fuel : Nat} {s : List U8} (hs : m.HasString p s)
    (hfuel : s.length < fuel) :
    ∃ m', strtrim fuel p m = some (p + (s.takeWhile isspace).length, m') ∧
      (s.takeWhile isspace).length ≤ s.length ∧
      m'.HasString (p + (s.takeWhile isspace).length) (trimmed s) ∧
      ∃ m'', strtrim fuel (p + (s.takeWhile isspace).length) m' =
          some (p + (s.takeWhile isspace).length, m'') ∧ m''.bytes = m'.bytes := by
  obtain ⟨m₁, hleft, -, hs₁⟩ := strltrim_eq hs hfuel
  have hfuel₁ : (s.dropWhile isspace).length < fuel :=
    Nat.lt_of_le_of_lt (List.dropWhile_suffix isspace).length_le hfuel
  obtain ⟨m', hright, hbytes'⟩ := strrtrim_eq hs₁ hfuel₁
  have htext : m'.HasString (p + (s.takeWhile isspace).length) (trimmed s) := by
    have hkept := kept_hasString hs₁ hbytes'
    rwa [(hasText_dropWhile s).kept_eq] at hkept
  refine ⟨m', ?_, (List.takeWhile_prefix isspace).length_le, htext, ?_⟩
  · rw [strtrim, hleft]
    exact hright
  · exact strtrim_same htext (takeWhile_trimmed s) (kept_trimmed s)
      (Nat.lt_of_le_of_lt (trimmed_length_le s) hfuel)

/-- `"a"` between two blanks. -/
theorem strtrim_trims_a :
    let m : Memory := ⟨fun x => ([32, 97, 32] : List U8).getD x 0, []⟩
    ∃ m', strtrim 4 0 m = some (1, m') ∧ m'.HasString 1 [97] ∧
      ∃ m'', strtrim 4 1 m' = some (1, m'') ∧ m''.bytes = m'.bytes := by
  intro m
  have hs : m.HasString 0 [32, 97, 32] := by decide
  obtain ⟨m', htrim, -, htext, hagain⟩ := strtrim_trims hs (show 3 < 4 by decide)
  exact ⟨m', htrim, htext, hagain⟩

end JarJar.Libc
