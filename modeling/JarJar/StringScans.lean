import JarJar.StringOrder
import JarJar.Trim

/- Looking for one byte, or at the ends of a string. The scans are loops of their own in the
   source, and agree: `strpbrk` stops where `strcspn` does, and `memchr` for a NUL where
   `strnlen` does. `startswith` and `endswith` compare with a part of the string as long as the
   other one.

   Correspondence (C ↔ Lean):
     `memchr`, `strpbrk`        ↔ `memchr`, `strpbrk`, NULL is `none`
     `startswith`, `endswith`   ↔ `startswith`, `endswith`
   A scan that may go on without bound is `none` when its turns run out. -/
namespace JarJar.Libc

def memchr (c : U32) : Nat → Nat → Memory → Option Nat × Memory
  | _, 0, m => (none, m)
  | p, n + 1, m =>
    let (b, m) := m.load p
    if b = c.setWidth 8 then (some p, m) else memchr c (p + 1) n m

def strpbrk (accept : CStr) : Nat → Nat → Memory → Option (Option Nat × Memory)
  | 0, _, _ => none
  | fuel + 1, s, m =>
    let (c, m) := m.load s
    if c ≠ 0 then
      if (strchr accept.bytes c).isSome then some (some s, m) else strpbrk accept fuel (s + 1) m
    else some (none, m)

def startswith (fuel str pre : Nat) (m : Memory) : Option Bool :=
  (strlen fuel pre m).map fun r => strncmp r.2 str pre r.1 == 0

def endswith (fuel str suffix : Nat) (m : Memory) : Option Bool :=
  (strlen fuel str m).bind fun whole =>
    (strlen fuel suffix whole.2).bind fun part =>
      if whole.1 < part.1 then some false
      else (strcmp part.2 fuel (str + whole.1 - part.1) suffix).map fun order => order == 0

/-! ## The scans -/

section
variable {m : Memory} {p q fuel n : Nat} {s t : List U8} {c : U32}

theorem strpbrk_eq (accept : CStr) (fuel p : Nat) (m : Memory) :
    strpbrk accept fuel p m =
      (skipWhile (fun c => !(strchr accept.bytes c).isSome) fuel p m).map fun r =>
        (if m.bytes r.1 = 0 then none else some r.1, r.2) := by
  induction fuel generalizing p m with
  | zero => rfl
  | succ fuel ih =>
    rw [strpbrk, skipWhile]
    have hload : (m.load p).1 = m.bytes p := rfl
    simp only [hload]
    by_cases hend : m.bytes p = 0
    · rw [if_neg (not_not_intro hend), if_neg fun h => h.1 hend, Option.map_some, if_pos hend]
    · rw [if_pos hend]
      by_cases hfound : (strchr accept.bytes (m.bytes p)).isSome = true
      · rw [if_pos hfound, if_neg fun h => by simp [hfound] at h, Option.map_some, if_neg hend]
      · rw [if_neg hfound, if_pos ⟨hend, by simpa using hfound⟩, ih]
        rfl

theorem strnlenLoop_memchr (p n : Nat) (m : Memory) :
    (strnlenLoop p n m).1 = ((memchr 0 p n m).1).getD (p + n) := by
  induction n generalizing p m with
  | zero => rfl
  | succ n ih =>
    rw [strnlenLoop, memchr]
    have hload : (m.load p).1 = m.bytes p := rfl
    simp only [hload]
    by_cases hnul : m.bytes p = 0
    · rw [if_pos hnul, if_pos (by simpa using hnul)]
      rfl
    · rw [if_neg hnul, if_neg (by simpa using hnul), ih, Nat.add_assoc, Nat.add_comm 1]

theorem skipWhile_ge {P : U8 → Bool} {m' : Memory} (h : skipWhile P fuel p m = some (q, m')) :
    p ≤ q := by
  induction fuel generalizing p m with
  | zero => cases h
  | succ fuel ih =>
    rw [skipWhile] at h
    dsimp only at h
    split at h
    · exact Nat.le_of_succ_le (ih h)
    · obtain ⟨rfl, -⟩ := Prod.mk.inj (Option.some.inj h)
      exact Nat.le_refl p

end

/-- Two scans that are written out twice agree in any memory: `strpbrk` returns the place where
`strcspn` stops, or NULL at the end, and `strnlen` the distance of the NUL that `memchr` finds,
or `maxlen`. -/
theorem scans_agree (accept : CStr) (fuel p n : Nat) (m : Memory) :
    strpbrk accept fuel p m = ((strcspn fuel p accept m).map fun r =>
        (if m.bytes (p + r.1) = 0 then none else some (p + r.1), r.2)) ∧
      (strnlen p n m).1 = ((memchr 0 p n m).1.map (· - p)).getD n := by
  refine ⟨?_, ?_⟩
  · rw [strpbrk_eq, strcspn]
    cases hskip : skipWhile (fun c => !(strchr accept.bytes c).isSome) fuel p m with
    | none => rfl
    | some r =>
      have hplace : p + (r.1 - p) = r.1 := Nat.add_sub_cancel' (skipWhile_ge hskip)
      simp only [Option.map_some, hplace]
  · show (strnlenLoop p n m).1 - p = _
    rw [strnlenLoop_memchr]
    cases (memchr 0 p n m).1 with
    | none => exact Nat.add_sub_cancel_left p n
    | some q => rfl

/-! ## The ends of a string -/

section
variable {m : Memory} {p q fuel : Nat} {s t : List U8}

theorem startswith_eq (hs : m.HasString p s) (ht : m.HasString q t) (hfuel : t.length < fuel) :
    ∃ b, startswith fuel p q m = some b ∧ (b = true ↔ t <+: s) := by
  obtain ⟨m', hlen, hbytes⟩ := strlen_eq ht hfuel
  have hread : ReadsOnly (fun x => x ∈ m'.touched) m m' := ⟨hbytes, fun x hx => Or.inr hx⟩
  refine ⟨_, by rw [startswith, hlen]; rfl, ?_⟩
  have htake : ∀ b ∈ s.take t.length, b ≠ 0 := fun b hb => hs.nonzero b (List.mem_of_mem_take hb)
  rw [beq_iff_eq, strncmp_eq (hread.hasString hs) (hread.hasString ht), List.take_length,
    byteDifference_eq_zero htake ht.nonzero, List.prefix_iff_eq_take, eq_comm]

theorem endswith_eq (hs : m.HasString p s) (ht : m.HasString q t) (hfuel : s.length < fuel)
    (hfuel' : t.length < fuel) :
    ∃ b, endswith fuel p q m = some b ∧ (b = true ↔ t <:+ s) := by
  obtain ⟨m₁, hlen, hbytes⟩ := strlen_eq hs hfuel
  have hread : ReadsOnly (fun x => x ∈ m₁.touched) m m₁ := ⟨hbytes, fun x hx => Or.inr hx⟩
  obtain ⟨m₂, hlen', hbytes'⟩ := strlen_eq (hread.hasString ht) hfuel'
  have hread' : ReadsOnly (fun x => x ∈ m₂.touched) m m₂ :=
    ⟨hbytes'.trans hbytes, fun x hx => Or.inr hx⟩
  rw [endswith, hlen, Option.bind_some, hlen', Option.bind_some]
  by_cases hlt : s.length < t.length
  · refine ⟨false, if_pos hlt, fun h => (nomatch h), fun hsuffix => ?_⟩
    exact absurd hsuffix.length_le (Nat.not_le.mpr hlt)
  · have hle : t.length ≤ s.length := Nat.le_of_not_lt hlt
    have hplace : p + s.length - t.length = p + (s.length - t.length) := by omega
    have hdrop := (hread'.hasString hs).drop (n := s.length - t.length) (Nat.sub_le _ _)
    have hlen : (s.drop (s.length - t.length)).length < fuel := by
      rw [List.length_drop]
      omega
    have horder := strcmp_eq hdrop (hread'.hasString ht) hlen
    refine ⟨_, by rw [if_neg hlt, hplace, horder]; rfl, ?_⟩
    rw [beq_iff_eq, byteDifference_eq_zero hdrop.nonzero ht.nonzero, List.suffix_iff_eq_drop,
      eq_comm]

end

/-- `startswith` and `endswith` say of any two strings in memory, wherever they stand, whether
the second is a prefix of the first, and whether it is a suffix. -/
theorem startswith_endswith_iff {m : Memory} {p q fuel : Nat} {s t : List U8}
    (hs : m.HasString p s) (ht : m.HasString q t) (hfuel : s.length < fuel)
    (hfuel' : t.length < fuel) :
    ∃ front back, startswith fuel p q m = some front ∧ endswith fuel p q m = some back ∧
      (front = true ↔ t <+: s) ∧ (back = true ↔ t <:+ s) := by
  obtain ⟨front, hfront, hpre⟩ := startswith_eq hs ht hfuel'
  obtain ⟨back, hback, hsuffix⟩ := endswith_eq hs ht hfuel hfuel'
  exact ⟨front, back, hfront, hback, hpre, hsuffix⟩

/-- `"aba"` ends in the `"ba"` that stands in it, and does not start with it. -/
theorem startswith_endswith_iff_ba :
    let m : Memory := ⟨fun x => ([97, 98, 97] : List U8).getD x 0, []⟩
    startswith 4 0 1 m = some false ∧ endswith 4 0 1 m = some true := by
  intro m
  have hs : m.HasString 0 [97, 98, 97] := by decide
  have ht : m.HasString 1 [98, 97] := by decide
  obtain ⟨front, back, hfront, hback, hpre, hsuffix⟩ :=
    startswith_endswith_iff hs ht (show 3 < 4 by decide) (show 2 < 4 by decide)
  have hnot : front = false := Bool.eq_false_iff.mpr fun h => absurd (hpre.mp h) (by decide)
  have hends : back = true := hsuffix.mpr (by decide)
  exact ⟨hnot ▸ hfront, hends ▸ hback⟩

end JarJar.Libc
