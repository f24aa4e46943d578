import JarJar.StringSearch
import JarJar.Lib.MaximalRun
import Mathlib.Data.List.GetD

/- Cutting a string into tokens. Every call of `strtok_r` looks for the next token behind the
   last one and stores a NUL behind it; what it needs to go on is the saved pointer.

   Correspondence (C ↔ Lean):
     `*saveptr`, NULL          ↔ `Call.saveptr`, `none`
     `strtok_r`, its last part ↔ `strtokR`, `none` when the turns of a scan run out; `endToken`
     calls until NULL          ↔ `strtokAll`
   The delimiters are a set of bytes that is not in the string that is cut. -/
namespace JarJar.Libc
open MaximalRun

/-- What a call returns and leaves. -/
structure Call where
  token : Option Nat
  saveptr : Option Nat
  mem : Memory

/-- The delimiter behind the token becomes a NUL, and the next call goes on behind it. -/
def endToken (token saveptr : Nat) (m : Memory) : Call :=
  let (c, m) := m.load saveptr
  if c ≠ 0 then ⟨some token, some (saveptr + 1), m.store saveptr 0⟩
  -- the token ended with the string
  else ⟨some token, none, m⟩

def strtokR (fuel : Nat) (str : Option Nat) (delim : CStr) (saveptr : Option Nat) (m : Memory) :
    Option Call :=
  let saveptr := if str.isSome then str else saveptr
  match saveptr with
  | none => some ⟨none, none, m⟩
  | some p =>
    match strspn fuel p delim m with
    | none => none
    | some (n, m) =>
      let token := p + n
      let (c, m) := m.load token
      -- nothing but delimiters was left
      if c = 0 then some ⟨none, none, m⟩
      else
        match strcspn fuel token delim m with
        | none => none
        | some (n, m) => some (endToken token (token + n) m)

/-- The tokens of the calls up to the one that returns NULL, each with the memory it is returned
in, and this last call. The first call is for `str`, the others are for NULL. -/
def strtokAll (fuel : Nat) (delim : CStr) :
    Nat → Option Nat → Option Nat → Memory → Option (List (Nat × Memory) × Call)
  | 0, _, _, _ => none
  | calls + 1, str, saveptr, m =>
    match strtokR fuel str delim saveptr m with
    | none => none
    | some call =>
      match call.token with
      | none => some ([], call)
      | some token =>
        match strtokAll fuel delim calls none call.saveptr call.mem with
        | none => none
        | some (rest, last) => some ((token, call.mem) :: rest, last)

/-- No token goes on at the index: it is behind the string, or there is a delimiter. -/
def Ends (delim : CStr) (s : List U8) (j : Nat) : Prop := s.length ≤ j ∨ s.getD j 0 ∈ delim.bytes

/-! ## One call -/

section
variable {m : Memory} {p k fuel : Nat} {s : List U8} {delim : CStr} {P : U8 → Bool}

theorem takeWhile_getD (P : U8 → Bool) (s : List U8) :
    (∀ j < (s.takeWhile P).length, P (s.getD j 0) = true) ∧
      ((s.takeWhile P).length < s.length → P (s.getD (s.takeWhile P).length 0) = false) := by
  induction s with
  | nil => exact ⟨fun j hj => absurd hj (Nat.not_lt_zero j), fun h => absurd h (Nat.lt_irrefl 0)⟩
  | cons b s ih =>
    by_cases hP : P b = true
    · rw [List.takeWhile_cons_of_pos hP]
      refine ⟨fun j hj => ?_, fun hlt => ih.2 (Nat.lt_of_succ_lt_succ hlt)⟩
      cases j with
      | zero => exact hP
      | succ j => exact ih.1 j (Nat.lt_of_succ_lt_succ hj)
    · rw [List.takeWhile_cons_of_neg hP]
      exact ⟨fun j hj => absurd hj (Nat.not_lt_zero j), fun _ => Bool.eq_false_iff.mpr hP⟩

theorem hasString_drop {j : Nat} (hs : m.HasString (p + k) (s.drop k)) (hkj : k ≤ j)
    (hj : j ≤ s.length) : m.HasString (p + j) (s.drop j) := by
  have hdrop := hs.drop (n := j - k) (by rw [List.length_drop]; omega)
  rwa [List.drop_drop, Nat.add_sub_cancel' hkj, Nat.add_assoc, Nat.add_sub_cancel' hkj] at hdrop

theorem nul_iff_drop (hs : m.HasString (p + k) (s.drop k)) : m.bytes (p + k) = 0 ↔ s.length ≤ k :=
  hs.nul_iff.trans List.drop_eq_nil_iff

theorem skipWhile_stops (hs : m.HasString (p + k) (s.drop k)) (hk : k ≤ s.length)
    (hfuel : s.length < fuel) :
    ∃ stop m', skipWhile P fuel (p + k) m = some (p + stop, m') ∧ m'.bytes = m.bytes ∧
      k ≤ stop ∧ stop ≤ s.length ∧ (∀ j, k ≤ j → j < stop → P (s.getD j 0) = true) ∧
      (stop < s.length → P (s.getD stop 0) = false) := by
  have hlength : (s.drop k).length = s.length - k := List.length_drop
  have hgetD : ∀ j, (s.drop k).getD j 0 = s.getD (k + j) 0 := fun j => by
    rw [List.getD_eq_getElem?_getD, List.getD_eq_getElem?_getD, List.getElem?_drop]
  have hfuel' : (s.drop k).length < fuel := by omega
  obtain ⟨m', hskip, hreads⟩ := skipWhile_eq (P := P) hs hfuel'
  obtain ⟨hbefore, hafter⟩ := takeWhile_getD P (s.drop k)
  have hle := (List.takeWhile_prefix P (l := s.drop k)).length_le
  simp only [hgetD, hlength] at hbefore hafter hle
  refine ⟨k + ((s.drop k).takeWhile P).length, m', ?_, hreads.bytes, Nat.le_add_right _ _, ?_,
    fun j hkj hj => ?_, fun hlt => hafter (by omega)⟩
  · rw [hskip, Nat.add_assoc]
  · omega
  · have hj' := hbefore (j - k) (by omega)
    rwa [Nat.add_sub_cancel' hkj] at hj'

theorem strchr_delim {j : Nat} (hne : ∀ b ∈ s, b ≠ 0) (hj : j < s.length) :
    (strchr delim.bytes (s.getD j 0)).isSome = true ↔ Ends delim s j := by
  have hmem : s.getD j 0 ∈ s := by
    rw [List.getD_eq_getElem _ _ hj]
    exact List.getElem_mem hj
  rw [strchr_isSome (hne _ hmem), decide_eq_true_iff, Ends, or_iff_right (Nat.not_le.mpr hj)]

theorem strspn_stops (delim : CStr) (hne : ∀ b ∈ s, b ≠ 0) (hs : m.HasString (p + k) (s.drop k))
    (hk : k ≤ s.length) (hfuel : s.length < fuel) :
    ∃ start m', strspn fuel (p + k) delim m = some (start - k, m') ∧ m'.bytes = m.bytes ∧
      k ≤ start ∧ start ≤ s.length ∧ (∀ j, k ≤ j → j < start → Ends delim s j) ∧
      (start < s.length → ¬ Ends delim s start) := by
  obtain ⟨start, m', hskip, hbytes, hkstart, hle, hbefore, hafter⟩ :=
    skipWhile_stops (P := fun c => (strchr delim.bytes c).isSome) hs hk hfuel
  refine ⟨start, m', ?_, hbytes, hkstart, hle, fun j hkj hj => ?_, fun hlt hends => ?_⟩
  · rw [strspn, hskip]
    simp only [Nat.add_sub_add_left]
  · exact (strchr_delim hne (Nat.lt_of_lt_of_le hj hle)).mp (hbefore j hkj hj)
  · rw [← strchr_delim hne hlt, hafter hlt] at hends
    exact absurd hends (by decide)

theorem strcspn_stops (delim : CStr) (hne : ∀ b ∈ s, b ≠ 0) (hs : m.HasString (p + k) (s.drop k))
    (hk : k ≤ s.length) (hfuel : s.length < fuel) :
    ∃ stop m', strcspn fuel (p + k) delim m = some (stop - k, m') ∧ m'.bytes = m.bytes ∧
      k ≤ stop ∧ stop ≤ s.length ∧ (∀ j, k ≤ j → j < stop → ¬ Ends delim s j) ∧
      Ends delim s stop := by
  obtain ⟨stop, m', hskip, hbytes, hkstop, hle, hbefore, hafter⟩ :=
    skipWhile_stops (P := fun c => !(strchr delim.bytes c).isSome) hs hk hfuel
  refine ⟨stop, m', ?_, hbytes, hkstop, hle, fun j hkj hj hends => ?_, ?_⟩
  · rw [strcspn, hskip]
    simp only [Nat.add_sub_add_left]
  · have hgoes := hbefore j hkj hj
    rw [(strchr_delim hne (Nat.lt_of_lt_of_le hj hle)).mpr hends] at hgoes
    exact absurd hgoes (by decide)
  · obtain heq | hlt := Nat.eq_or_lt_of_le hle
    · exact Or.inl (Nat.le_of_eq heq.symm)
    · exact (strchr_delim hne hlt).mp (Bool.not_eq_eq_eq_not.mp (hafter hlt))

/-- A call that finds a token: the one from `start` to `stop`, with nothing but delimiters before
it. -/
structure Cuts (delim : CStr) (s : List U8) (p k start stop : Nat) (m : Memory) (call : Call) :
    Prop where
  le : k ≤ start
  lt : start < stop
  fits : stop ≤ s.length
  skip : ∀ j, k ≤ j → j < start → Ends delim s j
  run : ∀ j, start ≤ j → j < stop → ¬ Ends delim s j
  ends : Ends delim s stop
  token : call.token = some (p + start)
  saveptr : call.saveptr = if stop < s.length then some (p + (stop + 1)) else none
  bytes : ∀ x, call.mem.bytes x = if x = p + stop then 0 else m.bytes x

/-- A NUL is stored only if there was none. -/
theorem endToken_spec {stop : Nat} (hs : m.HasString (p + stop) (s.drop stop)) (token : Nat) :
    (endToken token (p + stop) m).token = some token ∧
      (endToken token (p + stop) m).saveptr =
        (if stop < s.length then some (p + (stop + 1)) else none) ∧
      ∀ x, (endToken token (p + stop) m).mem.bytes x = if x = p + stop then 0 else m.bytes x := by
  by_cases hend : s.length ≤ stop
  · have hzero : m.bytes (p + stop) = 0 := (nul_iff_drop hs).mpr hend
    have hcall : endToken token (p + stop) m = ⟨some token, none, (m.load (p + stop)).2⟩ :=
      if_neg (not_not_intro hzero)
    rw [hcall, if_neg (Nat.not_lt.mpr hend)]
    refine ⟨rfl, rfl, fun x => ?_⟩
    split
    · next heq =>
      rw [heq]
      exact hzero
    · rfl
  · -- a delimiter stands behind the token
    have hcall : endToken token (p + stop) m =
        ⟨some token, some (p + stop + 1), (m.load (p + stop)).2.store (p + stop) 0⟩ :=
      if_pos (mt (nul_iff_drop hs).mp hend)
    rw [hcall, if_pos (Nat.lt_of_not_le hend)]
    exact ⟨rfl, rfl, fun _ => rfl⟩

theorem strtokR_cases (delim : CStr) (hne : ∀ b ∈ s, b ≠ 0) (hs : m.HasString (p + k) (s.drop k))
    (hk : k ≤ s.length) (hfuel : s.length < fuel) :
    ∃ call, strtokR fuel none delim (some (p + k)) m = some call ∧
      ((call.token = none ∧ call.saveptr = none ∧ call.mem.bytes = m.bytes ∧
          ∀ j, k ≤ j → Ends delim s j) ∨
        ∃ start stop, Cuts delim s p k start stop m call) := by
  obtain ⟨start, m₁, hspan, hbytes₁, hkstart, hstart, hskip, hword⟩ :=
    strspn_stops delim hne hs hk hfuel
  have hs₁ : m₁.HasString (p + start) (s.drop start) :=
    (hasString_drop hs hkstart hstart).frame fun x _ _ => congrFun hbytes₁ x
  have htoken : p + k + (start - k) = p + start := by omega
  rw [strtokR]
  simp only [Option.isSome_none, Bool.false_eq_true, if_false, hspan, htoken]
  by_cases hlast : s.length ≤ start
  · -- the scan over the delimiters has come to the NUL
    have hnul : (m₁.load (p + start)).1 = 0 := (nul_iff_drop hs₁).mpr hlast
    rw [if_pos hnul]
    refine ⟨_, rfl, Or.inl ⟨rfl, rfl, hbytes₁, fun j hj => ?_⟩⟩
    by_cases hbefore : j < start
    · exact hskip j hj hbefore
    · exact Or.inl (by omega)
  · have hnul : ¬ (m₁.load (p + start)).1 = 0 := mt (nul_iff_drop hs₁).mp hlast
    have hs₂ : (m₁.load (p + start)).2.HasString (p + start) (s.drop start) :=
      hs₁.frame fun _ _ _ => rfl
    obtain ⟨stop, m₂, hspan₂, hbytes₂, hle, hstop, hrun, hends⟩ :=
      strcspn_stops delim hne hs₂ hstart hfuel
    have hlt : start < stop :=
      Nat.lt_of_le_of_ne hle fun heq => hword (Nat.lt_of_not_le hlast) (heq ▸ hends)
    have hs₃ : m₂.HasString (p + stop) (s.drop stop) :=
      (hasString_drop hs₂ hle hstop).frame fun x _ _ => congrFun hbytes₂ x
    have hbehind : p + start + (stop - start) = p + stop := by omega
    obtain ⟨hreturned, hsaveptr, hcut⟩ := endToken_spec hs₃ (p + start)
    rw [if_neg hnul]
    simp only [hspan₂, hbehind]
    refine ⟨_, rfl, Or.inr ⟨start, stop, hkstart, hlt, hstop, hskip, hrun, hends, hreturned, hsaveptr,
      fun x => ?_⟩⟩
    rw [hcut, hbytes₂, ← hbytes₁]
    rfl

end

/-! ## All calls -/

/-- The calls from the index `k` on found the runs from there on, in order, and set the byte
behind each of them to NUL. -/
structure Tokenizes (delim : CStr) (s : List U8) (p k : Nat) (m : Memory) (ts : List (Nat × Memory))
    (last : Call) : Prop where
  run : ∀ t ∈ ts, ∃ i n, IsRun (Ends delim s) i n ∧ k ≤ i ∧ t.1 = p + i ∧
    ∀ x, p + i ≤ x → x ≤ p + (i + n) → t.2.bytes x = last.mem.bytes x
  all : ∀ i n, IsRun (Ends delim s) i n → k ≤ i → p + i ∈ ts.map Prod.fst
  increasing : (ts.map Prod.fst).Pairwise (· < ·)
  cut : ∀ i n, IsRun (Ends delim s) i n → k ≤ i → last.mem.bytes (p + (i + n)) = 0
  kept : ∀ x, (∀ i n, IsRun (Ends delim s) i n → k ≤ i → x ≠ p + (i + n)) →
    last.mem.bytes x = m.bytes x
  finished : last.saveptr = none

section
variable {m : Memory} {p k start stop fuel calls : Nat} {s : List U8} {delim : CStr}
  {ts : List (Nat × Memory)} {call last : Call}

theorem tokenizes_nil (hends : ∀ j, k ≤ j → Ends delim s j) (hbytes : last.mem.bytes = m.bytes)
    (hsaveptr : last.saveptr = none) : Tokenizes delim s p k m [] last where
  run _ ht := absurd ht List.not_mem_nil
  all _ _ hrun hki := absurd (hrun.lt hends) (Nat.not_lt.mpr hki)
  increasing := List.Pairwise.nil
  cut _ _ hrun hki := absurd (hrun.lt hends) (Nat.not_lt.mpr hki)
  kept x _ := congrFun hbytes x
  finished := hsaveptr

theorem Tokenizes.cons (hbehind : k = 0 ∨ Ends delim s (k - 1))
    (hcut : Cuts delim s p k start stop m call)
    (h : Tokenizes delim s p (stop + 1) call.mem ts last) :
    Tokenizes delim s p k m ((p + start, call.mem) :: ts) last := by
  have hscan : ∀ i n, IsRun (Ends delim s) i n ∧ k ≤ i ↔
      (i = start ∧ i + n = stop) ∨ (IsRun (Ends delim s) i n ∧ stop + 1 ≤ i) := fun i n =>
    isRun_scan_iff hbehind hcut.le hcut.skip hcut.lt hcut.run hcut.ends
  have hlt := hcut.lt
  have hstop : start + (stop - start) = stop := Nat.add_sub_cancel' (Nat.le_of_lt hlt)
  obtain ⟨hfirst, hkstart⟩ := (hscan start (stop - start)).mpr (Or.inl ⟨rfl, hstop⟩)
  -- the calls that follow do not come back to the token or its NUL
  have hstays : ∀ x, x ≤ p + stop → last.mem.bytes x = call.mem.bytes x := fun x hx =>
    h.kept x fun i n _ hi => by omega
  refine ⟨fun t ht => ?_, fun i n hrun hki => ?_, ?_, fun i n hrun hki => ?_, fun x hx => ?_,
    h.finished⟩
  · obtain rfl | ht := List.mem_cons.mp ht
    · refine ⟨start, stop - start, hfirst, hkstart, rfl, fun x _ hx => ?_⟩
      rw [hstop] at hx
      exact (hstays x hx).symm
    · obtain ⟨i, n, hrun, hi, ht⟩ := h.run t ht
      obtain ⟨hrun, hki⟩ := (hscan i n).mpr (Or.inr ⟨hrun, hi⟩)
      exact ⟨i, n, hrun, hki, ht⟩
  · obtain ⟨rfl, -⟩ | ⟨hrun, hi⟩ := (hscan i n).mp ⟨hrun, hki⟩
    · exact List.mem_cons_self
    · exact List.mem_cons_of_mem _ (h.all i n hrun hi)
  · refine List.pairwise_cons.mpr ⟨fun q hq => ?_, h.increasing⟩
    obtain ⟨t, ht, rfl⟩ := List.mem_map.mp hq
    obtain ⟨i, n, -, hi, heq, -⟩ := h.run t ht
    rw [heq]
    exact Nat.add_lt_add_left (by omega) p
  · obtain ⟨-, hend⟩ | ⟨hrun, hi⟩ := (hscan i n).mp ⟨hrun, hki⟩
    · rw [hend, hstays _ (Nat.le_refl _), hcut.bytes, if_pos rfl]
    · exact h.cut i n hrun hi
  · have hlater : ∀ i n, IsRun (Ends delim s) i n → stop + 1 ≤ i → x ≠ p + (i + n) :=
      fun i n hrun hi => by
        obtain ⟨hrun, hki⟩ := (hscan i n).mpr (Or.inr ⟨hrun, hi⟩)
        exact hx i n hrun hki
    have hnot := hx start (stop - start) hfirst hkstart
    rw [hstop] at hnot
    rw [h.kept x hlater, hcut.bytes, if_neg hnot]

theorem strtokAll_tokenizes (delim : CStr) (hne : ∀ b ∈ s, b ≠ 0)
    (hs : m.HasString (p + k) (s.drop k)) (hk : k ≤ s.length) (hbehind : k = 0 ∨ Ends delim s (k - 1)) (hfuel : s.length < fuel)
    (hcalls : s.length - k < calls) :
    ∃ ts last, strtokAll fuel delim calls none (some (p + k)) m = some (ts, last) ∧
      Tokenizes delim s p k m ts last := by
  induction calls generalizing k m with
  | zero => exact absurd hcalls (Nat.not_lt_zero _)
  | succ calls ih =>
    obtain ⟨call, hcall, ⟨htoken, hsaveptr, hbytes, hends⟩ | ⟨start, stop, hcut⟩⟩ :=
      strtokR_cases delim hne hs hk hfuel
    · refine ⟨[], call, ?_, tokenizes_nil hends hbytes hsaveptr⟩
      rw [strtokAll, hcall]
      simp only [htoken]
    · have hle := hcut.le
      have hlt := hcut.lt
      have hfits := hcut.fits
      obtain ⟨ts, last, hrest, htokens⟩ : ∃ ts last,
          strtokAll fuel delim calls none call.saveptr call.mem = some (ts, last) ∧
            Tokenizes delim s p (stop + 1) call.mem ts last := by
        rw [hcut.saveptr]
        by_cases hend : stop < s.length
        · rw [if_pos hend]
          have hs' : call.mem.HasString (p + (stop + 1)) (s.drop (stop + 1)) :=
            (hasString_drop hs (by omega) hend).frame fun x hx _ => by
              rw [hcut.bytes, if_neg (by omega)]
          exact ih hs' hend (Or.inr hcut.ends) (by omega)
        · -- the token ended at the NUL, and the next call returns NULL
          rw [if_neg hend]
          cases calls with
          | zero => omega
          | succ calls =>
            exact ⟨[], ⟨none, none, call.mem⟩, rfl,
              tokenizes_nil (fun j hj => Or.inl (by omega)) rfl rfl⟩
      refine ⟨(p + start, call.mem) :: ts, last, ?_, htokens.cons hbehind hcut⟩
      rw [strtokAll, hcall]
      simp only [hcut.token, hrest]

theorem run_fits (hrun : IsRun (Ends delim s) start stop) : start + stop ≤ s.length := by
  have hpos := hrun.pos
  apply Nat.le_of_not_lt
  intro hlt
  exact hrun.inside (start + stop - 1) (by omega) (by omega) (Or.inl (by omega))

theorem Tokenizes.hasString {i n : Nat} (hs : m.HasString p s)
    (h : Tokenizes delim s p 0 m ts last) (hrun : IsRun (Ends delim s) i n) :
    last.mem.HasString (p + i) ((s.drop i).take n) := by
  have hfits := run_fits hrun
  have hlength : ((s.drop i).take n).length = n := by
    rw [List.length_take, List.length_drop]
    omega
  apply Memory.hasString_of_getD
  · exact fun b hb => hs.nonzero b (List.mem_of_mem_drop (List.mem_of_mem_take hb))
  · intro j hj
    rw [hlength] at hj
    -- no other token ends inside of this one
    have hinside : last.mem.bytes (p + i + j) = m.bytes (p + i + j) := by
      apply h.kept
      intro i' n' hrun' _ heq
      have heq' : i' + n' = i + j := by omega
      exact hrun.inside (i + j) (Nat.le_add_right i j) (Nat.add_lt_add_left hj i)
        (heq' ▸ hrun'.right)
    rw [hinside, Nat.add_assoc, hs.getD (by omega), List.getD_eq_getElem?_getD,
      List.getD_eq_getElem?_getD, List.getElem?_take_of_lt hj, List.getElem?_drop]
  · rw [hlength, Nat.add_assoc]
    exact h.cut i n hrun (Nat.zero_le i)

end

/-- A byte that is no longer what it was is the delimiter behind a token. -/
theorem Tokenizes.changed {x : Nat} (hs : m.HasString p s) (h : Tokenizes delim s p 0 m ts last)
    (hx : last.mem.bytes x ≠ m.bytes x) : last.mem.bytes x = 0 ∧
      ∃ i n, IsRun (Ends delim s) i n ∧ s.getD (i + n) 0 ∈ delim.bytes ∧ x = p + (i + n) := by
  obtain ⟨i, n, hrun, rfl⟩ : ∃ i n, IsRun (Ends delim s) i n ∧ x = p + (i + n) := by
    apply Classical.byContradiction
    intro hnone
    exact hx (h.kept x fun i n hrun _ heq => hnone ⟨i, n, hrun, heq⟩)
  have hnul := h.cut i n hrun (Nat.zero_le i)
  refine ⟨hnul, i, n, hrun, ?_, rfl⟩
  obtain hend | hdelim := hrun.right
  · -- the NUL of the string was one before
    have hlast : i + n = s.length := Nat.le_antisymm (run_fits hrun) hend
    rw [hnul, hlast, hs.getD (Nat.le_refl _)] at hx
    simp at hx
  · exact hdelim

/-- Called for a string and then for NULL until it returns NULL, `strtok_r` yields the maximal runs
of bytes that are no delimiters, in order and each once, as strings inside of the one that is
cut. It sets the delimiters directly behind a token to NUL and changes nothing else, and every
further call returns NULL. -/
theorem strtokR_tokens {m : Memory} {p fuel : Nat} {s : List U8} (hs : m.HasString p s)
    (delim : CStr) (saveptr : Option Nat) (hfuel : s.length < fuel) :
    ∃ ts last, strtokAll fuel delim fuel (some p) saveptr m = some (ts, last) ∧
      (∀ t ∈ ts, ∃ i n, IsRun (Ends delim s) i n ∧ t.1 = p + i ∧
        t.2.HasString t.1 ((s.drop i).take n)) ∧
      (∀ i n, IsRun (Ends delim s) i n → p + i ∈ ts.map Prod.fst ∧ i + n ≤ s.length ∧
        last.mem.HasString (p + i) ((s.drop i).take n)) ∧
      (ts.map Prod.fst).Pairwise (· < ·) ∧
      (∀ x, last.mem.bytes x ≠ m.bytes x → last.mem.bytes x = 0 ∧
        ∃ i n, IsRun (Ends delim s) i n ∧ s.getD (i + n) 0 ∈ delim.bytes ∧ x = p + (i + n)) ∧
      ∀ m', strtokR fuel none delim last.saveptr m' = some ⟨none, none, m'⟩ := by
  obtain ⟨ts, last, htokens, h⟩ := strtokAll_tokenizes (k := 0) delim hs.nonzero hs
    (Nat.zero_le _) (Or.inl rfl) hfuel hfuel
  refine ⟨ts, last, ?_, fun t ht => ?_, fun i n hrun => ?_, h.increasing, fun x hx => h.changed hs hx,
    fun m' => ?_⟩
  · cases fuel with
    | zero => exact absurd hfuel (Nat.not_lt_zero _)
    | succ fuel => exact htokens
  · obtain ⟨i, n, hrun, -, heq, hsame⟩ := h.run t ht
    refine ⟨i, n, hrun, heq, ?_⟩
    have hfits := run_fits hrun
    rw [heq]
    apply (h.hasString hs hrun).frame
    intro x hx hx'
    rw [List.length_take, List.length_drop] at hx'
    exact hsame x hx (by omega)
  · exact ⟨h.all i n hrun (Nat.zero_le i), run_fits hrun, h.hasString hs hrun⟩
  · rw [h.finished]
    rfl

/-- `",a,,b"` cut at its commas. -/
theorem strtokR_tokens_two :
    let m : Memory := ⟨fun x => ([44, 97, 44, 44, 98] : List U8).getD x 0, []⟩
    ∃ ts last, strtokAll 6 ⟨[44], by decide⟩ 6 (some 0) none m = some (ts, last) ∧
      (ts.map Prod.fst).Pairwise (· < ·) ∧
      ∀ m', strtokR 6 none ⟨[44], by decide⟩ last.saveptr m' = some ⟨none, none, m'⟩ := by
  intro m
  have hs : m.HasString 0 [44, 97, 44, 44, 98] := by decide
  obtain ⟨ts, last, htokens, -, -, hincreasing, -, hagain⟩ :=
    strtokR_tokens hs ⟨[44], by decide⟩ none (show 5 < 6 by decide)
  exact ⟨ts, last, htokens, hincreasing, hagain⟩

end JarJar.Libc
