import JarJar.Strings
import Mathlib.Data.List.GetD
import Mathlib.Data.List.TakeDrop

/- The bounded copies of the C library: what `strncpy`, `strncat`, `strlcpy` and `strlcat`
   leave in memory, byte by byte.

   Correspondence (C ↔ Lean):
     `while (*d) d++`                  ↔ `skipString`, `none` when the turns run out
     the loop of `strncat`             ↔ `appendLoop`
     `strncat`, `strnlen`, `memcpy`    ↔ `strncat`, `strnlen`, `memcpy`
     `strlcpy`, `strlcat`              ↔ `strlcpy`, `strlcat`, with what they return
   The source of a copy is given by its bytes, as for `strncpy`. Lengths are natural numbers:
   a buffer and a string beside it fit into one address space, so that no sum of lengths
   wraps. A copy that is `Memory.storeAll` of some text stores these bytes and no others. -/
namespace JarJar.Libc

/-- `text` stands at `p`, and what was in memory before everywhere else. -/
structure Patched (old : Nat → U8) (p : Nat) (text : List U8) (m : Memory) : Prop where
  inside : ∀ i < text.length, m.bytes (p + i) = text.getD i 0
  outside : ∀ x, x < p ∨ p + text.length ≤ x → m.bytes x = old x

/-- Exactly the bytes of `text` were written, at `p`. -/
structure Written (old : Nat → U8) (p : Nat) (text : List U8) (m : Memory) : Prop
    extends Patched old p text m where
  stored : ∀ x, x ∈ m.touched ↔ p ≤ x ∧ x < p + text.length

theorem patched_storeAll (m : Memory) (p : Nat) (text : List U8) :
    Patched m.bytes p text (m.storeAll p text) where
  inside _ hi := Memory.storeAll_inside hi
  outside _ hx := Memory.storeAll_outside hx

theorem written_storeAll (old : Nat → U8) (p : Nat) (text : List U8) :
    Written old p text (Memory.storeAll ⟨old, []⟩ p text) where
  toPatched := patched_storeAll ⟨old, []⟩ p text
  stored x := by simp [Memory.mem_storeAll_touched]

theorem Patched.append_singleton {old : Nat → U8} {p : Nat} {text : List U8} {b : U8} {m : Memory}
    (h : Patched old p (text ++ [b]) m) : Patched old p text m ↔ old (p + text.length) = b := by
  have hlength : (text ++ [b]).length = text.length + 1 := List.length_append
  have hlast : m.bytes (p + text.length) = b := by
    rw [h.inside text.length (by omega), List.getD_append_right _ _ _ _ (Nat.le_refl _),
      Nat.sub_self]
    rfl
  constructor
  · intro hpatched
    rw [← hlast, hpatched.outside _ (Or.inr (Nat.le_refl _))]
  · intro hold
    refine ⟨fun i hi => ?_, fun x hx => ?_⟩
    · rw [h.inside i (by omega), List.getD_append _ _ _ _ hi]
    · by_cases hbehind : x = p + text.length
      · rw [hbehind, hold, hlast]
      · exact h.outside x (by omega)

/-! ## strncpy -/

/-- The field of `n` bytes a string is to be copied to: cut, or padded with NULs. -/
def paddedField (src : CStr) (n : Nat) : List U8 :=
  src.bytes.take n ++ List.replicate (n - src.bytes.length) 0

theorem paddedField_length (src : CStr) (n : Nat) : (paddedField src n).length = n := by
  rw [paddedField, List.length_append, List.length_take, List.length_replicate]
  omega

/-- `strncpy` writes its field and nothing else exactly if the string leaves nothing to
pad. -/
theorem strncpy_written_iff (old : Nat → U8) (dest : Nat) (src : CStr) (n : Nat) :
    Written old dest (paddedField src n) (strncpy dest src n ⟨old, []⟩) ↔
      n ≤ src.bytes.length := by
  constructor
  · intro hwritten
    apply Nat.le_of_not_lt
    intro hshort
    -- one byte more than `n` was stored
    have hstored : dest + n ∈ (strncpy dest src n ⟨old, []⟩).touched := by
      rw [strncpy_short _ _ hshort, Memory.mem_storeAll_touched, List.length_append,
        List.length_replicate]
      exact Or.inr (by omega)
    have hin := (hwritten.stored _).mp hstored
    rw [paddedField_length] at hin
    omega
  · intro hlong
    have hfield : paddedField src n = src.bytes.take n := by
      rw [paddedField, Nat.sub_eq_zero_of_le hlong, List.replicate_zero, List.append_nil]
    rw [strncpy_long _ _ hlong, hfield]
    exact written_storeAll old dest _

/-- `strncpy(dest, "ab", 4)` stores to `dest[4]`. -/
theorem strncpy_writes_behind :
    ¬ ∀ (old : Nat → U8) (dest : Nat) (src : CStr) (n : Nat),
      Written old dest (paddedField src n) (strncpy dest src n ⟨old, []⟩) := by
  intro h
  have hwritten := h (fun _ => 7) 0 ⟨"ab".toList.map ch, by decide⟩ 4
  have hbehind := hwritten.outside 4 (Or.inr (Nat.le_refl 4))
  revert hbehind
  decide

/-! ## What is read back -/

/-- The field of `size` bytes at `d` has a string in it that `text` begins with. -/
def HoldsPrefix (text : List U8) (size d : Nat) (m : Memory) : Prop :=
  ∃ pre, pre <+: text ∧ pre.length < size ∧ m.HasString d pre

section
variable {src : CStr} {d n size : Nat} {m : Memory}

/-- A string that is not shorter than `n` ends where what stood behind its `n` bytes does. -/
theorem strncpy_hasString_append (hlong : n ≤ src.bytes.length) {rest : List U8} :
    (strncpy d src n m).HasString d (src.bytes.take n ++ rest) ↔ m.HasString (d + n) rest := by
  have hlength : (src.bytes.take n).length = n := List.length_take_of_le hlong
  have hstores := Memory.storeAll_touches m d (src.bytes.take n)
  rw [strncpy_long _ _ hlong]
  rw [hlength] at hstores
  constructor
  · intro hstring
    have hrest := hstring.drop (n := n) (by rw [List.length_append]; omega)
    rw [List.drop_left' hlength] at hrest
    exact hrest.frame fun x hx _ => (hstores.outside x (Or.inr hx)).symm
  · intro hrest
    refine Memory.hasString_append (fun b hb => src.nonzero b (List.mem_of_mem_take hb))
      (fun i hi => Memory.storeAll_inside hi) ?_
    rw [hlength]
    exact hrest.frame fun x hx _ => hstores.outside x (Or.inr hx)

/-- What is read back is what was copied exactly if there was room for its NUL, or a NUL stood
there before. -/
theorem strncpy_hasString_iff : (strncpy d src n m).HasString d (src.bytes.take n) ↔
    src.bytes.length < n ∨ m.bytes (d + n) = 0 := by
  by_cases hlong : n ≤ src.bytes.length
  · rw [or_iff_right (Nat.not_lt.mpr hlong), ← List.append_nil (src.bytes.take n),
      strncpy_hasString_append hlong]
    rfl
  · have hshort := Nat.lt_of_not_le hlong
    rw [List.take_of_length_le (Nat.le_of_lt hshort)]
    exact iff_of_true (strncpy_hasString hshort) (Or.inl hshort)

theorem strncpy_holdsPrefix_iff (hsize : n < size) :
    HoldsPrefix src.bytes size d (strncpy d src n m) ↔
      src.bytes.length < n ∨ HoldsPrefix (src.bytes.drop n) (size - n) (d + n) m := by
  by_cases hlong : n ≤ src.bytes.length
  · rw [or_iff_right (Nat.not_lt.mpr hlong)]
    constructor
    · rintro ⟨pre, ⟨behind, hpre⟩, hfits, hstring⟩
      have hreaches : n ≤ pre.length := by
        -- none of the `n` bytes is a NUL
        apply Nat.le_of_not_lt
        intro hlt
        have hnul := hstring.getD (Nat.le_refl _)
        rw [strncpy_long _ _ hlong, Memory.storeAll_inside (by rw [List.length_take_of_le hlong]; exact hlt),
          List.getD_eq_default _ _ (Nat.le_refl _),
          List.getD_eq_getElem _ _ (by rw [List.length_take_of_le hlong]; exact hlt)] at hnul
        exact src.nonzero _ (List.mem_of_mem_take (List.getElem_mem _)) hnul
      have htake : src.bytes.take n = pre.take n := by
        rw [← hpre, List.take_append_of_le_length hreaches]
      rw [← List.take_append_drop n pre, ← htake, strncpy_hasString_append hlong] at hstring
      refine ⟨pre.drop n, ⟨behind, ?_⟩, by rw [List.length_drop]; omega, hstring⟩
      rw [← hpre, List.drop_append_of_le_length hreaches]
    · rintro ⟨rest, ⟨behind, hrest⟩, hfits, hstring⟩
      refine ⟨src.bytes.take n ++ rest, ⟨behind, ?_⟩, ?_, (strncpy_hasString_append hlong).mpr hstring⟩
      · rw [List.append_assoc, hrest, List.take_append_drop]
      · rw [List.length_append, List.length_take_of_le hlong]
        omega
  · have hshort := Nat.lt_of_not_le hlong
    exact iff_of_true ⟨_, List.prefix_refl _, by omega, strncpy_hasString hshort⟩ (Or.inl hshort)

end

/-! ## strncat -/

/-- `while (*d) d++`: where it stops, for `fuel` turns at most. -/
def skipString : Nat → Nat → Memory → Option (Nat × Memory)
  | 0, _, _ => none
  | fuel + 1, d, m =>
    let (c, m) := m.load d
    if c = 0 then some (d, m) else skipString fuel (d + 1) m

/-- `while (n-- && (*d++ = *src++))`: where it stops. -/
def appendLoop : Nat → List U8 → Nat → Memory → Nat × Memory
  | d, _, 0, m => (d, m)
  -- the pointer has gone past the NUL when the loop sees it
  | d, [], _ + 1, m => (d + 1, m.store d 0)
  | d, b :: src, n + 1, m => appendLoop (d + 1) src n (m.store d b)

def strncat (fuel dest : Nat) (src : CStr) (n : Nat) (m : Memory) : Option Memory :=
  match skipString fuel dest m with
  | none => none
  | some (d, m) =>
    let (d, m) := appendLoop d src.bytes n m
    some (m.store d 0)

section
variable {m : Memory} {d n fuel : Nat} {s : List U8}

theorem skipString_eq (hs : m.HasString d s) (hfuel : s.length < fuel) :
    ∃ m', skipString fuel d m = some (d + s.length, m') ∧ m'.bytes = m.bytes ∧
      Touches d (s.length + 1) m m' := by
  induction s generalizing m d fuel with
  | nil =>
    cases fuel with
    | zero => exact absurd hfuel (Nat.not_lt_zero _)
    | succ fuel => exact ⟨(m.load d).2, if_pos hs, rfl, .load (by simp)⟩
  | cons b s ih =>
    cases fuel with
    | zero => exact absurd hfuel (Nat.not_lt_zero _)
    | succ fuel =>
      obtain ⟨hb, hne, hs⟩ := hs
      have hload : (m.load d).2.HasString (d + 1) s := hs.frame fun _ _ _ => rfl
      obtain ⟨m', hskip, hbytes, htouch⟩ := ih hload (Nat.lt_of_succ_lt_succ hfuel)
      have hread : Touches d (s.length + 1 + 1) m (m.load d).2 := .load (by omega)
      refine ⟨m', ?_, hbytes, hread.trans (htouch.widen (by omega) (by omega))⟩
      rw [List.length_cons, Nat.add_comm s.length, ← Nat.add_assoc, ← hskip]
      exact if_neg fun hz => hne (hb.symm.trans hz)

/-- The loop of `strncat` goes where that of `strncpy` goes. -/
theorem appendLoop_eq (d : Nat) (src : List U8) (n : Nat) (m : Memory) :
    appendLoop d src n m = ((copyLoop d src n m).1, (copyLoop d src n m).2.2) := by
  induction n generalizing d src m with
  | zero => rfl
  | succ n ih =>
    cases src with
    | nil => rfl
    | cons b src => exact ih (d + 1) src (m.store d b)

/-- What `strncat` stores behind the old string: a second NUL if it meets the first one. -/
def appended (src : CStr) (n : Nat) : List U8 :=
  src.bytes.take n ++ if n ≤ src.bytes.length then [0] else [0, 0]

theorem strncat_eq (src : CStr) (n : Nat) (hs : m.HasString d s) (hfuel : s.length < fuel) :
    ∃ m', strncat fuel d src n m = some (m'.storeAll (d + s.length) (appended src n)) ∧
      m'.bytes = m.bytes ∧ Touches d (s.length + 1) m m' := by
  obtain ⟨m', hskip, hbytes, htouch⟩ := skipString_eq hs hfuel
  refine ⟨m', ?_, hbytes, htouch⟩
  rw [strncat, hskip, appended]
  simp only [appendLoop_eq, Option.some.injEq]
  by_cases hlong : n ≤ src.bytes.length
  · rw [copyLoop_long _ hlong, if_pos hlong, Memory.storeAll_append, List.length_take,
      Nat.min_eq_left hlong]
    rfl
  · have hsplit : src.bytes ++ [0, 0] = (src.bytes ++ [0]) ++ [(0 : U8)] := by simp
    rw [copyLoop_short _ (Nat.lt_of_not_le hlong), if_neg hlong,
      List.take_of_length_le (by omega), hsplit, Memory.storeAll_append _ _ (src.bytes ++ [0]),
      List.length_append]
    rfl

end

/-- `strncat` appends what it should exactly if the string is not shorter than `n`, or if the
byte that the second NUL is stored to was one before; it stays inside of the new string and
its NUL in the first case only. -/
theorem strncat_patched_iff {old : Nat → U8} {dest fuel : Nat} {s : List U8}
    (hdest : Memory.HasString ⟨old, []⟩ dest s) (hfuel : s.length < fuel) (src : CStr) (n : Nat) :
    ∃ m, strncat fuel dest src n ⟨old, []⟩ = some m ∧
      (Patched old (dest + s.length) (src.bytes.take n ++ [0]) m ↔
        n ≤ src.bytes.length ∨ old (dest + s.length + src.bytes.length + 1) = 0) ∧
      (Touches dest (s.length + min src.bytes.length n + 1) ⟨old, []⟩ m ↔
        n ≤ src.bytes.length) := by
  obtain ⟨m, hcat, hbytes, htouch⟩ := strncat_eq src n hdest hfuel
  refine ⟨_, hcat, ?_⟩
  have hstored : Patched old (dest + s.length) (appended src n)
      (m.storeAll (dest + s.length) (appended src n)) := by
    rw [show old = m.bytes from hbytes.symm]
    exact patched_storeAll m _ _
  rw [appended] at hstored ⊢
  by_cases hlong : n ≤ src.bytes.length
  · -- `n` has run out before the NUL, and the only one stored is the last
    rw [if_pos hlong] at hstored ⊢
    refine ⟨iff_of_true hstored (Or.inl hlong), iff_of_true ?_ hlong⟩
    refine (htouch.widen (Nat.le_refl _) (by omega)).trans ?_
    apply (Memory.storeAll_touches m _ _).widen (by omega)
    simp only [List.length_append, List.length_take, List.length_singleton]
    omega
  · rw [if_neg hlong, List.take_of_length_le (by omega)] at hstored ⊢
    have htext : src.bytes ++ [0, 0] = (src.bytes ++ [0]) ++ [(0 : U8)] := by simp
    rw [htext] at hstored ⊢
    have hlength : (src.bytes ++ [0] ++ [(0 : U8)]).length = src.bytes.length + 2 := by simp
    constructor
    · rw [or_iff_right hlong, hstored.append_singleton, List.length_append, ← Nat.add_assoc]
      rfl
    · refine iff_of_false (fun htouches => ?_) hlong
      have hmem : dest + s.length + (src.bytes.length + 1) ∈
          (m.storeAll (dest + s.length) (src.bytes ++ [0] ++ [0])).touched :=
        Memory.mem_storeAll_touched.mpr (Or.inr (by omega))
      obtain hold | hin := htouches.touched _ hmem
      · exact absurd hold List.not_mem_nil
      · omega

/-- `strncat("", "ab", 4)` clears the byte behind `"ab"` and its NUL. -/
theorem strncat_clears_behind :
    ¬ ∀ (old : Nat → U8) (dest fuel : Nat) (s : List U8) (src : CStr) (n : Nat),
      Memory.HasString ⟨old, []⟩ dest s → s.length < fuel →
        ∃ m, strncat fuel dest src n ⟨old, []⟩ = some m ∧
          Patched old (dest + s.length) (src.bytes.take n ++ [0]) m := by
  intro h
  let old : Nat → U8 := fun x => if x = 0 then 0 else 7
  obtain ⟨m, hcat, hpatched⟩ := h old 0 1 [] ⟨"ab".toList.map ch, by decide⟩ 4 rfl (by decide)
  have hbehind : m.bytes 3 = 7 := hpatched.outside 3 (Or.inr (Nat.le_refl 3))
  obtain rfl := Option.some.inj hcat
  revert hbehind
  decide

/-- `strncat("ab", "cd", 2)` writes three bytes. -/
theorem strncat_patched_iff_fits :
    let old : Nat → U8 := fun x => ("ab".toList.map ch).getD x 0
    ∃ m, strncat 3 0 ⟨"cd".toList.map ch, by decide⟩ 2 ⟨old, []⟩ = some m ∧
      Patched old 2 ("cd".toList.map ch ++ [0]) m ∧ Touches 0 5 ⟨old, []⟩ m := by
  intro old
  have hdest : Memory.HasString ⟨old, []⟩ 0 ("ab".toList.map ch) :=
    Memory.hasString_getD (by decide)
  obtain ⟨m, hcat, hpatched, htouches⟩ := strncat_patched_iff hdest (show 2 < 3 by decide) _ 2
  exact ⟨m, hcat, hpatched.mpr (Or.inl (by decide)), htouches.mpr (by decide)⟩

/-! ## strlcpy and strlcat -/

/-- `while (n--) *d++ = *s++`. -/
def memcpy : Nat → List U8 → Nat → Memory → Memory
  | _, _, 0, m => m
  | d, s, n + 1, m => memcpy (d + 1) s.tail n (m.store d (s.headD 0))

def strlcpy (dst : Nat) (src : CStr) (size : Nat) (m : Memory) : Nat × Memory :=
  let len := src.bytes.length
  if size > 0 then
    let copy := if len < size - 1 then len else size - 1
    (len, (memcpy dst src.bytes copy m).store (dst + copy) 0)
  else (len, m)

/-- `while (*p && maxlen--) p++`, which also reads the byte it stops at when nothing is left of
`maxlen`. -/
def strnlenLoop : Nat → Nat → Memory → Nat × Memory
  | p, 0, m => (p, (m.load p).2)
  | p, maxlen + 1, m =>
    let (c, m) := m.load p
    if c = 0 then (p, m) else strnlenLoop (p + 1) maxlen m

def strnlen (s maxlen : Nat) (m : Memory) : Nat × Memory :=
  let (p, m) := strnlenLoop s maxlen m
  (p - s, m)

def strlcat (dst : Nat) (src : CStr) (size : Nat) (m : Memory) : Nat × Memory :=
  let (dlen, m) := strnlen dst size m
  if dlen = size then (size + src.bytes.length, m)
  else
    let (len, m) := strlcpy (dst + dlen) src (size - dlen) m
    (dlen + len, m)

section
variable {m : Memory} {d n size : Nat} {s : List U8}

theorem memcpy_eq (d : Nat) (m : Memory) (h : n ≤ s.length) :
    memcpy d s n m = m.storeAll d (s.take n) := by
  induction n generalizing d s m with
  | zero => rfl
  | succ n ih =>
    cases s with
    | nil => exact absurd h (Nat.not_succ_le_zero n)
    | cons b s => exact ih (d + 1) (m.store d b) (Nat.le_of_succ_le_succ h)

theorem strlcpy_eq (d : Nat) (src : CStr) (m : Memory) (hsize : 0 < size) :
    strlcpy d src size m =
      (src.bytes.length, m.storeAll d (src.bytes.take (size - 1) ++ [0])) := by
  have hcopy : (if src.bytes.length < size - 1 then src.bytes.length else size - 1) =
      (src.bytes.take (size - 1)).length := by
    rw [List.length_take]
    split <;> omega
  have htake : src.bytes.take (src.bytes.take (size - 1)).length = src.bytes.take (size - 1) := by
    rw [List.length_take, ← List.take_eq_take_min]
  rw [strlcpy, if_pos hsize]
  simp only [hcopy]
  rw [memcpy_eq _ _ (by rw [List.length_take]; omega), htake, Memory.storeAll_append]
  rfl

end

/-! ## strnlen -/

/-- `r` is the index of the first NUL of the `n` bytes at `s`, or `n`. -/
structure FirstNul (bytes : Nat → U8) (s n r : Nat) : Prop where
  le : r ≤ n
  before : ∀ i < r, bytes (s + i) ≠ 0
  stops : r = n ∨ bytes (s + r) = 0

section
variable {m : Memory} {bytes : Nat → U8} {d s n r : Nat} {text : List U8}

theorem FirstNul.succ (h : FirstNul bytes (s + 1) n r) (hs : bytes s ≠ 0) :
    FirstNul bytes s (n + 1) (r + 1) where
  le := Nat.succ_le_succ h.le
  before i hi := by
    cases i with
    | zero => exact hs
    | succ i =>
      have hbyte := h.before i (Nat.lt_of_succ_lt_succ hi)
      rwa [Nat.add_assoc, Nat.add_comm 1] at hbyte
  stops := by
    obtain rfl | hnul := h.stops
    · exact Or.inl rfl
    · rw [Nat.add_assoc, Nat.add_comm 1] at hnul
      exact Or.inr hnul

theorem firstNul_zero (h : n = 0 ∨ bytes s = 0) : FirstNul bytes s n 0 where
  le := Nat.zero_le n
  before i hi := absurd hi (Nat.not_lt_zero i)
  stops := h.imp_left Eq.symm

theorem mem_load_touched_iff {m : Memory} (s x : Nat) :
    x ∈ (m.load s).2.touched ↔ x ∈ m.touched ∨ (s ≤ x ∧ x ≤ s + 0) := by
  rw [Memory.mem_load_touched, or_comm]
  exact or_congr_right (by omega)

theorem FirstNul.eq_length (h : FirstNul m.bytes d n r) (hs : m.HasString d text)
    (hlen : text.length < n) : r = text.length := by
  have hnul := hs.getD (Nat.le_refl _)
  rw [List.getD_eq_default _ _ (Nat.le_refl _)] at hnul
  apply Nat.le_antisymm
  · apply Nat.le_of_not_lt
    intro hlt
    exact h.before _ hlt hnul
  · apply Nat.le_of_not_lt
    intro hlt
    have hstop := h.stops.resolve_left (by omega)
    rw [hs.getD (Nat.le_of_lt hlt), List.getD_eq_getElem _ _ hlt] at hstop
    exact hs.nonzero _ (List.getElem_mem hlt) hstop

theorem strnlenLoop_stops (s n : Nat) (m : Memory) :
    ∃ r, FirstNul m.bytes s n r ∧ (strnlenLoop s n m).1 = s + r ∧
      (strnlenLoop s n m).2.bytes = m.bytes ∧
      ∀ x, x ∈ (strnlenLoop s n m).2.touched ↔ x ∈ m.touched ∨ (s ≤ x ∧ x ≤ s + r) := by
  induction n generalizing s m with
  | zero => exact ⟨0, firstNul_zero (Or.inl rfl), rfl, rfl, mem_load_touched_iff s⟩
  | succ n ih =>
    rw [strnlenLoop]
    by_cases hnul : (m.load s).1 = 0
    · simp only [hnul, if_true]
      exact ⟨0, firstNul_zero (Or.inr hnul), rfl, rfl, mem_load_touched_iff s⟩
    · simp only [hnul, if_false]
      obtain ⟨r, hr, hend, hbytes, htouched⟩ := ih (s + 1) (m.load s).2
      refine ⟨r + 1, hr.succ hnul, ?_, hbytes, fun x => ?_⟩
      · rw [hend]
        omega
      · rw [htouched, mem_load_touched_iff, or_assoc]
        exact or_congr_right (by omega)

theorem strnlenLoop_eq (hs : m.HasString d text) (hlen : text.length < n) :
    (strnlenLoop d n m).1 = d + text.length ∧ (strnlenLoop d n m).2.bytes = m.bytes ∧
      Touches d n m (strnlenLoop d n m).2 := by
  obtain ⟨r, hr, hend, hbytes, htouched⟩ := strnlenLoop_stops d n m
  have hlength : r = text.length := hr.eq_length hs hlen
  rw [hend, hlength]
  refine ⟨rfl, hbytes, fun x _ => congrFun hbytes x, fun x hx => ?_⟩
  exact ((htouched x).mp hx).imp_right fun hin => by omega

end

/-- What fits of a text into a buffer of `size` bytes with a NUL behind it. -/
def fitting (size : Nat) (text : List U8) : List U8 := text.take (size - 1)

section
variable {size : Nat} {s : List U8}

theorem fitting_length_lt (hsize : 0 < size) (text : List U8) : (fitting size text).length < size := by
  rw [fitting, List.length_take]
  omega

theorem fitting_append (size : Nat) (s t : List U8) :
    fitting size (fitting size s ++ t) = fitting size (s ++ t) := by
  rw [fitting, fitting, fitting, List.take_append, List.take_append, List.take_take, Nat.min_self,
    List.length_take]
  by_cases hlong : size - 1 ≤ s.length
  · rw [Nat.sub_eq_zero_of_le hlong, Nat.min_eq_left hlong, Nat.sub_self]
  · rw [Nat.min_eq_right (by omega)]

theorem fitting_ne_iff (hsize : 0 < size) (text : List U8) :
    fitting size text ≠ text ↔ size ≤ text.length := by
  rw [fitting, ne_eq, List.take_eq_self_iff]
  omega

theorem fitting_hasString (m : Memory) (d : Nat) (hs : ∀ b ∈ s, b ≠ 0) :
    (m.storeAll d (fitting size s ++ [0])).HasString d (fitting size s) :=
  Memory.storeAll_hasString m d fun b hb => hs b (List.mem_of_mem_take hb)

/-- Every call of the two leaves what fits of the string that was there and the new one, and
returns how long they are together. -/
structure Appends (dst size : Nat) (before : List U8) (src : CStr) (m : Memory)
    (call : Nat × Memory) : Prop where
  result : call.1 = before.length + src.bytes.length
  text : call.2.HasString dst (fitting size (before ++ src.bytes))
  touches : Touches dst size m call.2

theorem strlcpy_appends (dst : Nat) (src : CStr) (m : Memory) (hsize : 0 < size) :
    Appends dst size [] src m (strlcpy dst src size m) := by
  rw [strlcpy_eq _ _ _ hsize]
  refine ⟨(Nat.zero_add _).symm, fitting_hasString m dst src.nonzero, ?_⟩
  apply (Memory.storeAll_touches m dst _).widen (Nat.le_refl _)
  rw [List.length_append, List.length_take, List.length_singleton]
  omega

theorem strlcat_appends {dst : Nat} {m : Memory} {before : List U8} (src : CStr)
    (hbefore : m.HasString dst before) (hfits : before.length < size) :
    Appends dst size before src m (strlcat dst src size m) := by
  obtain ⟨hend, hbytes, htouch⟩ := strnlenLoop_eq hbefore hfits
  have hdlen : (strnlen dst size m).1 = before.length := by
    show (strnlenLoop dst size m).1 - dst = before.length
    rw [hend, Nat.add_sub_cancel_left]
  have hcopy : Appends (dst + before.length) (size - before.length) [] src (strnlen dst size m).2
      (strlcpy (dst + before.length) src (size - before.length) (strnlen dst size m).2) :=
    strlcpy_appends _ src _ (by omega)
  have hcall : strlcat dst src size m =
      (before.length + src.bytes.length,
        (strlcpy (dst + before.length) src (size - before.length) (strnlen dst size m).2).2) := by
    rw [strlcat]
    simp only [hdlen, if_neg (Nat.ne_of_lt hfits), hcopy.result]
    simp
  rw [hcall]
  refine ⟨rfl, ?_, ?_⟩
  · have hsplit : fitting size (before ++ src.bytes) =
        before ++ fitting (size - before.length) src.bytes := by
      rw [fitting, fitting, List.take_append, List.take_of_length_le (by omega),
        Nat.sub_right_comm]
    rw [hsplit]
    apply hbefore.extend _ hcopy.text
    intro x _ hx
    rw [hcopy.touches.outside x (Or.inl hx), ← hbytes]
    rfl
  · exact htouch.trans (hcopy.touches.widen (by omega) (by omega))

/-- A call that appends returns no less than `size` exactly if the string it leaves is not the
one that was there with the whole new one behind it. -/
theorem Appends.truncates_iff {dst : Nat} {src : CStr} {m : Memory} {call : Nat × Memory}
    (hsize : 0 < size) (h : Appends dst size s src m call) :
    size ≤ call.1 ↔ fitting size (s ++ src.bytes) ≠ s ++ src.bytes := by
  rw [fitting_ne_iff hsize, h.result, List.length_append]

end

/-- `strlcat(dst, s, size)` for one string after the other: what every call returns and
leaves. -/
def strlcatAll (dst size : Nat) : List CStr → Memory → List (Nat × Memory)
  | [], _ => []
  | src :: rest, m =>
    let call := strlcat dst src size m
    call :: strlcatAll dst size rest call.2

/-- `strlcpy(dst, s, size)` of the first string and `strlcat(dst, s, size)` of the others. -/
def strlcpyAll (dst size : Nat) (first : CStr) (rest : List CStr) (m : Memory) :
    List (Nat × Memory) :=
  let call := strlcpy dst first size m
  call :: strlcatAll dst size rest call.2

/-- The strings, one behind the other. -/
def joined (strings : List CStr) : List U8 := strings.flatMap CStr.bytes

theorem joined_append_singleton (strings : List CStr) (src : CStr) :
    joined (strings ++ [src]) = joined strings ++ src.bytes := by
  rw [joined, List.flatMap_append, List.flatMap_singleton]
  rfl

/-- What a run of calls, up to the one for `src`, has done to the buffer. -/
structure Filled (dst size : Nat) (before : List CStr) (src : CStr) (m : Memory)
    (call : Nat × Memory) : Prop where
  text : call.2.HasString dst (fitting size (joined (before ++ [src])))
  touches : Touches dst size m call.2
  truncates : size ≤ call.1 ↔
    fitting size (joined (before ++ [src])) ≠ fitting size (joined before) ++ src.bytes

section
variable {dst size : Nat} {before : List CStr} {m m' : Memory}

theorem Appends.filled {src : CStr} {call : Nat × Memory} (hsize : 0 < size)
    (h : Appends dst size (fitting size (joined before)) src m' call)
    (htouch : Touches dst size m m') : Filled dst size before src m call := by
  have htext : fitting size (fitting size (joined before) ++ src.bytes) =
      fitting size (joined (before ++ [src])) := by
    rw [fitting_append, joined_append_singleton]
  refine ⟨htext ▸ h.text, htouch.trans h.touches, ?_⟩
  rw [← htext]
  exact h.truncates_iff hsize

theorem strlcatAll_length (rest : List CStr) (m : Memory) :
    (strlcatAll dst size rest m).length = rest.length := by
  induction rest generalizing m with
  | nil => rfl
  | cons src rest ih => rw [strlcatAll, List.length_cons, ih, List.length_cons]

theorem strlcatAll_filled (hsize : 0 < size) (rest : List CStr)
    (hbefore : m'.HasString dst (fitting size (joined before))) (htouch : Touches dst size m m')
    (i : Nat) (hi : i < rest.length) :
    ∃ call, (strlcatAll dst size rest m')[i]? = some call ∧
      Filled dst size (before ++ rest.take i) rest[i] m call := by
  induction rest generalizing before m' i with
  | nil => exact absurd hi (Nat.not_lt_zero i)
  | cons src rest ih =>
    have hcall := (strlcat_appends src hbefore (fitting_length_lt hsize _)).filled hsize htouch
    cases i with
    | zero =>
      refine ⟨strlcat dst src size m', rfl, ?_⟩
      rw [List.take_zero, List.append_nil]
      exact hcall
    | succ i =>
      have hafter := ih hcall.text hcall.touches i (Nat.lt_of_succ_lt_succ hi)
      rw [List.append_assoc] at hafter
      exact hafter

end

/-- A string built by `strlcpy` and any number of `strlcat`s is what fits of all the strings one
behind the other; no call leaves the buffer, and each of them reports exactly whether it has
cut its string. -/
theorem strlcpyAll_filled {size : Nat} (hsize : 0 < size) (dst : Nat) (first : CStr)
    (rest : List CStr) (m : Memory) :
    (∃ call, (strlcpyAll dst size first rest m).getLast? = some call ∧
      call.2.HasString dst ((joined (first :: rest)).take (size - 1)) ∧
      Touches dst size m call.2) ∧
    ∀ i (hi : i < (first :: rest).length),
      ∃ call, (strlcpyAll dst size first rest m)[i]? = some call ∧
        Filled dst size ((first :: rest).take i) (first :: rest)[i] m call := by
  have hcopy : Filled dst size [] first m (strlcpy dst first size m) := by
    apply Appends.filled hsize _ .refl
    rw [show fitting size (joined []) = [] from List.take_nil]
    exact strlcpy_appends dst first m hsize
  have hcalls : ∀ i (hi : i < (first :: rest).length),
      ∃ call, (strlcpyAll dst size first rest m)[i]? = some call ∧
        Filled dst size ((first :: rest).take i) (first :: rest)[i] m call := by
    intro i hi
    cases i with
    | zero => exact ⟨_, rfl, hcopy⟩
    | succ i =>
      exact strlcatAll_filled hsize rest hcopy.text hcopy.touches i (Nat.lt_of_succ_lt_succ hi)
  refine ⟨?_, hcalls⟩
  have hlength : (strlcpyAll dst size first rest m).length = (first :: rest).length := by
    rw [strlcpyAll, List.length_cons, strlcatAll_length, List.length_cons]
  obtain ⟨call, hget, hfilled⟩ := hcalls rest.length (Nat.lt_succ_self _)
  refine ⟨call, ?_, ?_, hfilled.touches⟩
  · rw [List.getLast?_eq_getElem?, hlength]
    exact hget
  · have hall : (first :: rest).take (rest.length + 1) = first :: rest :=
      List.take_of_length_le (Nat.le_refl _)
    have htext := hfilled.text
    rwa [List.take_append_getElem, hall] at htext

/-- `"abc"`, `"de"` and `"f"` in a buffer of 6 bytes: the last one does not fit. -/
theorem strlcpyAll_filled_six :
    let m : Memory := ⟨fun _ => 7, []⟩
    let strings := strlcpyAll 0 6 ⟨"abc".toList.map ch, by decide⟩
      [⟨"de".toList.map ch, by decide⟩, ⟨"f".toList.map ch, by decide⟩] m
    ∃ call, strings.getLast? = some call ∧ call.2.HasString 0 ("abcde".toList.map ch) ∧
      Touches 0 6 m call.2 := by
  intro m strings
  exact (strlcpyAll_filled (show 0 < 6 by decide) 0 _ _ m).1

end JarJar.Libc
