import JarJar.Ctype
import JarJar.Memory
import JarJar.Stdlib

/- Copying and comparing strings in memory.

   Correspondence (C ↔ Lean):
     the two loops of `strncpy`          ↔ `copyLoop`, `zeroLoop`
     `strncpy`                           ↔ `strncpy`, with the memory it leaves
     `strcasecmp`                        ↔ `strcasecmp`, `none` when it reads past `s2`
   The string that is copied and the second string of a comparison are not in the memory the
   first pointer is for, and are given by their bytes.

   When `strncpy` has copied the NUL it has not counted it, and so it fills one byte more
   than it is told. -/
namespace JarJar.Libc

/-- `while (n && (*d++ = *src++)) n--`: where it stops, and what is left of `n`. -/
def copyLoop : Nat → List U8 → Nat → Memory → Nat × Nat × Memory
  | d, _, 0, m => (d, 0, m)
  -- the NUL ends the loop before `n--`
  | d, [], n + 1, m => (d + 1, n + 1, m.store d 0)
  | d, b :: src, n + 1, m => copyLoop (d + 1) src n (m.store d b)

/-- `while (n--) *d++ = '\0'`. -/
def zeroLoop : Nat → Nat → Memory → Memory
  | _, 0, m => m
  | d, n + 1, m => zeroLoop (d + 1) n (m.store d 0)

def strncpy (dest : Nat) (src : CStr) (n : Nat) (m : Memory) : Memory :=
  let (d, n, m) := copyLoop dest src.bytes n m
  zeroLoop d n m

def strcasecmp (m : Memory) (s1 : Nat) : List U8 → Option Int
  | [] =>
    if m.bytes s1 ≠ 0 ∧ tolower (m.bytes s1) = tolower 0 then none
    else some ((tolower (m.bytes s1)).toNat - (tolower 0).toNat)
  | b :: s2 =>
    if m.bytes s1 ≠ 0 ∧ tolower (m.bytes s1) = tolower b then strcasecmp m (s1 + 1) s2
    else some ((tolower (m.bytes s1)).toNat - (tolower b).toNat)

/-! ## What is copied -/

section
variable {d n : Nat} {src : List U8}

theorem zeroLoop_eq (d n : Nat) (m : Memory) :
    zeroLoop d n m = m.storeAll d (List.replicate n 0) := by
  induction n generalizing d m with
  | zero => rfl
  | succ n ih =>
    rw [zeroLoop, ih]
    rfl

theorem copyLoop_long (m : Memory) (h : n ≤ src.length) :
    copyLoop d src n m = (d + n, 0, m.storeAll d (src.take n)) := by
  induction n generalizing d src m with
  | zero => rfl
  | succ n ih =>
    cases src with
    | nil => exact absurd h (Nat.not_succ_le_zero n)
    | cons b src =>
      rw [copyLoop, ih _ (Nat.le_of_succ_le_succ h), List.take_succ_cons, Nat.add_assoc,
        Nat.add_comm 1 n]
      rfl

theorem copyLoop_short (m : Memory) (h : src.length < n) :
    copyLoop d src n m = (d + src.length + 1, n - src.length, m.storeAll d (src ++ [0])) := by
  induction n generalizing d src m with
  | zero => exact absurd h (Nat.not_lt_zero _)
  | succ n ih =>
    cases src with
    | nil => rfl
    | cons b src =>
      rw [copyLoop, ih _ (Nat.lt_of_succ_lt_succ h), List.length_cons, Nat.add_sub_add_right]
      simp only [Nat.add_assoc, Nat.add_comm 1]
      rfl

end

/-- Both loops together are not told to store more than one byte behind `n`. -/
theorem copyLoop_stops (d : Nat) (src : List U8) (n : Nat) (m : Memory) :
    d ≤ (copyLoop d src n m).1 ∧
      (copyLoop d src n m).1 + (copyLoop d src n m).2.1 ≤ d + n + 1 := by
  by_cases h : n ≤ src.length
  · rw [copyLoop_long m h]
    dsimp only
    omega
  · rw [copyLoop_short m (Nat.lt_of_not_le h)]
    dsimp only
    omega

section
variable {src : CStr} {n : Nat}

theorem strncpy_long (d : Nat) (m : Memory) (h : n ≤ src.bytes.length) :
    strncpy d src n m = m.storeAll d (src.bytes.take n) := by
  rw [strncpy, copyLoop_long m h]
  rfl

theorem strncpy_short (d : Nat) (m : Memory) (h : src.bytes.length < n) :
    strncpy d src n m =
      m.storeAll d (src.bytes ++ List.replicate (n - src.bytes.length + 1) 0) := by
  have hsplit : src.bytes ++ List.replicate (n - src.bytes.length + 1) 0 =
      (src.bytes ++ [0]) ++ List.replicate (n - src.bytes.length) 0 := by
    rw [List.replicate_succ, List.append_cons]
  rw [strncpy, copyLoop_short m h, hsplit, Memory.storeAll_append _ _ (src.bytes ++ [0]),
    List.length_append]
  exact zeroLoop_eq _ _ _

theorem strncpy_touches (d : Nat) (src : CStr) (n : Nat) (m : Memory) :
    Touches d (n + 1) m (strncpy d src n m) := by
  by_cases h : n ≤ src.bytes.length
  · rw [strncpy_long d m h]
    apply (Memory.storeAll_touches m d _).widen (Nat.le_refl d)
    rw [List.length_take]
    omega
  · rw [strncpy_short d m (Nat.lt_of_not_le h)]
    apply (Memory.storeAll_touches m d _).widen (Nat.le_refl d)
    rw [List.length_append, List.length_replicate]
    omega

theorem strncpy_hasString {d : Nat} {m : Memory} (h : src.bytes.length < n) :
    (strncpy d src n m).HasString d src.bytes := by
  rw [strncpy_short d m h, List.replicate_succ]
  exact Memory.storeAll_hasString m d src.nonzero

end

/-! ## What is compared -/

/-- The letter of the other case for an upper-case letter of ASCII. -/
def asciiLower (c : U8) : U8 := if 'A'.toNat ≤ c.toNat ∧ c.toNat ≤ 'Z'.toNat then c + 32 else c

/-- Two strings that differ in the case of their letters at most. -/
def EqUpToCase (s t : List U8) : Prop := s.map asciiLower = t.map asciiLower

instance (s t : List U8) : Decidable (EqUpToCase s t) :=
  inferInstanceAs (Decidable (s.map asciiLower = t.map asciiLower))

theorem tolower_eq_asciiLower (c : U8) : tolower c = asciiLower c := by
  rw [asciiLower]
  change tolower c = if 65 ≤ c.toNat ∧ c.toNat ≤ 90 then c + 32 else c
  rw [tolower]
  by_cases hupper : isupper c = true
  · rw [if_pos hupper, if_pos ((isupper_iff c).mp hupper)]
    rfl
  · rw [if_neg hupper, if_neg fun h => hupper ((isupper_iff c).mpr h)]

theorem tolower_eq_zero {c : U8} : tolower c = 0 ↔ c = 0 := by
  rw [← BitVec.toNat_inj, ← BitVec.toNat_inj, tolower_toNat]
  split
  · simp
    omega
  · rfl

theorem map_tolower (s : List U8) : s.map tolower = s.map asciiLower :=
  List.map_congr_left fun c _ => tolower_eq_asciiLower c

theorem map_tolower_nonzero {s : List U8} (hs : ∀ b ∈ s, b ≠ 0) : ∀ b ∈ s.map tolower, b ≠ 0 := by
  intro b hb
  obtain ⟨c, hc, rfl⟩ := List.mem_map.mp hb
  exact fun hzero => hs c hc (tolower_eq_zero.mp hzero)

/-- The difference of the first two bytes that differ, with a NUL behind each of the strings. -/
def byteDifference : List U8 → List U8 → Int
  | [], [] => 0
  | [], b :: _ => -b.toNat
  | a :: _, [] => a.toNat
  | a :: s, b :: t => if a = b then byteDifference s t else a.toNat - b.toNat

theorem byteDifference_eq_zero {s t : List U8} (hs : ∀ b ∈ s, b ≠ 0) (ht : ∀ b ∈ t, b ≠ 0) :
    byteDifference s t = 0 ↔ s = t := by
  induction s generalizing t with
  | nil =>
    cases t with
    | nil => exact iff_of_true rfl rfl
    | cons b t =>
      have hb := ht b List.mem_cons_self
      rw [ne_eq, ← BitVec.toNat_inj] at hb
      refine iff_of_false (fun hzero => hb ?_) (Ne.symm (List.cons_ne_nil b t))
      rw [byteDifference] at hzero
      simpa using hzero
  | cons a s ih =>
    obtain ⟨ha, hs⟩ := List.forall_mem_cons.mp hs
    cases t with
    | nil =>
      rw [ne_eq, ← BitVec.toNat_inj] at ha
      refine iff_of_false (fun hzero => ha ?_) (List.cons_ne_nil a s)
      rw [byteDifference] at hzero
      simpa using hzero
    | cons b t =>
      rw [byteDifference, List.cons.injEq]
      by_cases heq : a = b
      · rw [if_pos heq, ih hs (List.forall_mem_cons.mp ht).2, and_iff_right heq]
      · rw [if_neg heq]
        refine iff_of_false (fun hzero => heq ?_) fun h => heq h.1
        rw [← BitVec.toNat_inj]
        omega

theorem strcasecmp_eq {m : Memory} {p : Nat} {s t : List U8} (hs : m.HasString p s)
    (ht : ∀ b ∈ t, b ≠ 0) :
    strcasecmp m p t = some (byteDifference (s.map tolower) (t.map tolower)) := by
  induction t generalizing p s with
  | nil =>
    -- the NUL of `s2` is no other byte in lower case
    have hstop : ¬ (m.bytes p ≠ 0 ∧ tolower (m.bytes p) = tolower 0) := fun h =>
      h.1 (tolower_eq_zero.mp h.2)
    rw [strcasecmp, if_neg hstop]
    cases s with
    | nil =>
      rw [show m.bytes p = 0 from hs]
      rfl
    | cons a s =>
      rw [hs.1]
      exact congrArg some (Int.sub_zero _)
  | cons b t ih =>
    obtain ⟨hb, ht⟩ := List.forall_mem_cons.mp ht
    rw [strcasecmp]
    cases s with
    | nil =>
      have hnul : m.bytes p = 0 := hs
      rw [if_neg fun h => h.1 hnul, hnul]
      exact congrArg some (Int.zero_sub _)
    | cons a s =>
      obtain ⟨ha, hne, hrest⟩ := hs
      rw [ha, List.map_cons, List.map_cons, byteDifference]
      by_cases heq : tolower a = tolower b
      · rw [if_pos ⟨hne, heq⟩, if_pos heq]
        exact ih hrest ht
      · rw [if_neg fun h => heq h.2, if_neg heq]

theorem strcasecmp_iff {m : Memory} {p : Nat} {s t : List U8} (hs : m.HasString p s)
    (ht : ∀ b ∈ t, b ≠ 0) :
    ∃ order, strcasecmp m p t = some order ∧ (order = 0 ↔ EqUpToCase s t) := by
  refine ⟨_, strcasecmp_eq hs ht, ?_⟩
  rw [byteDifference_eq_zero (map_tolower_nonzero hs.nonzero) (map_tolower_nonzero ht), map_tolower,
    map_tolower]
  rfl

end JarJar.Libc
