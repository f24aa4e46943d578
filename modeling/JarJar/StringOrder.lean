import JarJar.Strings

/- The order of strings. The four comparisons of the C library are one: the difference of the
   first two bytes that differ, as unsigned numbers, with the NUL as the last byte of a string.

   Correspondence (C ↔ Lean):
     `strcmp`      ↔ `strcmp`, `none` when the turns run out
     `strncmp`     ↔ `strncmp`
     `memcmp`      ↔ `memcmp`
   `strcasecmp` is that of `Strings`, with its second string given by its bytes. The order of
   `U8` is that of unsigned numbers, and the order of lists of them is lexicographic. -/
namespace JarJar.Libc

def strcmp (m : Memory) : Nat → Nat → Nat → Option Int
  | 0, _, _ => none
  | fuel + 1, s1, s2 =>
    -- the same as `char` or as `unsigned char`
    if m.bytes s1 ≠ 0 ∧ m.bytes s1 = m.bytes s2 then strcmp m fuel (s1 + 1) (s2 + 1)
    else some ((m.bytes s1).toNat - (m.bytes s2).toNat)

def strncmp (m : Memory) : Nat → Nat → Nat → Int
  | _, _, 0 => 0
  | s1, s2, n + 1 =>
    if m.bytes s1 ≠ 0 ∧ m.bytes s1 = m.bytes s2 then strncmp m (s1 + 1) (s2 + 1) n
    else (m.bytes s1).toNat - (m.bytes s2).toNat

def memcmp (m : Memory) : Nat → Nat → Nat → Int
  | _, _, 0 => 0
  | p1, p2, n + 1 =>
    if m.bytes p1 ≠ m.bytes p2 then (m.bytes p1).toNat - (m.bytes p2).toNat
    else memcmp m (p1 + 1) (p2 + 1) n

/-! ## The difference -/

section
variable {s t u : List U8}

theorem byteDifference_swap (s t : List U8) : byteDifference t s = -byteDifference s t := by
  induction s generalizing t with
  | nil => cases t with
    | nil => rfl
    | cons b t => exact (Int.neg_neg _).symm
  | cons a s ih => cases t with
    | nil => rfl
    | cons b t =>
      rw [byteDifference, byteDifference]
      by_cases heq : a = b
      · rw [if_pos heq, if_pos heq.symm, ih]
      · rw [if_neg heq, if_neg (Ne.symm heq), Int.neg_sub]

theorem byteDifference_neg (ht : ∀ b ∈ t, b ≠ 0) : byteDifference s t < 0 ↔ s < t := by
  induction s generalizing t with
  | nil => cases t with
    | nil => exact iff_of_false (Int.lt_irrefl 0) (List.not_lt_nil [])
    | cons b t =>
      have hb := ht b List.mem_cons_self
      rw [ne_eq, ← BitVec.toNat_inj] at hb
      refine iff_of_true ?_ (List.nil_lt_cons b t)
      rw [byteDifference]
      simp at hb
      omega
  | cons a s ih => cases t with
    | nil =>
      refine iff_of_false ?_ (List.not_lt_nil _)
      rw [byteDifference]
      omega
    | cons b t =>
      rw [byteDifference, List.cons_lt_cons_iff]
      -- the first bytes that differ decide in both orders
      by_cases heq : a = b
      · rw [if_pos heq, ih (List.forall_mem_cons.mp ht).2, and_iff_right heq, heq]
        exact (or_iff_right (BitVec.lt_irrefl b)).symm
      · rw [if_neg heq, or_iff_left fun h => heq h.1, BitVec.lt_def]
        omega

/-- What the sign of a comparison says. -/
structure Orders (s t : List U8) (d : Int) : Prop where
  neg : d < 0 ↔ s < t
  zero : d = 0 ↔ s = t
  pos : 0 < d ↔ t < s

theorem byteDifference_orders (hs : ∀ b ∈ s, b ≠ 0) (ht : ∀ b ∈ t, b ≠ 0) :
    Orders s t (byteDifference s t) where
  neg := byteDifference_neg ht
  zero := byteDifference_eq_zero hs ht
  pos := by
    rw [← byteDifference_neg hs, byteDifference_swap]
    omega

theorem Orders.nonpos_iff {d : Int} (h : Orders s t d) : d ≤ 0 ↔ s ≤ t := by
  rw [← Int.not_lt, h.pos]
  exact List.not_lt

theorem Orders.trans {d d' d'' : Int} (h : Orders s t d) (h' : Orders t u d') (h'' : Orders s u d'')
    (hd : d ≤ 0) (hd' : d' ≤ 0) : d'' ≤ 0 :=
  h''.nonpos_iff.mpr (List.le_trans (h.nonpos_iff.mp hd) (h'.nonpos_iff.mp hd'))

end

/-! ## The loops -/

section
variable {m : Memory} {p q : Nat} {s t : List U8} {a : U8}

theorem Memory.HasString.headD (hs : m.HasString p s) : m.bytes p = s.headD 0 := by
  cases s with
  | nil => exact hs
  | cons b s => exact hs.1

theorem exists_cons_of_headD (hne : s.headD 0 ≠ 0) (heq : s.headD 0 = t.headD 0) :
    ∃ a s' t', s = a :: s' ∧ t = a :: t' := by
  cases s with
  | nil => exact absurd rfl hne
  | cons a s => cases t with
    | nil => exact absurd heq hne
    | cons b t =>
      obtain rfl : a = b := heq
      exact ⟨a, s, t, rfl, rfl⟩

theorem byteDifference_cons (a : U8) (s t : List U8) :
    byteDifference (a :: s) (a :: t) = byteDifference s t := if_pos rfl

theorem byteDifference_headD (hs : ∀ b ∈ s, b ≠ 0)
    (hstop : ¬ (s.headD 0 ≠ 0 ∧ s.headD 0 = t.headD 0)) :
    byteDifference s t = (s.headD 0).toNat - (t.headD 0).toNat := by
  cases s with
  | nil => cases t with
    | nil => rfl
    | cons b t => exact (Int.zero_sub _).symm
  | cons a s => cases t with
    | nil => exact (Int.sub_zero _).symm
    | cons b t =>
      have hne : a ≠ b := fun heq => hstop ⟨hs a List.mem_cons_self, heq⟩
      exact if_neg hne

theorem headD_take (s : List U8) (n : Nat) : (s.take (n + 1)).headD 0 = s.headD 0 := by
  cases s with
  | nil => rfl
  | cons a s => rfl

theorem strcmp_eq {fuel : Nat} (hs : m.HasString p s) (ht : m.HasString q t)
    (hfuel : s.length < fuel) : strcmp m fuel p q = some (byteDifference s t) := by
  induction fuel generalizing p q s t with
  | zero => exact absurd hfuel (Nat.not_lt_zero _)
  | succ fuel ih =>
    rw [strcmp, hs.headD, ht.headD]
    by_cases hgo : s.headD 0 ≠ 0 ∧ s.headD 0 = t.headD 0
    · obtain ⟨a, s, t, rfl, rfl⟩ := exists_cons_of_headD hgo.1 hgo.2
      rw [if_pos hgo, byteDifference_cons]
      exact ih hs.2.2 ht.2.2 (Nat.lt_of_succ_lt_succ hfuel)
    · rw [if_neg hgo, byteDifference_headD hs.nonzero hgo]

theorem strncmp_eq (hs : m.HasString p s) (ht : m.HasString q t) (n : Nat) :
    strncmp m p q n = byteDifference (s.take n) (t.take n) := by
  induction n generalizing p q s t with
  | zero => rfl
  | succ n ih =>
    rw [strncmp, hs.headD, ht.headD]
    by_cases hgo : s.headD 0 ≠ 0 ∧ s.headD 0 = t.headD 0
    · obtain ⟨a, s, t, rfl, rfl⟩ := exists_cons_of_headD hgo.1 hgo.2
      rw [if_pos hgo, List.take_succ_cons, List.take_succ_cons, byteDifference_cons]
      exact ih hs.2.2 ht.2.2
    · have hne : ∀ b ∈ s.take (n + 1), b ≠ 0 := fun b hb => hs.nonzero b (List.mem_of_mem_take hb)
      rw [if_neg hgo, byteDifference_headD hne (by rwa [headD_take, headD_take]), headD_take,
        headD_take]

/-- The bytes up to the NUL of the shorter string decide. -/
theorem memcmp_eq (hs : m.HasString p s) (ht : m.HasString q t) :
    memcmp m p q (min s.length t.length + 1) = byteDifference s t := by
  induction s generalizing p q t with
  | nil =>
    rw [List.length_nil, Nat.zero_min, memcmp, memcmp, ht.headD, show m.bytes p = 0 from hs,
      byteDifference_headD (fun b hb => absurd hb List.not_mem_nil) fun h => h.1 rfl]
    split
    · rfl
    · next hsame =>
      rw [← Decidable.of_not_not hsame]
      rfl
  | cons a s ih =>
    rw [memcmp, hs.headD, ht.headD]
    by_cases hsame : (a :: s).headD 0 = t.headD 0
    · obtain ⟨a, s, t, heq, rfl⟩ := exists_cons_of_headD (s := a :: s) hs.2.1 hsame
      obtain ⟨rfl, rfl⟩ := List.cons.inj heq
      rw [if_neg (not_not_intro hsame), byteDifference_cons, List.length_cons, List.length_cons,
        Nat.succ_min_succ]
      exact ih hs.2.2 ht.2.2
    · rw [if_pos hsame, byteDifference_headD hs.nonzero fun h => hsame h.2]

end

/-- The sign of `strcmp` is the lexicographic order of the strings, which is total; `strncmp` is
`strcmp` of the first bytes, `strcasecmp` that of the strings in lower case, and `memcmp` over
the shorter string and its NUL gives the same number. -/
theorem strcmp_orders {m : Memory} {p q r fuel : Nat} {a b c : List U8} (ha : m.HasString p a)
    (hb : m.HasString q b) (hc : m.HasString r c) (hfuel : max a.length b.length < fuel) :
    (∃ d, strcmp m fuel p q = some d ∧ Orders a b d ∧ strcmp m fuel q p = some (-d) ∧
      ∃ d', strcmp m fuel q r = some d' ∧ ∃ d'', strcmp m fuel p r = some d'' ∧
        (d ≤ 0 → d' ≤ 0 → d'' ≤ 0)) ∧
    (∀ n m' p' q', Memory.HasString m' p' (a.take n) → Memory.HasString m' q' (b.take n) →
      strcmp m' fuel p' q' = some (strncmp m p q n)) ∧
    (∀ m' p' q', Memory.HasString m' p' (a.map tolower) → Memory.HasString m' q' (b.map tolower) →
      strcmp m' fuel p' q' = strcasecmp m p b) ∧
    strcmp m fuel p q = some (memcmp m p q (min a.length b.length + 1)) := by
  have hfuela : a.length < fuel := by omega
  have hfuelb : b.length < fuel := by omega
  have hpq := strcmp_eq ha hb hfuela
  have hab := byteDifference_orders ha.nonzero hb.nonzero
  have hbc := byteDifference_orders hb.nonzero hc.nonzero
  have hac := byteDifference_orders ha.nonzero hc.nonzero
  refine ⟨⟨_, hpq, hab, ?_, _, strcmp_eq hb hc hfuelb, _, strcmp_eq ha hc hfuela, ?_⟩, ?_, ?_, ?_⟩
  · rw [strcmp_eq hb ha hfuelb, byteDifference_swap]
  · exact hab.trans hbc hac
  · intro n m' p' q' hp' hq'
    rw [strncmp_eq ha hb]
    apply strcmp_eq hp' hq'
    rw [List.length_take]
    omega
  · intro m' p' q' hp' hq'
    rw [strcasecmp_eq ha hb.nonzero]
    apply strcmp_eq hp' hq'
    rw [List.length_map]
    exact hfuela
  · rw [memcmp_eq ha hb]
    exact hpq

/-- `"a"`, `"aB"` and `"a\xff"`, whose last byte is negative as a `char`. -/
theorem strcmp_orders_three :
    let m : Memory := ⟨fun x => ([97, 0, 97, 66, 0, 97, 255] : List U8).getD x 0, []⟩
    ∃ d, strcmp m 3 2 5 = some d ∧ Orders [97, 66] [97, 255] d ∧ strcmp m 3 5 2 = some (-d) := by
  intro m
  have ha : m.HasString 2 [97, 66] := by decide
  have hb : m.HasString 5 [97, 255] := by decide
  have hc : m.HasString 0 [97] := by decide
  obtain ⟨d, hd, horders, hswap, -⟩ := (strcmp_orders ha hb hc (show 2 < 3 by decide)).1
  exact ⟨d, hd, horders, hswap⟩

end JarJar.Libc
