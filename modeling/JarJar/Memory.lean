import JarJar.Types

/- Memory as the C library sees it: bytes at addresses, with the strings they spell.

   Correspondence (C ↔ Lean):
     `*p`, `*p = b` for a `char* p`   ↔ `Memory.load`, `Memory.store`
     the string a pointer points to   ↔ `Memory.HasString`
     a text stored byte by byte       ↔ `Memory.storeAll`
   `Memory.touched` is not in the source: it lists the addresses read and written. -/
namespace JarJar.Libc

structure Memory where
  bytes : Nat → U8
  touched : List Nat

namespace Memory

def load (m : Memory) (p : Nat) : U8 × Memory :=
  (m.bytes p, { m with touched := p :: m.touched })

def store (m : Memory) (p : Nat) (b : U8) : Memory where
  bytes x := if x = p then b else m.bytes x
  touched := p :: m.touched

/-- The bytes from `p` on spell `s`, with a NUL behind it and none in it. -/
def HasString (m : Memory) (p : Nat) : List U8 → Prop
  | [] => m.bytes p = 0
  | b :: s => m.bytes p = b ∧ b ≠ 0 ∧ m.HasString (p + 1) s

instance decidableHasString (m : Memory) (p : Nat) : (s : List U8) → Decidable (m.HasString p s)
  | [] => inferInstanceAs (Decidable (m.bytes p = 0))
  | b :: s =>
    have := decidableHasString m (p + 1) s
    inferInstanceAs (Decidable (m.bytes p = b ∧ b ≠ 0 ∧ m.HasString (p + 1) s))

variable {m m' : Memory} {p : Nat} {s t : List U8}

theorem mem_load_touched {x : Nat} : x ∈ (m.load p).2.touched ↔ x = p ∨ x ∈ m.touched :=
  List.mem_cons

theorem mem_store_touched {x : Nat} {b : U8} :
    x ∈ (m.store p b).touched ↔ x = p ∨ x ∈ m.touched := List.mem_cons

theorem mem_copied_touched {x d : Nat} {b : U8} :
    x ∈ ((m.load p).2.store d b).touched ↔ x = d ∨ x = p ∨ x ∈ m.touched := by
  rw [mem_store_touched, mem_load_touched]

theorem HasString.unique (hs : m.HasString p s) (ht : m.HasString p t) : s = t := by
  induction s generalizing p t with
  | nil =>
    cases t with
    | nil => rfl
    | cons b t => exact absurd (ht.1.symm.trans hs) ht.2.1
  | cons a s ih =>
    cases t with
    | nil => exact absurd (hs.1.symm.trans ht) hs.2.1
    | cons b t => rw [← hs.1, ← ht.1, ih hs.2.2 ht.2.2]

theorem HasString.getD (hs : m.HasString p s) {j : Nat} (hj : j ≤ s.length) :
    m.bytes (p + j) = s.getD j 0 := by
  induction s generalizing p j with
  | nil =>
    obtain rfl : j = 0 := Nat.le_zero.mp hj
    exact hs
  | cons b s ih =>
    cases j with
    | zero => exact hs.1
    | succ j =>
      have hrest := ih hs.2.2 (Nat.le_of_succ_le_succ hj)
      rwa [Nat.add_right_comm] at hrest

theorem HasString.nonzero (hs : m.HasString p s) : ∀ b ∈ s, b ≠ 0 := by
  induction s generalizing p with
  | nil => exact fun b hb => absurd hb List.not_mem_nil
  | cons b s ih => exact List.forall_mem_cons.mpr ⟨hs.2.1, ih hs.2.2⟩

theorem hasString_append (hne : ∀ b ∈ s, b ≠ 0)
    (hs : ∀ i < s.length, m.bytes (p + i) = s.getD i 0) (ht : m.HasString (p + s.length) t) :
    m.HasString p (s ++ t) := by
  induction s generalizing p with
  | nil => exact ht
  | cons b s ih =>
    obtain ⟨hb, hne⟩ := List.forall_mem_cons.mp hne
    rw [List.length_cons] at hs ht
    refine ⟨hs 0 (Nat.zero_lt_succ _), hb, ih hne (fun i hi => ?_) ?_⟩
    · have hbyte := hs (i + 1) (Nat.succ_lt_succ hi)
      rwa [Nat.add_comm i, ← Nat.add_assoc, Nat.add_comm 1] at hbyte
    · rwa [Nat.add_assoc, Nat.add_comm 1]

theorem hasString_of_getD (hne : ∀ b ∈ s, b ≠ 0)
    (hs : ∀ i < s.length, m.bytes (p + i) = s.getD i 0) (hnul : m.bytes (p + s.length) = 0) :
    m.HasString p s := by
  have hstring : m.HasString p (s ++ []) := hasString_append hne hs hnul
  rwa [List.append_nil] at hstring

theorem hasString_getD (hne : ∀ b ∈ s, b ≠ 0) :
    (Memory.mk (fun x => s.getD x 0) []).HasString 0 s := by
  apply hasString_of_getD hne
  · intro i _
    rw [Nat.zero_add]
  · rw [Nat.zero_add]
    simp

theorem HasString.drop (hs : m.HasString p s) {n : Nat} (hn : n ≤ s.length) :
    m.HasString (p + n) (s.drop n) := by
  induction n generalizing p s with
  | zero => exact hs
  | succ n ih =>
    cases s with
    | nil => exact absurd hn (Nat.not_succ_le_zero n)
    | cons b s =>
      have hrest := ih hs.2.2 (Nat.le_of_succ_le_succ hn)
      rwa [Nat.add_assoc, Nat.add_comm 1] at hrest

theorem HasString.frame (hs : m.HasString p s)
    (heq : ∀ x, p ≤ x → x ≤ p + s.length → m'.bytes x = m.bytes x) : m'.HasString p s := by
  induction s generalizing p with
  | nil => exact (heq p (Nat.le_refl p) (Nat.le_refl p)).trans hs
  | cons b s ih =>
    refine ⟨(heq p (Nat.le_refl p) (Nat.le_add_right p _)).trans hs.1, hs.2.1, ih hs.2.2 ?_⟩
    intro x hx hx'
    rw [List.length_cons] at heq
    exact heq x (by omega) (by omega)

end Memory

/-! ## What a piece of the program touches -/

/-- Getting from `m` to `m'` read and wrote nothing outside of the `len` bytes at `lo`. -/
structure Touches (lo len : Nat) (m m' : Memory) : Prop where
  outside : ∀ x, x < lo ∨ lo + len ≤ x → m'.bytes x = m.bytes x
  touched : ∀ x ∈ m'.touched, x ∈ m.touched ∨ (lo ≤ x ∧ x < lo + len)

namespace Touches
variable {m m₁ m₂ : Memory} {lo len p : Nat}

theorem refl : Touches lo len m m := ⟨fun _ _ => rfl, fun _ hx => Or.inl hx⟩

theorem trans (h₁ : Touches lo len m m₁) (h₂ : Touches lo len m₁ m₂) : Touches lo len m m₂ := by
  refine ⟨fun x hx => (h₂.outside x hx).trans (h₁.outside x hx), fun x hx => ?_⟩
  obtain hold | hin := h₂.touched x hx
  · exact h₁.touched x hold
  · exact Or.inr hin

theorem widen {lo' len' : Nat} (h : Touches lo len m m₁) (hlo : lo' ≤ lo)
    (hhi : lo + len ≤ lo' + len') : Touches lo' len' m m₁ := by
  refine ⟨fun x hx => h.outside x (by omega), fun x hx => ?_⟩
  obtain hold | hin := h.touched x hx
  · exact Or.inl hold
  · exact Or.inr (by omega)

theorem load (hp : lo ≤ p ∧ p < lo + len) : Touches lo len m (m.load p).2 := by
  refine ⟨fun _ _ => rfl, fun x hx => ?_⟩
  obtain rfl | hold := Memory.mem_load_touched.mp hx
  · exact Or.inr hp
  · exact Or.inl hold

theorem store (hp : lo ≤ p ∧ p < lo + len) (b : U8) : Touches lo len m (m.store p b) := by
  refine ⟨fun x hx => if_neg (by omega), fun x hx => ?_⟩
  obtain rfl | hold := Memory.mem_store_touched.mp hx
  · exact Or.inr hp
  · exact Or.inl hold

end Touches

/-- Getting from `m` to `m'` wrote nothing and read no other addresses than those of `P`. -/
structure ReadsOnly (P : Nat → Prop) (m m' : Memory) : Prop where
  bytes : m'.bytes = m.bytes
  touched : ∀ x ∈ m'.touched, x ∈ m.touched ∨ P x

namespace ReadsOnly
variable {P Q : Nat → Prop} {m m₁ m₂ : Memory} {p q : Nat} {s : List U8}

theorem refl : ReadsOnly P m m := ⟨rfl, fun _ hx => Or.inl hx⟩

theorem trans (h₁ : ReadsOnly P m m₁) (h₂ : ReadsOnly P m₁ m₂) : ReadsOnly P m m₂ := by
  refine ⟨h₂.bytes.trans h₁.bytes, fun x hx => ?_⟩
  obtain hold | hin := h₂.touched x hx
  · exact h₁.touched x hold
  · exact Or.inr hin

theorem mono (h : ReadsOnly P m m₁) (himp : ∀ x, P x → Q x) : ReadsOnly Q m m₁ :=
  ⟨h.bytes, fun x hx => (h.touched x hx).imp_right (himp x)⟩

theorem load (hp : P p) : ReadsOnly P m (m.load p).2 := by
  refine ⟨rfl, fun x hx => ?_⟩
  obtain rfl | hold := Memory.mem_load_touched.mp hx
  · exact Or.inr hp
  · exact Or.inl hold

theorem hasString (h : ReadsOnly P m m₁) (hs : m.HasString q s) : m₁.HasString q s :=
  hs.frame fun x _ _ => congrFun h.bytes x

end ReadsOnly

/-! ## Texts that are stored -/

namespace Memory

/-- A text stored from `p` on, one byte after the other. -/
def storeAll (m : Memory) (p : Nat) : List U8 → Memory
  | [] => m
  | b :: text => (m.store p b).storeAll (p + 1) text

variable {m : Memory} {p x : Nat} {s t : List U8}

theorem storeAll_append (m : Memory) (p : Nat) (s t : List U8) :
    m.storeAll p (s ++ t) = (m.storeAll p s).storeAll (p + s.length) t := by
  induction s generalizing m p with
  | nil => rfl
  | cons b s ih =>
    rw [List.cons_append, storeAll, storeAll, ih, List.length_cons, Nat.add_assoc,
      Nat.add_comm 1 s.length]

theorem storeAll_bytes (m : Memory) (p : Nat) (s : List U8) (x : Nat) :
    (m.storeAll p s).bytes x =
      if p ≤ x ∧ x < p + s.length then s.getD (x - p) 0 else m.bytes x := by
  induction s generalizing m p with
  | nil => rw [if_neg (by simp), storeAll]
  | cons b s ih =>
    rw [storeAll, ih, List.length_cons]
    by_cases hfirst : x = p
    · subst hfirst
      rw [if_neg (by omega), if_pos (by omega), Nat.sub_self]
      exact if_pos rfl
    · by_cases hin : p ≤ x ∧ x < p + (s.length + 1)
      · rw [if_pos (by omega), if_pos hin, show x - p = x - (p + 1) + 1 by omega,
          List.getD_cons_succ]
      · rw [if_neg (by omega), if_neg hin]
        exact if_neg hfirst

theorem mem_storeAll_touched :
    x ∈ (m.storeAll p s).touched ↔ x ∈ m.touched ∨ (p ≤ x ∧ x < p + s.length) := by
  induction s generalizing m p with
  | nil =>
    rw [storeAll, List.length_nil]
    exact ⟨Or.inl, fun h => h.resolve_right (by omega)⟩
  | cons b s ih =>
    rw [storeAll, ih, mem_store_touched, List.length_cons]
    constructor
    · rintro ((rfl | hold) | hin)
      · exact Or.inr (by omega)
      · exact Or.inl hold
      · exact Or.inr (by omega)
    · rintro (hold | hin)
      · exact Or.inl (Or.inr hold)
      · by_cases hfirst : x = p
        · exact Or.inl (Or.inl hfirst)
        · exact Or.inr (by omega)

theorem storeAll_outside (h : x < p ∨ p + s.length ≤ x) :
    (m.storeAll p s).bytes x = m.bytes x := by
  rw [storeAll_bytes, if_neg (by omega)]

theorem storeAll_inside {i : Nat} (hi : i < s.length) :
    (m.storeAll p s).bytes (p + i) = s.getD i 0 := by
  rw [storeAll_bytes, if_pos (by omega), Nat.add_sub_cancel_left]

theorem storeAll_touches (m : Memory) (p : Nat) (s : List U8) :
    Touches p s.length m (m.storeAll p s) :=
  ⟨fun _ hx => storeAll_outside hx, fun _ hx => mem_storeAll_touched.mp hx⟩

/-- What is stored behind a NUL is no part of the string. -/
theorem storeAll_hasString (m : Memory) (p : Nat) (hne : ∀ b ∈ s, b ≠ 0) :
    (m.storeAll p (s ++ 0 :: t)).HasString p s := by
  apply hasString_of_getD hne
  · intro i hi
    rw [storeAll_inside (by rw [List.length_append]; omega), List.getD_eq_getElem?_getD,
      List.getElem?_append_left hi, List.getD_eq_getElem?_getD]
  · rw [storeAll_inside (by rw [List.length_append, List.length_cons]; omega)]
    simp

theorem HasString.extend {m' : Memory} (hs : m.HasString p s)
    (hsame : ∀ x, p ≤ x → x < p + s.length → m'.bytes x = m.bytes x)
    (ht : m'.HasString (p + s.length) t) : m'.HasString p (s ++ t) := by
  refine hasString_append hs.nonzero (fun i hi => ?_) ht
  rw [hsame _ (Nat.le_add_right p i) (Nat.add_lt_add_left hi p), hs.getD (Nat.le_of_lt hi)]

end Memory

end JarJar.Libc
