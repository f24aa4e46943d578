import JarJar.Memory

/- Blocks of memory that are copied to another place. The ranges may overlap: what a byte is
   copied from must not have been written before, and `memmove` chooses the direction in which
   it has not.

   Correspondence (C ↔ Lean):
     `*d = *s`                              ↔ `copyByte`
     `while (n--) *d++ = *s++`              ↔ `copyUp`, also the whole of `memcpy`
     `while (n--) *--d = *--s`              ↔ `copyDown`, from `d + n` and `s + n`
     `memmove`                              ↔ `memmove`
   Addresses are natural numbers: a range lies inside of the address space. -/
namespace JarJar.Libc

def copyByte (d s : Nat) (m : Memory) : Memory :=
  let (b, m) := m.load s
  m.store d b

def copyUp : Nat → Nat → Nat → Memory → Memory
  | _, _, 0, m => m
  | d, s, n + 1, m => copyUp (d + 1) (s + 1) n (copyByte d s m)

def copyDown : Nat → Nat → Nat → Memory → Memory
  | _, _, 0, m => m
  | d, s, n + 1, m => copyDown d s n (copyByte (d + n) (s + n) m)

def memmove (dest src n : Nat) (m : Memory) : Memory :=
  if dest < src then copyUp dest src n m else copyDown dest src n m

/-! ## One byte -/

section
variable {d s n i x : Nat} {m : Memory}

theorem copyByte_self (d s : Nat) (m : Memory) : (copyByte d s m).bytes d = m.bytes s := if_pos rfl

theorem copyByte_of_ne (hx : x ≠ d) : (copyByte d s m).bytes x = m.bytes x := if_neg hx

theorem mem_copyByte_touched {d' s' : Nat} (hd : d ≤ d' ∧ d' < d + n) (hs : s ≤ s' ∧ s' < s + n)
    (hx : x ∈ (copyByte d' s' m).touched) :
    x ∈ m.touched ∨ (d ≤ x ∧ x < d + n) ∨ (s ≤ x ∧ x < s + n) := by
  obtain rfl | rfl | hold := Memory.mem_copied_touched.mp hx
  · exact Or.inr (Or.inl hd)
  · exact Or.inr (Or.inr hs)
  · exact Or.inl hold

/-! ## Upwards -/

theorem copyUp_outside (d s n : Nat) (m : Memory) (hx : x < d ∨ d + n ≤ x) :
    (copyUp d s n m).bytes x = m.bytes x := by
  induction n generalizing d s m with
  | zero => rfl
  | succ n ih => rw [copyUp, ih _ _ _ (by omega), copyByte_of_ne (by omega)]

/-- A byte arrives unless it stands where an earlier one was copied to. -/
theorem copyUp_inside (d s : Nat) (m : Memory) (hi : i < n) (hintact : s + i < d ∨ d ≤ s) :
    (copyUp d s n m).bytes (d + i) = m.bytes (s + i) := by
  induction n generalizing d s m i with
  | zero => exact absurd hi (Nat.not_lt_zero i)
  | succ n ih =>
    rw [copyUp]
    cases i with
    | zero =>
      -- the rest of the loop is above
      show (copyUp (d + 1) (s + 1) n (copyByte d s m)).bytes d = m.bytes s
      rw [copyUp_outside _ _ _ _ (Or.inl (Nat.lt_add_one d))]
      exact copyByte_self d s m
    | succ i =>
      have hrest := ih (d + 1) (s + 1) (copyByte d s m) (Nat.lt_of_succ_lt_succ hi) (by omega)
      rw [Nat.add_assoc, Nat.add_comm 1 i, Nat.add_assoc, Nat.add_comm 1 i] at hrest
      rw [hrest, copyByte_of_ne (by omega)]

theorem copyUp_touched (d s : Nat) (m : Memory) (hx : x ∈ (copyUp d s n m).touched) :
    x ∈ m.touched ∨ (d ≤ x ∧ x < d + n) ∨ (s ≤ x ∧ x < s + n) := by
  induction n generalizing d s m with
  | zero => exact Or.inl hx
  | succ n ih =>
    obtain hfirst | hin := ih (d + 1) (s + 1) (copyByte d s m) hx
    · exact mem_copyByte_touched (by omega) (by omega) hfirst
    · exact Or.inr (hin.imp (fun h => by omega) fun h => by omega)

/-! ## Downwards -/

theorem copyDown_outside (d s n : Nat) (m : Memory) (hx : x < d ∨ d + n ≤ x) :
    (copyDown d s n m).bytes x = m.bytes x := by
  induction n generalizing m with
  | zero => rfl
  | succ n ih => rw [copyDown, ih _ (by omega), copyByte_of_ne (by omega)]

/-- When the source is not above, nothing that is still to be read is written. -/
theorem copyDown_inside (d s : Nat) (m : Memory) (hi : i < n) (hbelow : s ≤ d) :
    (copyDown d s n m).bytes (d + i) = m.bytes (s + i) := by
  induction n generalizing m with
  | zero => exact absurd hi (Nat.not_lt_zero i)
  | succ n ih =>
    rw [copyDown]
    by_cases hlast : i = n
    · -- the rest of the loop is below
      rw [hlast, copyDown_outside _ _ _ _ (Or.inr (Nat.le_refl (d + n)))]
      exact copyByte_self _ _ m
    · rw [ih _ (by omega), copyByte_of_ne (by omega)]

theorem copyDown_touched (d s : Nat) (m : Memory) (hx : x ∈ (copyDown d s n m).touched) :
    x ∈ m.touched ∨ (d ≤ x ∧ x < d + n) ∨ (s ≤ x ∧ x < s + n) := by
  induction n generalizing m with
  | zero => exact Or.inl hx
  | succ n ih =>
    obtain hfirst | hin := ih (copyByte (d + n) (s + n) m) hx
    · exact mem_copyByte_touched (by omega) (by omega) hfirst
    · exact Or.inr (hin.imp (fun h => by omega) fun h => by omega)

end

/-- However the two ranges lie, every byte of the destination is what its byte of the source was
before, no other byte has changed, and no other than those of the two ranges was touched. -/
theorem memmove_moves (dest src n : Nat) (m : Memory) :
    (∀ i < n, (memmove dest src n m).bytes (dest + i) = m.bytes (src + i)) ∧
      (∀ x, x < dest ∨ dest + n ≤ x → (memmove dest src n m).bytes x = m.bytes x) ∧
      ∀ x ∈ (memmove dest src n m).touched,
        x ∈ m.touched ∨ (dest ≤ x ∧ x < dest + n) ∨ (src ≤ x ∧ x < src + n) := by
  rw [memmove]
  split
  · next hlt =>
    refine ⟨fun i hi => ?_, fun x hx => ?_, fun x hx => ?_⟩
    · exact copyUp_inside dest src m hi (Or.inr (Nat.le_of_lt hlt))
    · exact copyUp_outside dest src n m hx
    · exact copyUp_touched dest src m hx
  · next hge =>
    refine ⟨fun i hi => ?_, fun x hx => ?_, fun x hx => ?_⟩
    · exact copyDown_inside dest src m hi (Nat.le_of_not_lt hge)
    · exact copyDown_outside dest src n m hx
    · exact copyDown_touched dest src m hx

end JarJar.Libc
