import Mathlib.Algebra.Group.Nat.Defs
import Mathlib.Data.Nat.Basic

/- Words as the bytes they have in memory, the lowest first. `byteOf x k` is byte `k`
   of `x`, and `bytesFrom` lists some of them; bytes appended, the highest first, are a
   word again. `Spells` says so for any width: bit `8 * k + r` of the word is bit `r` of
   byte `k`. -/
namespace LittleEndian

/-- Byte `k` of a word. -/
def byteOf {w : Nat} (x : BitVec w) (k : Nat) : BitVec 8 := (x >>> (8 * k)).setWidth 8

/-- So many bytes of a word from byte `k` on. -/
def bytesFrom {w : Nat} (x : BitVec w) : (k n : Nat) → List (BitVec 8)
  | _, 0 => []
  | k, n + 1 => byteOf x k :: bytesFrom x (k + 1) n

def bytes32 (x : BitVec 32) : List (BitVec 8) := bytesFrom x 0 4

def bytes64 (x : BitVec 64) : List (BitVec 8) := bytesFrom x 0 8

/-- The word with the given bytes. -/
def word32 (b : Nat → BitVec 8) : BitVec 32 := b 3 ++ b 2 ++ b 1 ++ b 0

def word64 (b : Nat → BitVec 8) : BitVec 64 :=
  b 7 ++ b 6 ++ b 5 ++ b 4 ++ b 3 ++ b 2 ++ b 1 ++ b 0

variable {w n k r : Nat} {x y : BitVec w} {b b' : Nat → BitVec 8}

@[simp] theorem length_bytesFrom : (bytesFrom x k n).length = n := by
  induction n generalizing k with
  | zero => rfl
  | succ n ih => rw [bytesFrom, List.length_cons, ih]

theorem bytesFrom_getD {j : Nat} (hj : j < n) : (bytesFrom x k n).getD j 0 = byteOf x (k + j) := by
  induction n generalizing k j with
  | zero => exact absurd hj (Nat.not_lt_zero j)
  | succ n ih =>
    cases j with
    | zero => rfl
    | succ j =>
      rw [bytesFrom, List.getD_cons_succ, ih (Nat.lt_of_succ_lt_succ hj), Nat.add_right_comm,
        Nat.add_assoc]

theorem byteOf_getLsbD (x : BitVec w) (hr : r < 8) :
    (byteOf x k).getLsbD r = x.getLsbD (8 * k + r) := by
  rw [byteOf, BitVec.getLsbD_setWidth, BitVec.getLsbD_ushiftRight, decide_eq_true hr, Bool.true_and]

/-- The first `n` bytes of a word. -/
def Spells (x : BitVec w) (n : Nat) (b : Nat → BitVec 8) : Prop :=
  ∀ k < n, ∀ r < 8, x.getLsbD (8 * k + r) = (b k).getLsbD r

theorem spells_byte : Spells (b 0) 1 b := by
  intro k hk r _
  obtain rfl : k = 0 := by omega
  rw [Nat.mul_zero, Nat.zero_add]

theorem Spells.append (h : Spells x n fun k => b (k + 1)) : Spells (x ++ b 0) (n + 1) b := by
  intro k hk r hr
  rw [BitVec.getLsbD_append]
  cases k with
  | zero => rw [Nat.mul_zero, Nat.zero_add, if_pos hr]
  | succ k =>
    rw [if_neg (by omega), show 8 * (k + 1) + r - 8 = 8 * k + r by omega]
    exact h k (by omega) r hr

theorem Spells.byteOf (h : Spells x n b) (hk : k < n) : byteOf x k = b k := by
  apply BitVec.eq_of_getLsbD_eq
  intro r hr
  rw [byteOf_getLsbD x hr, h k hk r hr]

theorem Spells.eq (hw : w = 8 * n) (h : Spells x n b)
    (hb : ∀ k, k < n → b k = LittleEndian.byteOf y k) : x = y := by
  apply BitVec.eq_of_getLsbD_eq
  intro j hj
  obtain ⟨k, r, hk, hr, rfl⟩ : ∃ k r, k < n ∧ r < 8 ∧ j = 8 * k + r :=
    ⟨j / 8, j % 8, by omega, by omega, by omega⟩
  rw [h k hk r hr, hb k hk, byteOf_getLsbD y hr]

theorem word32_spells : Spells (word32 b) 4 b := spells_byte.append.append.append

theorem word64_spells : Spells (word64 b) 8 b :=
  spells_byte.append.append.append.append.append.append.append

end LittleEndian
