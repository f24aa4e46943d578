import JarJar.Types
import JarJar.JarfsMounts
import JarJar.Lib.LittleEndian
import Mathlib.Algebra.GroupWithZero.Nat

/- What the checksum of a superblock notices. `calculate_checksum` shifts the word
   by one place for each byte and never brings back what leaves it at the top, so a
   byte counts only as far as it is not yet shifted out: bit `b` of a byte with `k`
   bytes behind it ends at place `b + k` of the 64.

   Correspondence (C ↔ Lean):
     one turn of the loop of `calculate_checksum`        ↔ `absorb`
     the field `checksum`                                ↔ `Superblock.checksum`
     `calculate_checksum(&sb, sizeof(sb) - sizeof(u64))` ↔ `Superblock.computed` -/
namespace JarJar.Jarfs

/-! ## The fold -/

def absorb (checksum : U64) (b : U8) : U64 := (checksum <<< 1) ^^^ b.setWidth 64

theorem calculateChecksum_eq (data : List U8) : calculateChecksum data = data.foldl absorb 0 := rfl

section
variable {data : List U8} {i : Nat} {e : U8}

theorem absorb_xor (c d : U64) (b : U8) : absorb (c ^^^ d) b = absorb c b ^^^ (d <<< 1) := by
  rw [absorb, absorb, BitVec.shiftLeft_xor_distrib, BitVec.xor_assoc, BitVec.xor_comm (d <<< 1),
    ← BitVec.xor_assoc]

/-- A difference in the word moves up one place for each byte. -/
theorem foldl_absorb_xor (data : List U8) (c d : U64) :
    data.foldl absorb (c ^^^ d) = data.foldl absorb c ^^^ (d <<< data.length) := by
  induction data generalizing c d with
  | nil => simp
  | cons b data ih =>
    rw [List.foldl_cons, absorb_xor, ih, List.foldl_cons, List.length_cons,
      Nat.add_comm data.length 1, BitVec.shiftLeft_add]

theorem calculateChecksum_set (hi : i < data.length) :
    calculateChecksum (data.set i (data[i] ^^^ e)) =
      calculateChecksum data ^^^ (e.setWidth 64 <<< (data.length - (i + 1))) := by
  have hchanged (c : U64) (b : U8) : absorb c (b ^^^ e) = absorb c b ^^^ e.setWidth 64 := by
    rw [absorb, absorb, BitVec.setWidth_xor, BitVec.xor_assoc]
  have hsplit : calculateChecksum data =
      (data.drop (i + 1)).foldl absorb (absorb ((data.take i).foldl absorb 0) data[i]) := by
    rw [← List.foldl_cons, List.getElem_cons_drop, ← List.foldl_append, List.take_append_drop,
      calculateChecksum_eq]
  rw [hsplit, List.set_eq_take_append_cons_drop, if_pos hi, calculateChecksum_eq,
    List.foldl_append, List.foldl_cons, hchanged, foldl_absorb_xor, List.length_drop]

/-- A single bit is in the word until it is shifted out at the top. -/
theorem shifted_bit_eq_zero_iff (b : Fin 8) (k : Nat) :
    (BitVec.twoPow 8 b).setWidth 64 <<< k = 0 ↔ 64 ≤ b.val + k := by
  have hbits (j : Nat) : ((BitVec.twoPow 8 b).setWidth 64 <<< k).getLsbD j =
      (decide (j < 64) && decide (j = b.val + k)) := by
    rw [BitVec.getLsbD_shiftLeft, BitVec.getLsbD_setWidth, BitVec.getLsbD_twoPow]
    have hb := b.isLt
    rw [Bool.eq_iff_iff]
    simp only [Bool.and_eq_true, decide_eq_true_eq, Bool.not_eq_true', decide_eq_false_iff_not]
    omega
  refine ⟨fun hzero => ?_, fun hle => ?_⟩
  · by_contra hlt
    have hbit := hbits (b.val + k)
    rw [hzero] at hbit
    simp at hbit
    omega
  · apply BitVec.eq_of_getLsbD_eq
    intro j hj
    rw [hbits]
    simp
    omega

end

/-! ## The checksum of a superblock -/

namespace Superblock
variable {sb : Superblock}

/-- A superblock has a first byte, so numbers stand for its indices. -/
instance size_neZero : NeZero 120 := ⟨by decide⟩

/-- The bytes before the field `checksum`. -/
def checksummed (sb : Superblock) : List U8 := ((List.finRange 120).take 112).map sb

def computed (sb : Superblock) : U64 := calculateChecksum sb.checksummed

/-- The field `checksum`, at byte 112. -/
def checksum (sb : Superblock) : U64 :=
  sb 119 ++ sb 118 ++ sb 117 ++ sb 116 ++ sb 115 ++ sb 114 ++ sb 113 ++ sb 112

/-- The checksum stored is the one of the other fields. -/
def Matches (sb : Superblock) : Prop := sb.checksum = sb.computed

instance : Decidable sb.Matches := inferInstanceAs (Decidable (_ = _))

/-- One bit of one byte changed. -/
def flip (sb : Superblock) (i : Fin 120) (b : Fin 8) : Superblock :=
  Function.update sb i (sb i ^^^ BitVec.twoPow 8 b)

theorem checksummed_length : sb.checksummed.length = 112 := by simp [checksummed]

theorem checksummed_lt {j : Nat} (hj : j < sb.checksummed.length) : j < 120 := by
  rw [checksummed_length] at hj
  omega

theorem checksummed_getElem {j : Nat} (hj : j < sb.checksummed.length) :
    sb.checksummed[j] = sb ⟨j, checksummed_lt hj⟩ := by
  simp [checksummed]

theorem checksummed_flip (i : Fin 120) (b : Fin 8) :
    (sb.flip i b).checksummed = sb.checksummed.set i (sb i ^^^ BitVec.twoPow 8 b) := by
  apply List.ext_getElem
  · rw [List.length_set, checksummed_length, checksummed_length]
  · intro j hj hj'
    rw [List.getElem_set, checksummed_getElem, flip]
    by_cases hij : i.val = j
    · subst hij
      rw [if_pos rfl]
      exact Function.update_self _ _ _
    · rw [if_neg hij, checksummed_getElem]
      apply Function.update_of_ne
      intro heq
      exact hij (congrArg Fin.val heq).symm

theorem checksummed_congr {sb' : Superblock} (h : ∀ i : Fin 120, i.val < 112 → sb' i = sb i) :
    sb'.checksummed = sb.checksummed := by
  apply List.ext_getElem
  · rw [checksummed_length, checksummed_length]
  · intro j hj hj'
    rw [checksummed_getElem, checksummed_getElem]
    apply h
    rw [checksummed_length] at hj
    exact hj

theorem computed_flip {i : Fin 120} {b : Fin 8} (hi : i.val < 112) :
    (sb.flip i b).computed =
      sb.computed ^^^ ((BitVec.twoPow 8 b).setWidth 64 <<< (112 - (i.val + 1))) := by
  have hlt : i.val < sb.checksummed.length := by rw [checksummed_length]; exact hi
  have hbyte : sb.checksummed[i.val] = sb i := checksummed_getElem hlt
  rw [computed, checksummed_flip, ← hbyte, calculateChecksum_set hlt, checksummed_length]
  rfl

theorem computed_flip_eq_iff {i : Fin 120} {b : Fin 8} (hi : i.val < 112) :
    (sb.flip i b).computed = sb.computed ↔ 64 ≤ b.val + (111 - i.val) := by
  rw [computed_flip hi, show 112 - (i.val + 1) = 111 - i.val by omega, ← shifted_bit_eq_zero_iff]
  constructor
  · intro h
    have h' := congrArg (sb.computed ^^^ ·) h
    simpa [← BitVec.xor_assoc] using h'
  · intro h
    rw [h]
    exact BitVec.xor_zero

/-- Byte `k` of the field `checksum`. -/
def checksumByte (sb : Superblock) (k : Nat) : U8 := if h : k < 8 then sb ⟨112 + k, by omega⟩ else 0

theorem checksum_eq_word64 (sb : Superblock) :
    sb.checksum = LittleEndian.word64 sb.checksumByte := rfl

theorem checksum_congr {sb' : Superblock} (h : ∀ i : Fin 120, 112 ≤ i.val → sb' i = sb i) :
    sb'.checksum = sb.checksum := by
  rw [checksum, checksum, h 119 (by decide), h 118 (by decide), h 117 (by decide),
    h 116 (by decide), h 115 (by decide), h 114 (by decide), h 113 (by decide), h 112 (by decide)]

theorem flip_of_ne {i j : Fin 120} (b : Fin 8) (h : j.val ≠ i.val) : sb.flip i b j = sb j := by
  apply Function.update_of_ne
  intro heq
  exact h (congrArg Fin.val heq)

/-- A bit of the field itself changes the field and nothing the checksum is of. -/
theorem matches_flip_checksum {i : Fin 120} {b : Fin 8} (h : sb.Matches) (hi : 112 ≤ i.val) :
    ¬ (sb.flip i b).Matches := by
  have hsame : (sb.flip i b).computed = sb.computed := by
    rw [computed, computed, checksummed_congr fun j hj => flip_of_ne b (by omega)]
  intro hmatches
  have hstored : (sb.flip i b).checksum = sb.checksum := hmatches.trans (hsame.trans h.symm)
  have hi' := i.isLt
  have hbyte : ∀ sb : Superblock, sb.checksumByte (i.val - 112) = sb i := by
    intro sb
    rw [checksumByte, dif_pos (by omega)]
    congr 1
    exact Fin.ext (by simp; omega)
  rw [checksum_eq_word64, checksum_eq_word64] at hstored
  have hlt : i.val - 112 < 8 := by omega
  have heq : (sb.flip i b).checksumByte (i.val - 112) = sb.checksumByte (i.val - 112) := by
    calc (sb.flip i b).checksumByte (i.val - 112)
        = LittleEndian.byteOf (LittleEndian.word64 (sb.flip i b).checksumByte) (i.val - 112) :=
          (LittleEndian.word64_spells.byteOf hlt).symm
      _ = sb.checksumByte (i.val - 112) := by rw [hstored, LittleEndian.word64_spells.byteOf hlt]
  rw [hbyte, hbyte, flip, Function.update_self] at heq
  have hbit := congrArg (fun x => x.getLsbD b.val) heq
  simp at hbit

theorem matches_setChecksum (sb : Superblock) : (sb.setChecksum sb.computed).Matches := by
  have hsame : (sb.setChecksum sb.computed).computed = sb.computed := by
    have hbytes : (sb.setChecksum sb.computed).checksummed = sb.checksummed :=
      checksummed_congr fun i hi => if_neg (by omega)
    rw [computed, hbytes, ← computed]
  rw [Matches, hsame, checksum_eq_word64]
  apply LittleEndian.word64_spells.eq rfl
  intro k hk
  rw [checksumByte, dif_pos hk, setChecksum, if_pos (by simp), Nat.add_sub_cancel_left]
  rfl

end Superblock

/-! ## Single corrupted bits -/

/-- Changing a bit that the checksum is of changes the checksum exactly when at most
63 places are behind it, and only then, or in the field `checksum` itself, does a
superblock that matched stop matching. -/
theorem checksum_flip_iff (sb : Superblock) (b : Fin 8) :
    (∀ i : Fin 120, i.val < 112 →
      ((sb.flip i b).computed ≠ sb.computed ↔ b.val + (111 - i.val) < 64)) ∧
    (sb.Matches → ∀ i : Fin 120,
      (¬ (sb.flip i b).Matches ↔ 112 ≤ i.val ∨ b.val + (111 - i.val) < 64)) := by
  have hcomputed : ∀ i : Fin 120, i.val < 112 →
      ((sb.flip i b).computed ≠ sb.computed ↔ b.val + (111 - i.val) < 64) := by
    intro i hi
    rw [ne_eq, Superblock.computed_flip_eq_iff hi, not_le]
  refine ⟨hcomputed, fun hmatches i => ?_⟩
  by_cases hi : 112 ≤ i.val
  · exact ⟨fun _ => Or.inl hi, fun _ => Superblock.matches_flip_checksum hmatches hi⟩
  · have hlt : i.val < 112 := by omega
    have hstored : (sb.flip i b).checksum = sb.computed := by
      rw [← hmatches, Superblock.checksum_congr fun j hj => Superblock.flip_of_ne b (by omega)]
    rw [Superblock.Matches, hstored, ← ne_eq, ne_comm, hcomputed i hlt]
    exact ⟨Or.inr, fun h => h.resolve_left hi⟩

/-- The superblock of `blankDevice`, with its checksum. -/
def blankSuperblock : Superblock :=
  blankDevice.readSuperblock.2.setChecksum (Superblock.computed blankDevice.readSuperblock.2)

/-- A bit of the last field before the checksum. -/
theorem checksum_flip_iff_features :
    (blankSuperblock.flip 108 0).computed ≠ blankSuperblock.computed ∧
      ¬ (blankSuperblock.flip 108 0).Matches := by
  obtain ⟨hcomputed, hmatches⟩ := checksum_flip_iff blankSuperblock 0
  refine ⟨(hcomputed 108 (by decide)).mpr (by decide), ?_⟩
  exact (hmatches (Superblock.matches_setChecksum _) 108).mpr (Or.inr (by decide))

/-- The lowest bit of the field `block_count` does not change the checksum: the
superblock with one block more than the one that was checksummed still matches. -/
theorem checksum_misses_block_count :
    blankSuperblock.Matches ∧ (blankSuperblock.flip 16 0) 16 ≠ blankSuperblock 16 ∧
      (blankSuperblock.flip 16 0).computed = blankSuperblock.computed ∧
      (blankSuperblock.flip 16 0).Matches ∧
      ¬ ∀ (sb : Superblock) (i : Fin 120) (b : Fin 8), i.val < 112 →
        (sb.flip i b).computed ≠ sb.computed := by
  have hsame : (blankSuperblock.flip 16 0).computed = blankSuperblock.computed :=
    (Superblock.computed_flip_eq_iff (by decide)).mpr (by decide)
  refine ⟨Superblock.matches_setChecksum _, by decide +kernel, hsame, by decide +kernel, ?_⟩
  exact fun h => h blankSuperblock 16 0 (by decide) hsame

end JarJar.Jarfs
