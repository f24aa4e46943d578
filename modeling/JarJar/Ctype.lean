import JarJar.Types

/- Character classes. Every test of the C library looks a byte up in one table of
   flags.

   Correspondence (C ↔ Lean):
     `_U`, `_L`, `_D`, `_S`, `_P`, `_C`, `_X`   ↔ the constants of `Class`
     `ctype_table`                              ↔ `ctypeTable`
     `isspace`, `isdigit`, `isalpha`, `isupper` ↔ `isspace`, `isdigit`, `isalpha`, `isupper`
     `tolower`                                  ↔ `tolower`, of an `unsigned char` -/
namespace JarJar.Libc

namespace Class

def upper : U8 := 0x01
def lower : U8 := 0x02
def digit : U8 := 0x04
def space : U8 := 0x08
def punct : U8 := 0x10
def control : U8 := 0x20
def hex : U8 := 0x40

end Class

def ctypeTable : List U8 :=
  -- 0-31
  List.replicate 9 Class.control ++ List.replicate 5 (Class.control ||| Class.space) ++
    List.replicate 18 Class.control ++
  -- 32-64
  [Class.space] ++ List.replicate 15 Class.punct ++ List.replicate 10 (Class.digit ||| Class.hex) ++
    List.replicate 7 Class.punct ++
  -- 65-96
  List.replicate 6 (Class.upper ||| Class.hex) ++ List.replicate 20 Class.upper ++
    List.replicate 6 Class.punct ++
  -- 97-127
  List.replicate 6 (Class.lower ||| Class.hex) ++ List.replicate 20 Class.lower ++
    List.replicate 5 Class.punct ++
  -- 128-255
  List.replicate 128 0

/-- Whether `c` has one of the flags. -/
def hasClass (flags c : U8) : Bool := ctypeTable.getD c.toNat 0 &&& flags != 0

def isspace (c : U8) : Bool := hasClass Class.space c

def isdigit (c : U8) : Bool := hasClass Class.digit c

def isalpha (c : U8) : Bool := hasClass (Class.upper ||| Class.lower) c

def isupper (c : U8) : Bool := hasClass Class.upper c

def tolower (c : U8) : U8 := if isupper c then c + (0x61 - 0x41) else c

/-- What holds of every entry of the table holds of the class of every byte. -/
theorem ctypeTable_forall {P : Nat → U8 → Bool}
    (h : (ctypeTable.zipIdx.all fun entry => P entry.2 entry.1) = true) (c : U8) :
    P c.toNat (ctypeTable.getD c.toNat 0) = true := by
  have hlength : ctypeTable.length = 256 := by decide +kernel
  have hlt : c.toNat < ctypeTable.length := by
    rw [hlength]
    exact c.isLt
  have hmem : (ctypeTable[c.toNat], c.toNat) ∈ ctypeTable.zipIdx :=
    List.mk_mem_zipIdx_iff_getElem?.mpr (List.getElem?_eq_getElem hlt)
  rw [List.getD_eq_getElem?_getD, List.getElem?_eq_getElem hlt, Option.getD_some]
  exact List.all_eq_true.mp h _ hmem

theorem hasClass_iff {flags : U8} {P : Nat → Prop} [DecidablePred P]
    (h : (ctypeTable.zipIdx.all fun entry => (entry.1 &&& flags != 0) == decide (P entry.2)) = true)
    (c : U8) : hasClass flags c = true ↔ P c.toNat := by
  have hentry := ctypeTable_forall (P := fun n b => (b &&& flags != 0) == decide (P n)) h c
  rw [hasClass, eq_of_beq hentry, decide_eq_true_iff]

theorem isspace_iff (c : U8) :
    isspace c = true ↔ c.toNat = 32 ∨ (9 ≤ c.toNat ∧ c.toNat ≤ 13) :=
  hasClass_iff (P := fun n => n = 32 ∨ (9 ≤ n ∧ n ≤ 13)) (by decide +kernel) c

@[simp] theorem isspace_nul : isspace 0 = false := by decide

theorem isdigit_iff (c : U8) : isdigit c = true ↔ 48 ≤ c.toNat ∧ c.toNat ≤ 57 :=
  hasClass_iff (P := fun n => 48 ≤ n ∧ n ≤ 57) (by decide +kernel) c

theorem isupper_iff (c : U8) : isupper c = true ↔ 65 ≤ c.toNat ∧ c.toNat ≤ 90 :=
  hasClass_iff (P := fun n => 65 ≤ n ∧ n ≤ 90) (by decide +kernel) c

theorem isalpha_iff (c : U8) : isalpha c = true ↔
    (65 ≤ c.toNat ∧ c.toNat ≤ 90) ∨ (97 ≤ c.toNat ∧ c.toNat ≤ 122) :=
  hasClass_iff (P := fun n => (65 ≤ n ∧ n ≤ 90) ∨ (97 ≤ n ∧ n ≤ 122)) (by decide +kernel) c

theorem tolower_toNat (c : U8) :
    (tolower c).toNat = if 65 ≤ c.toNat ∧ c.toNat ≤ 90 then c.toNat + 32 else c.toNat := by
  rw [tolower]
  by_cases hupper : isupper c = true
  · have hrange := (isupper_iff c).mp hupper
    rw [if_pos hupper, if_pos hrange, BitVec.toNat_add]
    exact Nat.mod_eq_of_lt (by show c.toNat + 32 < 256; omega)
  · rw [if_neg hupper, if_neg fun h => hupper ((isupper_iff c).mpr h)]

theorem isdigit_of_isspace {c : U8} (h : isspace c = true) : isdigit c = false := by
  rw [isspace_iff] at h
  rw [Bool.eq_false_iff, ne_eq, isdigit_iff]
  omega

end JarJar.Libc
