import JarJar.Types

/- Page-table entries: the flags of memory.h, the encoding `page | flags |
   PAGE_PRESENT` the kernel writes and the two ways an entry is read back. The
   kernel masks with `PAGE_MASK`, an `int` whose sign fills the upper half of the
   mask, so bits 52 to 63 survive; the processor takes bits 12 to 51.

   Correspondence (C ↔ Lean):
     `PAGE_MASK`                       ↔ `pageMask`
     `page_flags_t`                    ↔ `pagePresent` … `pageNx`
     `PML4_INDEX` … `PT_INDEX`         ↔ `pml4Index` … `ptIndex` -/
namespace JarJar.Vmm

/-- `~(PAGE_SIZE - 1)`, an `int`, as it is when combined with 64-bit values. -/
def pageMask : U64 := (~~~(4096#32 - 1#32)).signExtend 64

def pagePresent : U64 := 1#64 <<< 0
def pageWritable : U64 := 1#64 <<< 1
def pageUser : U64 := 1#64 <<< 2
def pageWritethrough : U64 := 1#64 <<< 3
def pageNocache : U64 := 1#64 <<< 4
def pageAccessed : U64 := 1#64 <<< 5
def pageDirty : U64 := 1#64 <<< 6
def pageHuge : U64 := 1#64 <<< 7
def pageGlobal : U64 := 1#64 <<< 8
def pageNx : U64 := 1#64 <<< 63

/-- The address field of an entry, as the processor reads it. -/
def addrMask : U64 := 0x000FFFFFFFFFF000#64

/-- Nine bits of an address, as a table index. -/
def index (virt : U64) (shift : Nat) : Fin 512 :=
  ⟨((virt >>> shift) &&& 0x1FF#64).toNat, by
    have h := Nat.and_le_right (n := (virt >>> shift).toNat) (m := 0x1FF)
    rw [BitVec.toNat_and]
    exact Nat.lt_succ_of_le h⟩

def pml4Index (virt : U64) : Fin 512 := index virt 39
def pdptIndex (virt : U64) : Fin 512 := index virt 30
def pdIndex (virt : U64) : Fin 512 := index virt 21
def ptIndex (virt : U64) : Fin 512 := index virt 12

/-- The indices of an address, from the PML4 down: its bits 12 to 47. -/
def path (virt : U64) : List (Fin 512) :=
  [pml4Index virt, pdptIndex virt, pdIndex virt, ptIndex virt]

/-- What the kernel stores for `addr` with `flags`. -/
def entry (addr flags : U64) : U64 := addr ||| flags ||| pagePresent

/-- The table below an entry, as the processor follows it: at the physical
address in the address field, unless the entry is not present or maps a huge
page itself. -/
def tableOf (e : U64) : Option U64 :=
  if e &&& pagePresent ≠ 0 ∧ e &&& pageHuge = 0 then some (physToVirt (e &&& addrMask)) else none

/-- The number of the page of an address: its bits 12 to 47. -/
def pageNumber (virt : U64) : Nat := virt.toNat / 4096 % 2^36

/-- The address of a physical page: whole pages, 52 bits. -/
def IsPhysPage (p : U64) : Prop := p.toNat % 4096 = 0 ∧ p.toNat < 2^52

instance (p : U64) : Decidable (IsPhysPage p) := by unfold IsPhysPage; infer_instance

/-- `flags` has only flags of `allowed`. -/
def FlagsIn (allowed flags : U64) : Prop := flags &&& ~~~allowed = 0

instance (allowed flags : U64) : Decidable (FlagsIn allowed flags) := by
  unfold FlagsIn; infer_instance

/-- Flags of an entry that points at a table: bits outside the address field,
`PAGE_HUGE` not among them. -/
def TableFlags (flags : U64) : Prop :=
  ∀ i, flags.getLsbD i = true → (i < 12 ∧ i ≠ 7) ∨ 52 ≤ i

/-- Such flags in the low twelve bits only. -/
def LowFlags (flags : U64) : Prop := ∀ i, flags.getLsbD i = true → i < 12 ∧ i ≠ 7

/-! ## Bits -/

theorem getLsbD_of_lt {m : U64} {P : Nat → Prop} [DecidablePred P]
    (h : ∀ i < 64, m.getLsbD i = decide (P i)) (hP : ∀ i, P i → i < 64) (i : Nat) :
    m.getLsbD i = decide (P i) := by
  by_cases hi : i < 64
  · exact h i hi
  · have hno : ¬ P i := fun hp => hi (hP i hp)
    rw [BitVec.getLsbD_of_ge _ _ (by omega), decide_eq_false hno]

theorem addrMask_bit (i : Nat) : addrMask.getLsbD i = decide (12 ≤ i ∧ i < 52) :=
  getLsbD_of_lt (P := fun i => 12 ≤ i ∧ i < 52) (by decide) (fun i hi => by omega) i

theorem pageMask_bit (i : Nat) : pageMask.getLsbD i = decide (12 ≤ i ∧ i < 64) :=
  getLsbD_of_lt (P := fun i => 12 ≤ i ∧ i < 64) (by decide) (fun i hi => hi.2) i

theorem and_flag_ne_zero (e : U64) {k : Nat} (hk : k < 64) :
    e &&& (1#64 <<< k) ≠ 0 ↔ e.getLsbD k = true := by
  have hflag : ∀ i, (1#64 <<< k).getLsbD i = decide (i = k) := by
    intro i
    by_cases hi : i = k
    · simp [hi, hk]
    · simp [hi]
      omega
  refine ⟨fun h => ?_, fun h h0 => ?_⟩
  · by_contra hb
    apply h
    apply BitVec.eq_of_getLsbD_eq
    intro i _
    rw [BitVec.getLsbD_and, hflag]
    by_cases hi : i = k
    · subst hi
      simp [hb]
    · simp [hi]
  · have hb : (e &&& (1#64 <<< k)).getLsbD k = true := by
      rw [BitVec.getLsbD_and, hflag, h]
      simp
    simp [h0] at hb

theorem present_iff (e : U64) : e &&& pagePresent ≠ 0 ↔ e.getLsbD 0 = true :=
  and_flag_ne_zero e (by decide)

theorem huge_iff (e : U64) : e &&& pageHuge ≠ 0 ↔ e.getLsbD 7 = true :=
  and_flag_ne_zero e (by decide)

theorem pagePresent_bit (i : Nat) : pagePresent.getLsbD i = decide (i = 0) :=
  getLsbD_of_lt (P := fun i => i = 0) (by decide) (fun i hi => by omega) i

theorem IsPhysPage.bit {p : U64} (h : IsPhysPage p) {i : Nat} (hi : p.getLsbD i = true) :
    12 ≤ i ∧ i < 52 := by
  obtain ⟨halign, hlt⟩ := h
  rw [BitVec.getLsbD] at hi
  refine ⟨?_, ?_⟩
  · by_contra hlow
    have hmul : p.toNat = 2^12 * (p.toNat / 4096) := by omega
    rw [hmul, Nat.testBit_two_pow_mul] at hi
    simp at hi
    omega
  · by_contra hhigh
    have hpow : 2^52 ≤ 2^i := Nat.pow_le_pow_right (by decide) (by omega)
    rw [Nat.testBit_lt_two_pow (Nat.lt_of_lt_of_le hlt hpow)] at hi
    cases hi

theorem FlagsIn.bit {allowed flags : U64} (h : FlagsIn allowed flags) {i : Nat}
    (hi : flags.getLsbD i = true) : allowed.getLsbD i = true := by
  have hlt := BitVec.lt_of_getLsbD hi
  have := congrArg (fun x => BitVec.getLsbD x i) h
  simpa [hi, hlt] using this

theorem FlagsIn.low {allowed flags : U64} (h : FlagsIn allowed flags)
    (hallowed : ∀ i < 64, allowed.getLsbD i = true → i < 12 ∧ i ≠ 7) : LowFlags flags :=
  fun i hi => hallowed i (BitVec.lt_of_getLsbD hi) (h.bit hi)

theorem LowFlags.tableFlags {flags : U64} (h : LowFlags flags) : TableFlags flags :=
  fun i hi => Or.inl (h i hi)

/-! ## Encoding and decoding -/

theorem entry_bit (addr flags : U64) (i : Nat) :
    (entry addr flags).getLsbD i = (addr.getLsbD i || flags.getLsbD i || decide (i = 0)) := by
  rw [entry, BitVec.getLsbD_or, BitVec.getLsbD_or, pagePresent_bit]

theorem entry_present (addr flags : U64) : entry addr flags &&& pagePresent ≠ 0 := by
  rw [present_iff, entry_bit]
  simp

theorem entry_not_huge {page flags : U64} (hp : IsPhysPage page) (hf : TableFlags flags) :
    entry page flags &&& pageHuge = 0 := by
  by_contra h
  have hb := (huge_iff _).mp h
  rw [entry_bit, Bool.or_eq_true, Bool.or_eq_true] at hb
  obtain (hpage | hflag) | hzero := hb
  · have := hp.bit hpage
    omega
  · have := hf 7 hflag
    omega
  · exact absurd hzero (by decide)

theorem entry_and_mask {page flags mask : U64} (hpage : ∀ i, page.getLsbD i = true → mask.getLsbD i = true)
    (hflags : ∀ i, flags.getLsbD i = true → mask.getLsbD i = false)
    (hpresent : mask.getLsbD 0 = false) : entry page flags &&& mask = page := by
  apply BitVec.eq_of_getLsbD_eq
  intro i _
  rw [BitVec.getLsbD_and, entry_bit]
  cases hpb : page.getLsbD i with
  | true =>
    rw [hpage i hpb]
    rfl
  | false =>
    cases hfb : flags.getLsbD i with
    | true => rw [hflags i hfb, Bool.and_false]
    | false =>
      by_cases hi : i = 0
      · rw [hi, hpresent, Bool.and_false]
      · rw [decide_eq_false hi]
        rfl

theorem entry_addr {page flags : U64} (hp : IsPhysPage page) (hf : TableFlags flags) :
    entry page flags &&& addrMask = page := by
  apply entry_and_mask
  · intro i hpb
    rw [addrMask_bit]
    exact decide_eq_true (hp.bit hpb)
  · intro i hfb
    have hflag := hf i hfb
    rw [addrMask_bit]
    exact decide_eq_false (by omega)
  · decide

/-- The kernel reads back the page when no flag lies in the upper half. -/
theorem entry_code {page flags : U64} (hp : IsPhysPage page) (hf : LowFlags flags) :
    entry page flags &&& pageMask = page := by
  apply entry_and_mask
  · intro i hpb
    have hbit := hp.bit hpb
    rw [pageMask_bit]
    exact decide_eq_true (by omega)
  · intro i hfb
    have hflag := hf i hfb
    rw [pageMask_bit]
    exact decide_eq_false (by omega)
  · decide

/-- With the last flag set the kernel reads back something that is no page. -/
theorem entry_code_nx {page flags : U64} (hf : flags.getLsbD 63 = true) :
    ¬ IsPhysPage (entry page flags &&& pageMask) := by
  intro h
  have hb : (entry page flags &&& pageMask).getLsbD 63 = true := by
    rw [BitVec.getLsbD_and, entry_bit, pageMask_bit, hf]
    simp
  have := h.bit hb
  omega

theorem tableOf_entry {page flags : U64} (hp : IsPhysPage page) (hf : TableFlags flags) :
    tableOf (entry page flags) = some (physToVirt page) := by
  rw [tableOf, if_pos ⟨entry_present _ _, entry_not_huge hp hf⟩, entry_addr hp hf]

theorem tableOf_absent {e : U64} (h : ¬ e &&& pagePresent ≠ 0) : tableOf e = none :=
  if_neg fun hc => h hc.1

@[simp] theorem tableOf_zero : tableOf 0 = none := by decide

/-! ## Paths -/

theorem index_val (virt : U64) (shift : Nat) :
    (index virt shift).val = virt.toNat / 2^shift % 512 := by
  show ((virt >>> shift) &&& 0x1FF#64).toNat = _
  rw [BitVec.toNat_and, BitVec.toNat_ushiftRight, Nat.shiftRight_eq_div_pow]
  exact Nat.and_two_pow_sub_one_eq_mod _ 9

theorem path_eq_iff (v w : U64) : path v = path w ↔ pageNumber v = pageNumber w := by
  simp only [path, pml4Index, pdptIndex, pdIndex, ptIndex, List.cons.injEq, Fin.ext_iff, index_val,
    pageNumber, and_true]
  omega

end JarJar.Vmm
