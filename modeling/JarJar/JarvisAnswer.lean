import JarJar.JarvisCore
import JarJar.StringCopies

/- How JARVIS answers: the definition that a query finds, or a fallback, copied into the
   caller's buffer. `jarvis_process_input` leaves the last byte of the buffer for a NUL and
   never stores one there.

   Correspondence (C ↔ Lean):
     `strncpy` from a pointer into memory   ↔ `strncpyAt` (`copyLoopAt`)
     `jarvis_process_input`                 ↔ `jarvisProcessInput` -/
namespace JarJar.Libc

/-- `while (n && (*d++ = *src++)) n--`, with both strings in memory. -/
def copyLoopAt : Nat → Nat → Nat → Memory → Nat × Nat × Memory
  | d, _, 0, m => (d, 0, m)
  | d, src, n + 1, m =>
    let (b, m) := m.load src
    if b = 0 then (d + 1, n + 1, m.store d b)
    else copyLoopAt (d + 1) (src + 1) n (m.store d b)

def strncpyAt (dest src n : Nat) (m : Memory) : Memory :=
  let (d, n, m) := copyLoopAt dest src n m
  zeroLoop d n m

/-! ## A source in memory -/

/-- Getting from `m` to `m'` the `len` bytes at `lo` may change, and those of a string of
length `count` at `src` may be read beside them. -/
structure Reads (lo len src count : Nat) (m m' : Memory) : Prop where
  outside : ∀ x, x < lo ∨ lo + len ≤ x → m'.bytes x = m.bytes x
  touched : ∀ x ∈ m'.touched, x ∈ m.touched ∨ (lo ≤ x ∧ x < lo + len) ∨
    (src ≤ x ∧ x ≤ src + count)

section
variable {m m₀ : Memory} {d p n : Nat} {s : List U8}

theorem store_bytes_congr (h : m.bytes = m₀.bytes) (p : Nat) (b : U8) :
    (m.store p b).bytes = (m₀.store p b).bytes := by
  funext x
  rw [Memory.store, Memory.store, h]

theorem zeroLoop_bytes_congr (h : m.bytes = m₀.bytes) (d n : Nat) :
    (zeroLoop d n m).bytes = (zeroLoop d n m₀).bytes := by
  funext x
  rw [zeroLoop_eq, zeroLoop_eq, Memory.storeAll_bytes, Memory.storeAll_bytes, h]

/-- What a string that is apart from the destination does to the loop does not depend on
whether it is in memory. -/
theorem copyLoopAt_eq (hs : m.HasString p s) (hapart : p + s.length < d ∨ d + n ≤ p)
    (hbytes : m.bytes = m₀.bytes) :
    (copyLoopAt d p n m).1 = (copyLoop d s n m₀).1 ∧
      (copyLoopAt d p n m).2.1 = (copyLoop d s n m₀).2.1 ∧
      (copyLoopAt d p n m).2.2.bytes = (copyLoop d s n m₀).2.2.bytes ∧
      ∀ x ∈ (copyLoopAt d p n m).2.2.touched, x ∈ m.touched ∨ (d ≤ x ∧ x < d + n) ∨
        (p ≤ x ∧ x ≤ p + s.length) := by
  induction n generalizing d p s m m₀ with
  | zero => exact ⟨rfl, rfl, hbytes, fun x hx => Or.inl hx⟩
  | succ n ih =>
    cases s with
    | nil =>
      have hnul : (m.load p).1 = 0 := hs
      rw [copyLoopAt]
      simp only [hnul, if_true]
      refine ⟨rfl, rfl, store_bytes_congr hbytes d 0, fun x hx => ?_⟩
      obtain rfl | rfl | hold := Memory.mem_copied_touched.mp hx
      · exact Or.inr (Or.inl (by omega))
      · exact Or.inr (Or.inr (by omega))
      · exact Or.inl hold
    | cons b s =>
      obtain ⟨hb, hne, hs⟩ := hs
      replace hb : (m.load p).1 = b := hb
      rw [List.length_cons] at hapart
      have hrest : ((m.load p).2.store d b).HasString (p + 1) s := by
        apply hs.frame
        intro x hx hx'
        exact if_neg (by omega)
      have hapart' : p + 1 + s.length < d + 1 ∨ d + 1 + n ≤ p + 1 := by omega
      have hstored : ((m.load p).2.store d b).bytes = (m₀.store d b).bytes :=
        store_bytes_congr hbytes d b
      obtain ⟨hend, hleft, hsame, htouched⟩ := ih hrest hapart' hstored
      rw [copyLoopAt]
      simp only [hb, hne, if_false]
      refine ⟨hend, hleft, hsame, fun x hx => ?_⟩
      rw [List.length_cons]
      obtain hold | hin | hread := htouched x hx
      · obtain rfl | rfl | hold := Memory.mem_copied_touched.mp hold
        · exact Or.inr (Or.inl (by omega))
        · exact Or.inr (Or.inr (by omega))
        · exact Or.inl hold
      · exact Or.inr (Or.inl (by omega))
      · exact Or.inr (Or.inr (by omega))

theorem strncpyAt_spec (src : CStr) (hs : m.HasString p src.bytes)
    (hapart : p + src.bytes.length < d ∨ d + n ≤ p) :
    (strncpyAt d p n m).bytes = (strncpy d src n m).bytes ∧
      Reads d (n + 1) p src.bytes.length m (strncpyAt d p n m) := by
  obtain ⟨hend, hleft, hbytes, htouched⟩ := copyLoopAt_eq hs hapart (rfl : m.bytes = m.bytes)
  have hsame : (strncpyAt d p n m).bytes = (strncpy d src n m).bytes := by
    rw [strncpyAt, strncpy]
    simp only [hend, hleft]
    exact zeroLoop_bytes_congr hbytes _ _
  refine ⟨hsame, fun x hx => ?_, fun x hx => ?_⟩
  · rw [hsame]
    exact (strncpy_touches d src n m).outside x hx
  · obtain ⟨hstart, hstop⟩ := copyLoop_stops d src.bytes n m
    replace hx : x ∈ (zeroLoop (copyLoopAt d p n m).1 (copyLoopAt d p n m).2.1
      (copyLoopAt d p n m).2.2).touched := hx
    rw [zeroLoop_eq, Memory.mem_storeAll_touched, List.length_replicate, hend, hleft] at hx
    obtain hold | hin := hx
    · obtain hold | hin | hread := htouched x hold
      · exact Or.inl hold
      · exact Or.inr (Or.inl (by omega))
      · exact Or.inr (Or.inr hread)
    · exact Or.inr (Or.inl (by omega))

end

end JarJar.Libc

namespace JarJar.Jarvis
open Libc

/-- `"Analyse en cours..."`. -/
def fallback : CStr := ⟨"Analyse en cours...".toList.map ch, by decide⟩

def jarvisProcessInput (input : CStr) (response : Nat) (responseSize : U64) (s : Machine) :
    Option (JarResult × Machine) :=
  match s.jarvisInstance with
  | none => some (.inval, s)
  | some _ =>
    match jarvisQueryKnowledge input s with
    | none => none
    | some k =>
      -- the byte that is kept for the NUL is not written
      let n := (responseSize - 1).toNat
      let mem := if k ≠ 0 then strncpyAt response k n s.mem else strncpy response fallback n s.mem
      some (.ok, { s with mem })

/-- The answer to an input: the definition at `k`, or the fallback if `k` is NULL. -/
structure AnswerAt (input : CStr) (s : Machine) (k : Nat) (answer : List U8) : Prop where
  query : jarvisQueryKnowledge input s = some k
  found : k ≠ 0 → s.mem.HasString k answer
  missing : k = 0 → answer = fallback.bytes

/-- The buffer has the answer, cut to what fits with a NUL behind it, and what is not in the
buffer is as it was. -/
structure Responds (response size : Nat) (answer : List U8) (m m' : Memory) : Prop where
  text : m'.HasString response (answer.take (size - 1))
  outside : ∀ x, x < response ∨ response + size ≤ x → m'.bytes x = m.bytes x

/-! ## What is answered -/

section
variable {input : CStr} {s s' : Machine} {k response : Nat} {size : U64} {answer : List U8}

theorem jarvisProcessInput_ok (hanswer : AnswerAt input s k answer)
    (hok : jarvisProcessInput input response size s = some (.ok, s')) :
    s'.mem = if k ≠ 0 then strncpyAt response k (size - 1).toNat s.mem
      else strncpy response fallback (size - 1).toNat s.mem := by
  rw [jarvisProcessInput] at hok
  cases hinstance : s.jarvisInstance with
  | none =>
    rw [hinstance] at hok
    cases hok
  | some core =>
    rw [hinstance, hanswer.query] at hok
    exact (congrArg (fun result => result.2.mem) (Option.some.inj hok)).symm

theorem answer_copied (hanswer : AnswerAt input s k answer)
    (hok : jarvisProcessInput input response size s = some (.ok, s')) {n : Nat}
    (hn : (size - 1).toNat = n) (hapart : k ≠ 0 → k + answer.length < response ∨ response + n ≤ k) :
    (∃ src : CStr, src.bytes = answer ∧ s'.mem.bytes = (strncpy response src n s.mem).bytes) ∧
      ∀ x ∈ s'.mem.touched, x ∈ s.mem.touched ∨ (response ≤ x ∧ x < response + (n + 1)) ∨
        (k ≠ 0 ∧ k ≤ x ∧ x ≤ k + answer.length) := by
  rw [jarvisProcessInput_ok hanswer hok, hn]
  by_cases hk : k = 0
  · -- the fallback is a literal, and not in memory
    rw [if_neg (not_not.mpr hk)]
    refine ⟨⟨fallback, (hanswer.missing hk).symm, rfl⟩, fun x hx => ?_⟩
    exact ((strncpy_touches response fallback n s.mem).touched x hx).imp_right Or.inl
  · have hstring := hanswer.found hk
    rw [if_pos hk]
    obtain ⟨hbytes, hreads⟩ := strncpyAt_spec ⟨answer, hstring.nonzero⟩ hstring (hapart hk)
    refine ⟨⟨⟨answer, hstring.nonzero⟩, rfl, hbytes⟩, fun x hx => ?_⟩
    obtain hold | hin | hread := hreads.touched x hx
    · exact Or.inl hold
    · exact Or.inr (Or.inl hin)
    · exact Or.inr (Or.inr ⟨hk, hread⟩)

end

/-- `jarvis_process_input` leaves the answer, cut to the buffer, with its NUL exactly if the
answer is shorter than the buffer by two bytes or more, or the last byte of the buffer was a
NUL before. It writes to the buffer only. The buffer is no part of the definition. -/
theorem jarvisProcessInput_responds_iff {input : CStr} {s s' : Machine} {k response : Nat}
    {size : U64} {answer : List U8} (hsize : 1 ≤ size.toNat) (hanswer : AnswerAt input s k answer)
    (hapart : k ≠ 0 → k + answer.length < response ∨ response + size.toNat ≤ k)
    (hok : jarvisProcessInput input response size s = some (.ok, s')) :
    (Responds response size.toNat answer s.mem s'.mem ↔
      answer.length < size.toNat - 1 ∨ s.mem.bytes (response + (size.toNat - 1)) = 0) ∧
    (∀ x, x < response ∨ response + size.toNat ≤ x → s'.mem.bytes x = s.mem.bytes x) ∧
    ∀ x ∈ s'.mem.touched, x ∈ s.mem.touched ∨ (response ≤ x ∧ x < response + size.toNat) ∨
      (k ≠ 0 ∧ k ≤ x ∧ x ≤ k + answer.length) := by
  have hlast : (size - 1).toNat = size.toNat - 1 := by
    rw [BitVec.toNat_sub_of_le]
    · rfl
    · exact hsize
  have hfits : response + (size.toNat - 1 + 1) = response + size.toNat := by omega
  obtain ⟨⟨src, rfl, hbytes⟩, htouched⟩ := answer_copied hanswer hok hlast fun hk => by
    have := hapart hk
    omega
  rw [hfits] at htouched
  have houtside : ∀ x, x < response ∨ response + size.toNat ≤ x → s'.mem.bytes x = s.mem.bytes x := by
    intro x hx
    rw [hbytes]
    exact (strncpy_touches response src (size.toNat - 1) s.mem).outside x (by omega)
  refine ⟨?_, houtside, htouched⟩
  have hiff : (strncpy response src (size.toNat - 1) s.mem).HasString response
      (src.bytes.take (size.toNat - 1)) ↔ _ := strncpy_hasString_iff
  rw [← hiff]
  constructor
  · rintro ⟨htext, -⟩
    exact htext.frame fun x _ _ => (congrFun hbytes x).symm
  · intro htext
    exact ⟨htext.frame fun x _ _ => congrFun hbytes x, houtside⟩

/-- An instance without a knowledge base, and no NUL in memory. -/
def idleMachine : Machine := ⟨⟨fun _ => 7, []⟩, 0, 0, some ⟨.init, none, none⟩⟩

theorem idleMachine_answer (input : CStr) : AnswerAt input idleMachine 0 fallback.bytes :=
  ⟨rfl, fun hk => absurd rfl hk, fun _ => rfl⟩

theorem idleMachine_ok (input : CStr) (response : Nat) (size : U64) :
    jarvisProcessInput input response size idleMachine = some (.ok, { idleMachine with
      mem := strncpy response fallback (size - 1).toNat idleMachine.mem }) := rfl

/-- The fallback in a buffer of 2048 bytes. -/
theorem jarvisProcessInput_responds_fallback :
    ∃ s, jarvisProcessInput CStr.empty 0 2048 idleMachine = some (.ok, s) ∧
      Responds 0 2048 fallback.bytes idleMachine.mem s.mem := by
  have hok := idleMachine_ok CStr.empty 0 2048
  obtain ⟨hiff, -⟩ := jarvisProcessInput_responds_iff (show 1 ≤ (2048 : U64).toNat by decide)
    (idleMachine_answer CStr.empty) (fun hk => absurd rfl hk) hok
  exact ⟨_, hok, hiff.mpr (Or.inl (by decide))⟩

/-- The fallback in a buffer of 8 bytes. -/
theorem jarvisProcessInput_unterminated :
    ¬ ∀ (input : CStr) (s s' : Machine) (k response : Nat) (size : U64) (answer : List U8),
      1 ≤ size.toNat → AnswerAt input s k answer →
      (k ≠ 0 → k + answer.length < response ∨ response + size.toNat ≤ k) →
      jarvisProcessInput input response size s = some (.ok, s') →
        Responds response size.toNat answer s.mem s'.mem := by
  intro h
  have hresponds := h CStr.empty idleMachine _ 0 0 8 fallback.bytes (by decide)
    (idleMachine_answer CStr.empty) (fun hk => absurd rfl hk) (idleMachine_ok _ _ _)
  have hcopied : (strncpy 0 fallback 7 idleMachine.mem).HasString 0 (fallback.bytes.take 7) :=
    hresponds.text
  obtain hshort | hnul := strncpy_hasString_iff.mp hcopied
  · exact absurd hshort (by decide)
  · exact absurd hnul (by decide)

end JarJar.Jarvis
