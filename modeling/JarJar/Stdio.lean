import JarJar.Stdlib
import Mathlib.Data.List.Induction

/- Formatted output into a buffer. `vsnprintf` writes under the bound `size - 1`,
   which it tests before each directive and before each byte it copies from a
   text, but not between the two bytes it writes for a directive it does not know.

   Correspondence (C ↔ Lean):
     `out - str`, `count`, `*out++ = …`     ↔ `Sink`, `Sink.put`
     the loops over a text                  ↔ `copyBounded`
     the cases of the `switch`              ↔ `directive`, `Chunk`, `emit`
     the loop over `format`                 ↔ `formatLoop`
     `vsnprintf`, `snprintf`, `vsprintf`    ↔ `vsnprintf`, `snprintf`, `vsprintf`
   The buffer does not overlap the format or the arguments. Stores are logged with
   their offset from `str`, the latest first. -/
namespace JarJar.Libc

/-- The arguments behind a `va_list`, eight bytes each, and the strings that
pointers point at. -/
structure Args where
  slot : Nat → U64
  string : U64 → CStr

/-- The locals of `vsnprintf` and the stores it made. -/
structure Sink where
  out : Nat
  count : U64
  writes : List (Nat × U8)

/-- `*out++ = b; count++`. -/
def Sink.put (s : Sink) (b : U8) : Sink := ⟨s.out + 1, s.count + 1, (s.out, b) :: s.writes⟩

/-- `for (char* p = text; *p && count < size - 1; p++) { *out++ = *p; count++; }`. -/
def copyBounded (size : U64) : List U8 → Sink → Sink
  | [], s => s
  | b :: text, s => if s.count < size - 1 then copyBounded size text (s.put b) else s

/-- What a part of the format comes to: a text copied under the bound, one byte,
or a directive that is not known. -/
inductive Chunk where
  | copied (text : CStr)
  | byte (b : U8)
  | unknown (d : U8)

/-- What the cases of the `switch` write. -/
def emit (size : U64) : Chunk → Sink → Sink
  | .copied text, s => copyBounded size text.bytes s
  | .byte b, s => s.put b
  | .unknown d, s => (s.put (ch '%')).put d

def nullText : CStr := ⟨"(null)".toList.map ch, by decide⟩

def hexPrefix : CStr := ⟨"0x".toList.map ch, by decide⟩

/-- The `switch`: the next argument after the case, and what it writes. -/
def directive (args : Args) (d : U8) (arg : Nat) : Nat × Chunk :=
  let val := args.slot arg
  if d = ch 'd' ∨ d = ch 'i' then (arg + 1, .copied (itoa (val.setWidth 32) 10))
  else if d = ch 'u' then (arg + 1, .copied (utoa (val.setWidth 32) 10))
  else if d = ch 'x' ∨ d = ch 'X' then (arg + 1, .copied (utoa (val.setWidth 32) 16))
  else if d = ch 'p' then (arg + 1, .copied (hexPrefix.append (ultoa val 16)))
  else if d = ch 's' then
    (arg + 1, .copied (if val = 0 then nullText else args.string val))
  else if d = ch 'c' then (arg + 1, .byte (val.setWidth 8))
  else if d = ch '%' then (arg, .byte (ch '%'))
  else (arg, .unknown d)

/-- The loop over the format; a `%` at its very end is an ordinary byte. -/
def formatLoop (size : U64) (args : Args) : List U8 → Nat → Sink → Sink
  | [], _, s => s
  | [c], _, s => if s.count < size - 1 then s.put c else s
  | c :: d :: rest, arg, s =>
    if s.count < size - 1 then
      if c = ch '%' then
        let (arg, chunk) := directive args d arg
        formatLoop size args rest arg (emit size chunk s)
      else formatLoop size args (d :: rest) arg (s.put c)
    else s

/-- The value returned and the stores made. -/
def vsnprintf (size : U64) (format : CStr) (args : Args) : Int × List (Nat × U8) :=
  let s := formatLoop size args format.bytes 0 ⟨0, 0, []⟩
  let writes := if 0 < size then (s.out, 0) :: s.writes else s.writes
  ((s.count.setWidth 32).toInt, writes)

def snprintf (size : U64) (format : CStr) (args : Args) : Int × List (Nat × U8) :=
  vsnprintf size format args

def vsprintf (format : CStr) (args : Args) : Int × List (Nat × U8) :=
  vsnprintf (-1) format args

/-- Every store is into the first `size` bytes, and when there are any the last
one is a NUL at the index that is returned. -/
def Contained (size : U64) (r : Int × List (Nat × U8)) : Prop :=
  (∀ w ∈ r.2, w.1 < size.toNat) ∧
  (size ≠ 0 → ∃ n : Nat, r.2.head? = some (n, 0) ∧ r.1 = n ∧ n < size.toNat)

/-! ## The text of a format -/

/-- The bytes a chunk stands for. -/
def Chunk.text : Chunk → List U8
  | .copied text => text.bytes
  | .byte b => [b]
  | .unknown d => [ch '%', d]

/-- The chunks of a format, whatever the size of the buffer. -/
def expand (args : Args) : List U8 → Nat → List Chunk
  | [], _ => []
  | [c], _ => [.byte c]
  | c :: d :: rest, arg =>
    if c = ch '%' then
      let (arg, chunk) := directive args d arg
      chunk :: expand args rest arg
    else .byte c :: expand args (d :: rest) arg

/-- The bytes of some chunks one after the other. -/
def textOf (chunks : List Chunk) : List U8 := chunks.flatMap Chunk.text

/-- Chunks are written until the bound is reached. -/
def emitAll (size : U64) : List Chunk → Sink → Sink
  | [], s => s
  | c :: chunks, s => if s.count < size - 1 then emitAll size chunks (emit size c s) else s

theorem formatLoop_eq (size : U64) (args : Args) (format : List U8) (arg : Nat) (s : Sink) :
    formatLoop size args format arg s = emitAll size (expand args format arg) s := by
  induction format using List.twoStepInduction generalizing arg s with
  | nil => rfl
  | singleton c => rfl
  | cons_cons c d rest ih₁ ih₂ =>
    rw [formatLoop, expand]
    by_cases hc : c = ch '%'
    · rw [if_pos hc, if_pos hc]
      dsimp only
      rw [emitAll, ih₁]
    · rw [if_neg hc, if_neg hc, emitAll, ih₂]
      rfl

/-! ## How far the text goes -/

/-- The index reached after a chunk from index `n < limit` on. -/
def Chunk.next (limit n : Nat) : Chunk → Nat
  | .copied text => min limit (n + text.bytes.length)
  | .byte _ => n + 1
  | .unknown _ => n + 2

/-- The index reached after some chunks. -/
def lastIndex (limit : Nat) : List Chunk → Nat → Nat
  | [], n => n
  | c :: chunks, n => if n < limit then lastIndex limit chunks (c.next limit n) else n

/-- The sink has written the bytes below index `n`. -/
structure At (n : Nat) (s : Sink) : Prop where
  out : s.out = n
  count : s.count = BitVec.ofNat 64 n
  writes : ∀ w ∈ s.writes, w.1 < n

section
variable {size : U64} {s : Sink} {n : Nat}

theorem At.put (h : At n s) (b : U8) : At (n + 1) (s.put b) := by
  refine ⟨?_, ?_, ?_⟩
  · show s.out + 1 = n + 1
    rw [h.out]
  · show s.count + 1 = BitVec.ofNat 64 (n + 1)
    rw [h.count, BitVec.ofNat_add]
    rfl
  · intro w hw
    cases List.mem_cons.mp hw with
    | inl hnew => rw [hnew, h.out]; exact Nat.lt_succ_self n
    | inr hold => exact Nat.lt_succ_of_lt (h.writes w hold)

theorem toNat_pos (hsize : size ≠ 0) : 0 < size.toNat :=
  Nat.pos_of_ne_zero fun hz => hsize (BitVec.eq_of_toNat_eq hz)

theorem below_bound (hsize : size ≠ 0) (count : U64) :
    count < size - 1 ↔ count.toNat + 1 < size.toNat := by
  have hpos := toNat_pos hsize
  have hsub : (size - 1).toNat = size.toNat - 1 := BitVec.toNat_sub_of_le hpos
  rw [BitVec.lt_def, hsub]
  omega

theorem At.below (h : At n s) (hsize : size ≠ 0) (hn : n ≤ size.toNat) :
    s.count < size - 1 ↔ n < size.toNat - 1 := by
  have hlt := size.isLt
  rw [below_bound hsize, h.count, BitVec.toNat_ofNat, Nat.mod_eq_of_lt (by omega)]
  omega

theorem At.copy (h : At n s) (hsize : size ≠ 0) (hn : n ≤ size.toNat - 1) (text : List U8) :
    At (min (size.toNat - 1) (n + text.length)) (copyBounded size text s) := by
  induction text generalizing n s with
  | nil =>
    rw [List.length_nil, Nat.add_zero, Nat.min_eq_right hn]
    exact h
  | cons b text ih =>
    have hbelow := h.below hsize (by omega)
    rw [copyBounded]
    by_cases hlt : n < size.toNat - 1
    · rw [if_pos (hbelow.mpr hlt), List.length_cons,
        show n + (text.length + 1) = n + 1 + text.length by omega]
      exact ih (h.put b) hlt
    · rw [if_neg fun hc => hlt (hbelow.mp hc), Nat.min_eq_left (by omega),
        show size.toNat - 1 = n by omega]
      exact h

theorem At.emit (h : At n s) (hsize : size ≠ 0) (hn : n < size.toNat - 1) (c : Chunk) :
    At (c.next (size.toNat - 1) n) (emit size c s) := by
  cases c with
  | copied text => exact h.copy hsize (Nat.le_of_lt hn) text.bytes
  | byte b => exact h.put b
  | unknown d => exact (h.put (ch '%')).put d

theorem At.emitAll (h : At n s) (hsize : size ≠ 0) (hn : n ≤ size.toNat) (chunks : List Chunk) :
    At (lastIndex (size.toNat - 1) chunks n) (emitAll size chunks s) := by
  induction chunks generalizing n s with
  | nil => exact h
  | cons c chunks ih =>
    have hbelow := h.below hsize hn
    rw [Libc.emitAll, lastIndex]
    by_cases hlt : n < size.toNat - 1
    · rw [if_pos hlt, if_pos (hbelow.mpr hlt)]
      refine ih (h.emit hsize hlt c) ?_
      cases c with
      | copied text => exact Nat.le_trans (Nat.min_le_left _ _) (Nat.sub_le _ _)
      | byte b => show n + 1 ≤ _; omega
      | unknown d => show n + 2 ≤ _; omega
    · rw [if_neg hlt, if_neg fun hc => hlt (hbelow.mp hc)]
      exact h

end

/-- No directive that is not known starts at the last index before `limit`. -/
def NoneAcross (limit : Nat) (chunks : List Chunk) (n : Nat) : Prop :=
  ∀ pre d post, chunks = pre ++ .unknown d :: post → n + (textOf pre).length + 1 ≠ limit

theorem noneAcross_cons {limit n : Nat} {c : Chunk} {chunks : List Chunk} :
    NoneAcross limit (c :: chunks) n ↔
      (∀ d, c = .unknown d → n + 1 ≠ limit) ∧ NoneAcross limit chunks (n + c.text.length) := by
  have hlen : ∀ pre, n + (textOf (c :: pre)).length = n + c.text.length + (textOf pre).length := by
    intro pre
    rw [textOf, List.flatMap_cons, List.length_append, Nat.add_assoc]
    rfl
  refine ⟨fun h => ⟨fun d hd => ?_, fun pre d post heq => ?_⟩, fun h pre d post heq => ?_⟩
  · exact h [] d chunks (by rw [hd, List.nil_append])
  · rw [← hlen]
    exact h (c :: pre) d post (by rw [heq, List.cons_append])
  · cases pre with
    | nil => exact h.1 d (List.cons.inj heq).1
    | cons a pre =>
      obtain ⟨rfl, htail⟩ := List.cons.inj heq
      rw [hlen]
      exact h.2 pre d post htail

theorem noneAcross_of_ge {limit n : Nat} (h : limit ≤ n) (chunks : List Chunk) :
    NoneAcross limit chunks n := by
  intro pre d post _
  omega

theorem lastIndex_of_ge {limit n : Nat} (h : limit ≤ n) (chunks : List Chunk) :
    lastIndex limit chunks n = n := by
  cases chunks with
  | nil => rfl
  | cons c chunks => exact if_neg (Nat.not_lt.mpr h)

/-- The limit is passed by such a directive only; without one the text is written
up to the limit or to its end. -/
theorem lastIndex_cases {limit n : Nat} (h : n ≤ limit) (chunks : List Chunk) :
    (NoneAcross limit chunks n ∧
      lastIndex limit chunks n = min limit (n + (textOf chunks).length)) ∨
    (¬ NoneAcross limit chunks n ∧ lastIndex limit chunks n = limit + 1) := by
  induction chunks generalizing n with
  | nil =>
    refine Or.inl ⟨fun pre d post heq => ?_, ?_⟩
    · simp at heq
    · exact (Nat.min_eq_right h).symm
  | cons c chunks ih =>
    rw [noneAcross_cons, textOf, List.flatMap_cons, List.length_append, ← Nat.add_assoc, ← textOf]
    by_cases hlt : n < limit
    · rw [lastIndex, if_pos hlt]
      cases c with
      | copied text =>
        -- a text is cut at the limit, so it never passes it
        by_cases hfits : n + text.bytes.length ≤ limit
        · rw [Chunk.next, Nat.min_eq_right hfits]
          obtain ⟨hnone, heq⟩ | ⟨hsome, heq⟩ := ih hfits
          · exact Or.inl ⟨⟨fun d hd => Chunk.noConfusion hd, hnone⟩, heq⟩
          · exact Or.inr ⟨fun hc => hsome hc.2, heq⟩
        · rw [Chunk.next, Nat.min_eq_left (by omega), lastIndex_of_ge (Nat.le_refl _)]
          refine Or.inl ⟨⟨fun d hd => Chunk.noConfusion hd, noneAcross_of_ge ?_ _⟩, ?_⟩
          · show limit ≤ n + text.bytes.length
            omega
          · show limit = min limit (n + text.bytes.length + _)
            omega
      | byte b =>
        obtain ⟨hnone, heq⟩ | ⟨hsome, heq⟩ := ih (n := n + 1) hlt
        · exact Or.inl ⟨⟨fun d hd => Chunk.noConfusion hd, hnone⟩, heq⟩
        · exact Or.inr ⟨fun hc => hsome hc.2, heq⟩
      | unknown d =>
        by_cases hlast : n + 1 = limit
        · -- its second byte takes the place of the NUL
          refine Or.inr ⟨fun hc => hc.1 d rfl hlast, ?_⟩
          rw [Chunk.next, lastIndex_of_ge (by omega)]
          omega
        · obtain ⟨hnone, heq⟩ | ⟨hsome, heq⟩ := ih (n := n + 2) (by omega)
          · exact Or.inl ⟨⟨fun _ _ => hlast, hnone⟩, heq⟩
          · exact Or.inr ⟨fun hc => hsome hc.2, heq⟩
    · -- the loop over the format ended before this chunk
      have hend : limit ≤ n := Nat.not_lt.mp hlt
      rw [lastIndex_of_ge hend]
      refine Or.inl ⟨⟨fun d _ => by omega, noneAcross_of_ge (by omega) _⟩, ?_⟩
      omega

/-! ## No room at all -/

section
variable {size : U64} {s : Sink}

theorem copyBounded_writes (text : List U8) : s.writes <:+ (copyBounded size text s).writes := by
  induction text generalizing s with
  | nil => exact List.suffix_rfl
  | cons b text ih =>
    rw [copyBounded]
    split
    · exact (List.suffix_cons (s.out, b) s.writes).trans (ih (s := s.put b))
    · exact List.suffix_rfl

theorem emit_writes (c : Chunk) : s.writes <:+ (emit size c s).writes := by
  cases c with
  | copied text => exact copyBounded_writes text.bytes
  | byte b => exact List.suffix_cons _ _
  | unknown d => exact (List.suffix_cons _ _).trans (List.suffix_cons _ _)

theorem emitAll_writes (chunks : List Chunk) : s.writes <:+ (emitAll size chunks s).writes := by
  induction chunks generalizing s with
  | nil => exact List.suffix_rfl
  | cons c chunks ih =>
    rw [emitAll]
    split
    · exact (emit_writes c).trans ih
    · exact List.suffix_rfl

/-- The bound of a buffer of size 0 is the largest number there is. -/
theorem emit_zero {c : Chunk} (h : s.count = 0) (hc : c.text ≠ []) : (emit 0 c s).writes ≠ [] := by
  have hput : ∀ {b : U8} {t : Sink}, (s.put b).writes <:+ t.writes → t.writes ≠ [] := by
    intro b t hsuffix hnil
    rw [hnil, List.suffix_nil] at hsuffix
    cases hsuffix
  cases c with
  | copied text =>
    obtain ⟨bytes, hnonzero⟩ := text
    cases bytes with
    | nil => exact absurd rfl hc
    | cons b bytes =>
      show (copyBounded 0 (b :: bytes) s).writes ≠ []
      rw [copyBounded, h, if_pos (by decide)]
      exact hput (copyBounded_writes bytes)
  | byte b => exact hput List.suffix_rfl
  | unknown d => exact hput (List.suffix_cons _ _)

theorem emitAll_zero (h : s.count = 0) (hw : s.writes = []) (chunks : List Chunk) :
    (emitAll 0 chunks s).writes = [] ↔ textOf chunks = [] := by
  induction chunks generalizing s with
  | nil => exact ⟨fun _ => rfl, fun _ => hw⟩
  | cons c chunks ih =>
    rw [emitAll, h, if_pos (by decide), textOf, List.flatMap_cons, List.append_eq_nil_iff]
    by_cases hc : c.text = []
    · have hsame : emit 0 c s = s := by
        cases c with
        | copied text =>
          show copyBounded 0 text.bytes s = s
          rw [show text.bytes = [] from hc, copyBounded]
        | byte b => cases hc
        | unknown d => cases hc
      rw [hsame, ih h hw]
      exact ⟨fun ht => ⟨hc, ht⟩, fun ht => ht.2⟩
    · refine ⟨fun hnil => ?_, fun ht => absurd ht.1 hc⟩
      have hsuffix : (emit 0 c s).writes <:+ (emitAll 0 chunks (emit 0 c s)).writes :=
        emitAll_writes chunks
      rw [hnil, List.suffix_nil] at hsuffix
      exact absurd hsuffix (emit_zero h hc)

end

/-! ## When the buffer contains the output -/

theorem toInt_count {n : Nat} (hn : n < 2^64) :
    ((BitVec.ofNat 64 n).setWidth 32).toInt = n ↔ n < 2^31 := by
  rw [BitVec.toInt_eq_toNat_cond, BitVec.toNat_setWidth, BitVec.toNat_ofNat]
  split
  · omega
  · omega

theorem contained_zero {ret : Int} {writes : List (Nat × U8)} :
    Contained 0 (ret, writes) ↔ writes = [] := by
  refine ⟨fun h => ?_, fun h => ⟨fun w hw => ?_, fun hne => absurd rfl hne⟩⟩
  · apply List.eq_nil_iff_forall_not_mem.mpr
    intro w hw
    exact Nat.not_lt_zero _ (h.1 w hw)
  · rw [h] at hw
    exact absurd hw List.not_mem_nil

theorem At.contained_iff {size : U64} {s : Sink} {last : Nat} (h : At last s) (hsize : size ≠ 0) :
    Contained size ((s.count.setWidth 32).toInt, (s.out, 0) :: s.writes) ↔
      last < size.toNat ∧ last < 2^31 := by
  have hlt := size.isLt
  refine ⟨fun hc => ?_, fun hc => ⟨fun w hw => ?_, fun _ => ⟨last, ?_, ?_, hc.1⟩⟩⟩
  · obtain ⟨n, hhead, hret, hn⟩ := hc.2 hsize
    have hnout : s.out = n := congrArg Prod.fst (Option.some.inj hhead)
    have hnlast : last = n := h.out.symm.trans hnout
    rw [h.count, hnlast] at hret
    rw [hnlast]
    exact ⟨hn, (toInt_count (by omega)).mp hret⟩
  · cases List.mem_cons.mp hw with
    | inl hnul => rw [hnul, h.out]; exact hc.1
    | inr hold => exact Nat.lt_trans (h.writes w hold) hc.1
  · rw [h.out]; rfl
  · rw [h.count]
    exact (toInt_count (by omega)).mpr hc.2

/-- From the start of the buffer: none starts at index `size - 2` of the text. -/
theorem noneAcross_start {size : U64} (hpos : 0 < size.toNat) (chunks : List Chunk) :
    NoneAcross (size.toNat - 1) chunks 0 ↔
      ∀ pre d post, chunks = pre ++ .unknown d :: post → (textOf pre).length + 2 ≠ size.toNat := by
  refine forall₄_congr fun pre d post _ => not_congr ?_
  omega

/-- `vsnprintf` keeps to its buffer exactly when, for size 0, there is nothing to
write, and otherwise no directive that is not known starts at index `size - 2` of
the text, and the number of bytes written fits an `int`. -/
theorem vsnprintf_contained_iff (size : U64) (format : CStr) (args : Args) :
    Contained size (vsnprintf size format args) ↔
      (size = 0 → textOf (expand args format.bytes 0) = []) ∧
      (size ≠ 0 →
        (∀ pre d post, expand args format.bytes 0 = pre ++ .unknown d :: post →
          (textOf pre).length + 2 ≠ size.toNat) ∧
        min (size.toNat - 1) (textOf (expand args format.bytes 0)).length < 2^31) := by
  rw [vsnprintf, formatLoop_eq]
  generalize expand args format.bytes 0 = chunks
  by_cases hsize : size = 0
  · subst hsize
    rw [if_neg (by decide), contained_zero, emitAll_zero rfl rfl chunks]
    exact ⟨fun h => ⟨fun _ => h, fun hne => absurd rfl hne⟩, fun h => h.1 rfl⟩
  · have hpos := toNat_pos hsize
    have hstart : At 0 ⟨0, 0, []⟩ := ⟨rfl, rfl, fun w hw => absurd hw List.not_mem_nil⟩
    have hend := hstart.emitAll hsize (Nat.zero_le _) chunks
    rw [if_pos (show 0 < size from hpos), hend.contained_iff hsize, ← noneAcross_start hpos]
    -- the index reached is in the buffer when no such directive runs past its end
    obtain ⟨hn, hlast⟩ | ⟨hn, hlast⟩ := lastIndex_cases (Nat.zero_le (size.toNat - 1)) chunks
    · rw [hlast, Nat.zero_add]
      refine ⟨fun h => ⟨fun hz => absurd hz hsize, fun _ => ⟨hn, h.2⟩⟩, fun h => ⟨?_, (h.2 hsize).2⟩⟩
      omega
    · rw [hlast]
      refine ⟨fun h => ?_, fun h => absurd (h.2 hsize).1 hn⟩
      omega

/-- Size 0 is no size at all, and the second byte of `%q` takes the place of the
NUL, which goes one further. -/
theorem vsnprintf_overruns :
    let args : Args := ⟨fun _ => 0, fun _ => CStr.empty⟩
    vsnprintf 0 ⟨[ch 'a'], by decide⟩ args = (1, [(0, ch 'a')]) ∧
    vsnprintf 2 ⟨[ch '%', ch 'q'], by decide⟩ args = (2, [(2, 0), (1, ch 'q'), (0, ch '%')]) ∧
    ¬ Contained 0 (vsnprintf 0 ⟨[ch 'a'], by decide⟩ args) ∧
    ¬ Contained 2 (vsnprintf 2 ⟨[ch '%', ch 'q'], by decide⟩ args) := by
  intro args
  have h₁ : vsnprintf 0 ⟨[ch 'a'], by decide⟩ args = (1, [(0, ch 'a')]) := by decide
  have h₂ : vsnprintf 2 ⟨[ch '%', ch 'q'], by decide⟩ args =
      (2, [(2, 0), (1, ch 'q'), (0, ch '%')]) := by decide
  refine ⟨h₁, h₂, fun h => ?_, fun h => ?_⟩
  · rw [h₁] at h
    exact absurd (h.1 _ List.mem_cons_self) (by decide)
  · rw [h₂] at h
    exact absurd (h.1 _ List.mem_cons_self) (by decide)

/-! ## The whole text -/

/-- The stores of a text from index `n` on, the latest first. -/
def stores (n : Nat) : List U8 → List (Nat × U8)
  | [] => []
  | b :: text => stores (n + 1) text ++ [(n, b)]

theorem stores_append (n : Nat) (text rest : List U8) :
    stores n (text ++ rest) = stores (n + text.length) rest ++ stores n text := by
  induction text generalizing n with
  | nil => simp [stores]
  | cons b text ih =>
    rw [List.cons_append, stores, ih, stores, List.length_cons, List.append_assoc, Nat.add_assoc,
      Nat.add_comm 1]

theorem stores_inj {n : Nat} {text text' : List U8} (h : stores n text = stores n text') :
    text = text' := by
  have hbytes (text : List U8) (n : Nat) : (stores n text).map Prod.snd = text.reverse := by
    induction text generalizing n with
    | nil => rfl
    | cons b text ih => rw [stores, List.map_append, ih, List.reverse_cons]; rfl
  rw [← List.reverse_inj, ← hbytes text n, h, hbytes]

section
variable {size : U64} {s : Sink} {n : Nat}

theorem At.copy_take (h : At n s) (hsize : size ≠ 0) (hn : n ≤ size.toNat - 1) (text : List U8) :
    (copyBounded size text s).writes = stores n (text.take (size.toNat - 1 - n)) ++ s.writes := by
  induction text generalizing n s with
  | nil => simp [copyBounded, stores]
  | cons b text ih =>
    have hbelow := h.below hsize (by omega)
    rw [copyBounded]
    by_cases hlt : n < size.toNat - 1
    · obtain ⟨room, hroom⟩ : ∃ room, size.toNat - 1 - n = room + 1 := ⟨size.toNat - 2 - n, by omega⟩
      have hrest : size.toNat - 1 - (n + 1) = room := by omega
      rw [if_pos (hbelow.mpr hlt), ih (h.put b) hlt, hroom, hrest, List.take_succ_cons, stores]
      simp [Sink.put, h.out]
    · have hroom : size.toNat - 1 - n = 0 := by omega
      rw [if_neg fun hc => hlt (hbelow.mp hc), hroom]
      simp [stores]

theorem At.copy_writes (h : At n s) (hsize : size ≠ 0) {text : List U8}
    (hroom : n + text.length ≤ size.toNat - 1) :
    (copyBounded size text s).writes = stores n text ++ s.writes := by
  rw [h.copy_take hsize (by omega), List.take_of_length_le (by omega)]

theorem At.emit_writes (h : At n s) (hsize : size ≠ 0) {c : Chunk}
    (hroom : n + c.text.length ≤ size.toNat - 1) :
    (Libc.emit size c s).writes = stores n c.text ++ s.writes := by
  cases c with
  | copied text => exact h.copy_writes hsize hroom
  | byte b =>
    show (s.out, b) :: s.writes = _
    rw [h.out]
    rfl
  | unknown d =>
    show (s.out + 1, d) :: (s.out, ch '%') :: s.writes = _
    rw [h.out]
    rfl

theorem At.emitAll_writes (h : At n s) (hsize : size ≠ 0) {chunks : List Chunk}
    (hroom : n + (textOf chunks).length ≤ size.toNat - 1) :
    (Libc.emitAll size chunks s).writes = stores n (textOf chunks) ++ s.writes ∧
      (Libc.emitAll size chunks s).out = n + (textOf chunks).length := by
  induction chunks generalizing n s with
  | nil => exact ⟨rfl, h.out⟩
  | cons c chunks ih =>
    have htext : textOf (c :: chunks) = c.text ++ textOf chunks := List.flatMap_cons
    rw [htext, List.length_append, ← Nat.add_assoc] at hroom ⊢
    rw [Libc.emitAll]
    by_cases hlt : n < size.toNat - 1
    · have hnext : c.next (size.toNat - 1) n = n + c.text.length := by
        cases c with
        | copied text =>
          exact Nat.min_eq_right (Nat.le_trans (Nat.le_add_right _ _) hroom)
        | byte b => rfl
        | unknown d => rfl
      have hemit := h.emit hsize hlt c
      rw [hnext] at hemit
      obtain ⟨hwrites, hout⟩ := ih hemit hroom
      rw [if_pos ((h.below hsize (by omega)).mpr hlt), hwrites, h.emit_writes hsize (by omega),
        stores_append, List.append_assoc]
      exact ⟨rfl, hout⟩
    · -- nothing is left to write
      have hc : c.text = [] := List.eq_nil_of_length_eq_zero (by omega)
      have hrest : textOf chunks = [] := List.eq_nil_of_length_eq_zero (by omega)
      rw [if_neg fun hc => hlt ((h.below hsize (by omega)).mp hc), hc, hrest]
      exact ⟨rfl, h.out⟩

end

theorem vsprintf_writes (format : CStr) (args : Args)
    (hroom : (textOf (expand args format.bytes 0)).length ≤ 2^64 - 2) :
    (vsprintf format args).2 =
      ((textOf (expand args format.bytes 0)).length, 0) ::
        stores 0 (textOf (expand args format.bytes 0)) := by
  have hstart : At 0 ⟨0, 0, []⟩ := ⟨rfl, rfl, fun w hw => absurd hw List.not_mem_nil⟩
  have hsize : (-1 : U64) ≠ 0 := by decide
  have hroom' : 0 + (textOf (expand args format.bytes 0)).length ≤ (-1 : U64).toNat - 1 := by
    rw [Nat.zero_add]
    exact hroom
  obtain ⟨hwrites, hout⟩ := hstart.emitAll_writes hsize hroom'
  rw [vsprintf, vsnprintf, formatLoop_eq, if_pos (by decide), hwrites, hout]
  simp

end JarJar.Libc
