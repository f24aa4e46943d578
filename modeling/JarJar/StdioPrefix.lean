import JarJar.Stdio

/- What a bounded buffer holds of the text. `vsprintf` is `vsnprintf` under a bound no text
   reaches; under a smaller one the run stops earlier, in the loop over the format or in
   the loop of a directive, and what it has stored by then is the start of the same text.
   Only the two bytes of a directive that is not known are stored without a test between
   them, so that a format must not have one.

   Correspondence (C ↔ Lean):
     the `case` labels of the `switch`   ↔ `KnownDirective`
     formats that stay among them        ↔ `KnownFormat`
   What is proved is `vsnprintf_truncates`. -/
namespace JarJar.Libc

def KnownDirective (d : U8) : Prop :=
  d = ch 'd' ∨ d = ch 'i' ∨ d = ch 'u' ∨ d = ch 'x' ∨ d = ch 'X' ∨ d = ch 'p' ∨ d = ch 's' ∨
    d = ch 'c' ∨ d = ch '%'

/-- Every `%` that is read as the start of a directive starts a known one; a `%` at the
very end is none. -/
def KnownFormat : List U8 → Prop
  | [] => True
  | [_] => True
  | c :: d :: rest =>
    if c = ch '%' then KnownDirective d ∧ KnownFormat rest else KnownFormat (d :: rest)

/-- The chunk is not one of an unknown directive. -/
def Chunk.Known (c : Chunk) : Prop := ∀ d, c ≠ .unknown d

theorem directive_known {args : Args} {d : U8} {arg : Nat} (hd : KnownDirective d) :
    (directive args d arg).2.Known := by
  unfold directive
  intro d' h
  rcases hd with rfl | rfl | rfl | rfl | rfl | rfl | rfl | rfl | rfl <;> simp [ch] at h

theorem expand_known (args : Args) {format : List U8} (hformat : KnownFormat format) (arg : Nat) :
    ∀ c ∈ expand args format arg, c.Known := by
  induction format using List.twoStepInduction generalizing arg with
  | nil => simp [expand]
  | singleton c => simp [expand, Chunk.Known]
  | cons_cons c d rest ih₁ ih₂ =>
    rw [KnownFormat] at hformat
    rw [expand]
    by_cases hc : c = ch '%'
    · rw [if_pos hc] at hformat ⊢
      intro chunk hchunk
      cases List.mem_cons.mp hchunk with
      | inl hhead => rw [hhead]; exact directive_known hformat.1
      | inr htail => exact ih₁ hformat.2 _ chunk htail
    · rw [if_neg hc] at hformat ⊢
      intro chunk hchunk
      cases List.mem_cons.mp hchunk with
      | inl hhead => rw [hhead]; intro d' h; cases h
      | inr htail => exact ih₂ d hformat arg chunk htail

theorem noneAcross_of_known {chunks : List Chunk} (h : ∀ c ∈ chunks, c.Known) (limit n : Nat) :
    NoneAcross limit chunks n := by
  intro pre d post heq
  exact absurd rfl (h (.unknown d) (by simp [heq]) d)

theorem Chunk.next_eq {c : Chunk} {limit n : Nat} (hc : ∀ d, c = .unknown d → n + 1 ≠ limit)
    (hn : n < limit) : c.next limit n = min limit (n + c.text.length) := by
  cases c with
  | copied text => rfl
  | byte b => exact (Nat.min_eq_right hn).symm
  | unknown d =>
    have hroom := hc d rfl
    exact (Nat.min_eq_right (show n + 2 ≤ limit by omega)).symm

section
variable {size : U64} {s : Sink} {n : Nat}

theorem At.emit_take (h : At n s) (hsize : size ≠ 0) (hn : n < size.toNat - 1) {c : Chunk}
    (hc : ∀ d, c = .unknown d → n + 1 ≠ size.toNat - 1) :
    (Libc.emit size c s).writes = stores n (c.text.take (size.toNat - 1 - n)) ++ s.writes := by
  cases c with
  | copied text => exact h.copy_take hsize (Nat.le_of_lt hn) text.bytes
  | byte b =>
    have hall : [b].take (size.toNat - 1 - n) = [b] := List.take_of_length_le (by simp; omega)
    rw [Chunk.text, hall]
    simp [Libc.emit, Sink.put, stores, h.out]
  | unknown d =>
    have hroom := hc d rfl
    have hall : [ch '%', d].take (size.toNat - 1 - n) = [ch '%', d] :=
      List.take_of_length_le (by simp; omega)
    rw [Chunk.text, hall]
    simp [Libc.emit, Sink.put, stores, h.out]

/-- The loop over the format stores its text as far as there is room. -/
theorem At.emitAll_take (h : At n s) (hsize : size ≠ 0) (hn : n ≤ size.toNat - 1)
    {chunks : List Chunk} (hnone : NoneAcross (size.toNat - 1) chunks n) :
    (Libc.emitAll size chunks s).writes =
      stores n ((textOf chunks).take (size.toNat - 1 - n)) ++ s.writes := by
  induction chunks generalizing n s with
  | nil => simp [Libc.emitAll, textOf, stores]
  | cons c chunks ih =>
    have hbelow := h.below hsize (by omega)
    have htext : textOf (c :: chunks) = c.text ++ textOf chunks := List.flatMap_cons
    obtain ⟨hc, hafter⟩ := noneAcross_cons.mp hnone
    rw [Libc.emitAll]
    by_cases hlt : n < size.toNat - 1
    · have hemit := h.emit hsize hlt c
      rw [Chunk.next_eq hc hlt] at hemit
      have hnext : NoneAcross (size.toNat - 1) chunks (min (size.toNat - 1) (n + c.text.length)) := by
        obtain hle | hgt := Nat.le_total (n + c.text.length) (size.toNat - 1)
        · rwa [Nat.min_eq_right hle]
        · exact noneAcross_of_ge (Nat.le_of_eq (Nat.min_eq_left hgt).symm) chunks
      have hrest := ih hemit (Nat.min_le_left _ _) hnext
      have hroom : size.toNat - 1 - min (size.toNat - 1) (n + c.text.length) =
          size.toNat - 1 - n - c.text.length := by omega
      have hplace : stores (min (size.toNat - 1) (n + c.text.length))
            ((textOf chunks).take (size.toNat - 1 - n - c.text.length)) =
          stores (n + (c.text.take (size.toNat - 1 - n)).length)
            ((textOf chunks).take (size.toNat - 1 - n - c.text.length)) := by
        congr 1
        rw [List.length_take]
        omega
      calc (if s.count < size - 1 then Libc.emitAll size chunks (Libc.emit size c s) else s).writes
          = (Libc.emitAll size chunks (Libc.emit size c s)).writes := by rw [if_pos (hbelow.mpr hlt)]
        _ = stores (min (size.toNat - 1) (n + c.text.length))
              ((textOf chunks).take (size.toNat - 1 - n - c.text.length)) ++
              (stores n (c.text.take (size.toNat - 1 - n)) ++ s.writes) := by
            rw [hrest, hroom, h.emit_take hsize hlt hc]
        _ = stores n ((textOf (c :: chunks)).take (size.toNat - 1 - n)) ++ s.writes := by
            rw [hplace, htext, List.take_append, stores_append, List.append_assoc]
    · have hroom : size.toNat - 1 - n = 0 := by omega
      rw [if_neg fun hc => hlt (hbelow.mp hc), hroom]
      simp [stores]

end

theorem vsnprintf_eq_take (size : U64) (format : CStr) (args : Args) {text : List U8}
    (hsize : size ≠ 0) (htext : textOf (expand args format.bytes 0) = text)
    (hnone : NoneAcross (size.toNat - 1) (expand args format.bytes 0) 0)
    (hreturn : min (size.toNat - 1) text.length < 2^31) :
    vsnprintf size format args = (((min (size.toNat - 1) text.length : Nat) : Int),
      (min (size.toNat - 1) text.length, 0) :: stores 0 (text.take (size.toNat - 1))) := by
  rw [vsnprintf, formatLoop_eq]
  generalize expand args format.bytes 0 = chunks at htext hnone ⊢
  have hpos : 0 < size := toNat_pos hsize
  have hstart : At 0 ⟨0, 0, []⟩ := ⟨rfl, rfl, fun w hw => absurd hw List.not_mem_nil⟩
  have hend := hstart.emitAll hsize (Nat.zero_le _) chunks
  have hwrites := hstart.emitAll_take hsize (Nat.zero_le _) hnone
  have hlast : lastIndex (size.toNat - 1) chunks 0 = min (size.toNat - 1) text.length := by
    cases lastIndex_cases (Nat.zero_le (size.toNat - 1)) chunks with
    | inl h => rw [h.2, htext, Nat.zero_add]
    | inr h => exact absurd hnone h.1
  have hlt := size.isLt
  rw [hlast] at hend
  rw [if_pos hpos, hend.out, hend.count, (toInt_count (by omega)).mpr hreturn, hwrites, htext]
  simp

/-- **What a bounded buffer holds.** For every buffer that has room for a byte, every format
of known directives and every arguments: `vsprintf` stores the text of the format, and
`vsnprintf` the first `size - 1` bytes of it, each with a NUL behind and nothing else. Both
return the number of bytes stored before the NUL. -/
theorem vsnprintf_truncates (size : U64) (format : CStr) (args : Args) (hsize : size ≠ 0)
    (hformat : KnownFormat format.bytes)
    (hlength : (textOf (expand args format.bytes 0)).length < 2^31) :
    let text := textOf (expand args format.bytes 0)
    let kept := min text.length (size.toNat - 1)
    vsprintf format args = ((text.length : Int), (text.length, 0) :: stores 0 text) ∧
      vsnprintf size format args = ((kept : Int), (kept, 0) :: stores 0 (text.take kept)) := by
  intro text kept
  have hshort : text.length < 2^31 := hlength
  have hnone := noneAcross_of_known (expand_known args hformat 0)
  -- the bound of `vsprintf` is behind the end of the text
  have hbound : (-1 : U64).toNat - 1 = 2^64 - 2 := rfl
  have htake : text.take kept = text.take (size.toNat - 1) := by
    show text.take (min text.length (size.toNat - 1)) = _
    rw [← List.take_take, List.take_of_length_le]
    rw [List.length_take]
    exact Nat.min_le_right _ _
  refine ⟨?_, ?_⟩
  · rw [vsprintf, vsnprintf_eq_take (-1) format args (by decide) rfl (hnone _ 0) (by omega), hbound,
      Nat.min_eq_right (by omega), List.take_of_length_le (by omega)]
  · rw [vsnprintf_eq_take size format args hsize rfl (hnone _ 0) (by omega), Nat.min_comm, htake]

/-- `%s` in a buffer of three bytes, cut in the middle of `(null)`. -/
theorem vsnprintf_truncates_null :
    let args : Args := ⟨fun _ => 0, fun _ => CStr.empty⟩
    let format : CStr := ⟨[ch '%', ch 's'], by decide⟩
    let text := textOf (expand args format.bytes 0)
    let kept := min text.length (3 - 1)
    vsprintf format args = ((text.length : Int), (text.length, 0) :: stores 0 text) ∧
      vsnprintf 3 format args = ((kept : Int), (kept, 0) :: stores 0 (text.take kept)) :=
  vsnprintf_truncates 3 ⟨[ch '%', ch 's'], by decide⟩ ⟨fun _ => 0, fun _ => CStr.empty⟩ (by decide)
    (by simp [KnownFormat, KnownDirective]) (by decide)

end JarJar.Libc
