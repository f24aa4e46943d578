import JarJar.Strftime

/- The bound of `strftime`. The loop asks for room for one byte more; what a directive does
   beyond that is up to `snprintf`, which keeps to the room it is given, or to the cases
   that store by themselves. Those two leave a gap behind what they store, because the
   index moves twice, and `%02d` in two bytes of room stores the NUL behind them.

   Correspondence (C ↔ Lean):
     a directive that does none of these   ↔ `Token.Fits`
     formats that meet no other            ↔ `Clean`
     what is promised of `s`               ↔ `InBuffer`
   What is proved is `strftime_buffer_iff`. -/
namespace JarJar.Libc

/-! ## One case -/

section
variable {max : U64} {o : Stamp}

theorem toNat_room (hlt : o.count.toNat + 1 < max.toNat) :
    (max - o.count).toNat = max.toNat - o.count.toNat :=
  BitVec.toNat_sub_of_le (show o.count.toNat ≤ max.toNat by omega)

theorem toNat_advance {n : U64} {k : Nat} (h : n.toNat + k < 2^64) :
    (n + BitVec.ofInt 64 k).toNat = n.toNat + k := by
  rw [BitVec.ofInt_natCast, BitVec.toNat_add, BitVec.toNat_ofNat, Nat.mod_eq_of_lt (a := k) (by omega),
    Nat.mod_eq_of_lt h]

theorem directive_print {format : CStr} {args : Args} {text : List U8}
    (hprints : Prints format args text (max - o.count)) (hlt : o.count.toNat + 1 < max.toNat) :
    let stored := text.take (max.toNat - 1 - o.count.toNat)
    (o.directive max (.print format args)).count.toNat = o.count.toNat + stored.length ∧
      (o.directive max (.print format args)).writes =
        (o.count.toNat + stored.length, 0) :: stores o.count.toNat stored ++ o.writes := by
  intro stored
  have hroom := toNat_room hlt
  have hsize := max.isLt
  have hlength : stored.length = min ((max - o.count).toNat - 1) text.length := by
    rw [List.length_take]
    omega
  have hstored : text.take ((max - o.count).toNat - 1) = stored := by
    rw [hroom, Nat.sub_right_comm]
  unfold Prints at hprints
  rw [hstored, ← hlength] at hprints
  have hfield : o.field max (.print format args) = ((stored.length : Int),
      ⟨o.count, (o.count.toNat + stored.length, 0) :: stores o.count.toNat stored ++ o.writes⟩) := by
    rw [Stamp.field, hprints]
    simp [stores_shift]
  unfold Stamp.directive
  rw [hfield]
  dsimp only
  by_cases hpos : 0 < stored.length
  · rw [if_pos (by omega)]
    exact ⟨toNat_advance (by omega), rfl⟩
  · rw [if_neg (by omega)]
    refine ⟨?_, rfl⟩
    dsimp only
    omega

theorem directive_cramped (v : Int) (hroom : max.toNat = o.count.toNat + 2) :
    (o.directive max (.print (literal "%02d") (intArg v))).count.toNat = o.count.toNat + 2 ∧
      (o.directive max (.print (literal "%02d") (intArg v))).writes =
        [(o.count.toNat + 2, 0), (o.count.toNat + 1, ch '0'), (o.count.toNat, ch '%')] ++ o.writes := by
  have htwo : max - o.count = 2 := by
    apply BitVec.eq_of_toNat_eq
    rw [toNat_room (by omega), hroom]
    exact Nat.add_sub_cancel_left _ _
  have hfield : o.field max (.print (literal "%02d") (intArg v)) = (2, ⟨o.count,
      [(o.count.toNat + 2, 0), (o.count.toNat + 1, ch '0'), (o.count.toNat, ch '%')] ++ o.writes⟩) := by
    rw [Stamp.field, htwo, snprintf_cramped]
    rfl
  have hsum : o.count.toNat + 2 < 2^64 := hroom ▸ max.isLt
  unfold Stamp.directive
  rw [hfield]
  exact ⟨toNat_advance hsum, rfl⟩

theorem put_count (hlt : o.count.toNat + 1 < 2^64) (b : U8) :
    (o.put b).count.toNat = o.count.toNat + 1 := by
  unfold Stamp.put
  rw [BitVec.toNat_add]
  exact Nat.mod_eq_of_lt hlt

theorem directive_percent (hlt : o.count.toNat + 1 < max.toNat) :
    (o.directive max .percent).count.toNat = o.count.toNat + 2 ∧
      (o.directive max .percent).writes = (o.count.toNat, ch '%') :: o.writes := by
  have hmax := max.isLt
  have hput := put_count (show o.count.toNat + 1 < 2^64 by omega) (ch '%')
  refine ⟨?_, rfl⟩
  show ((o.put (ch '%')).count + BitVec.ofInt 64 (1 : Nat)).toNat = _
  rw [toNat_advance (by omega), hput]

theorem directive_unknown (hlt : o.count.toNat + 1 < max.toNat)
    (hsafe : max.toNat + 1 < 2^64 ∨ o.count.toNat + 4 < 2^64) (d : U8) :
    ∃ k ≤ 1, (o.directive max (.unknown d)).count.toNat = o.count.toNat + 3 + k ∧
      (k = 0 → max.toNat = o.count.toNat + 2) ∧
      ∃ new, (o.directive max (.unknown d)).writes = new ++ o.writes ∧
        ∀ w ∈ new, o.count.toNat ≤ w.1 ∧ w.1 ≤ o.count.toNat + k := by
  have hmax := max.isLt
  have hput := put_count (show o.count.toNat + 1 < 2^64 by omega) (ch '%')
  have hzero : max ≠ 0 := by
    rintro rfl
    contradiction
  by_cases hmore : o.count.toNat + 2 < max.toNat
  · have hput' := put_count (show (o.put (ch '%')).count.toNat + 1 < 2^64 by omega) d
    have hdirective : o.directive max (.unknown d) =
        { (o.put (ch '%')).put d with
          count := ((o.put (ch '%')).put d).count + BitVec.ofInt 64 (2 : Nat) } := by
      rw [Stamp.directive, Stamp.field, if_pos ((below_bound hzero _).mpr (by omega))]
      rfl
    rw [hdirective]
    refine ⟨1, by omega, ?_, by omega, [(o.count.toNat + 1, d), (o.count.toNat, ch '%')], ?_, ?_⟩
    · dsimp only
      rw [toNat_advance (by omega)]
      omega
    · dsimp only
      rw [Stamp.put, hput]
      rfl
    · simp
  · have hdirective : o.directive max (.unknown d) =
        { o.put (ch '%') with count := (o.put (ch '%')).count + BitVec.ofInt 64 (2 : Nat) } := by
      have hfull : ¬(o.put (ch '%')).count < max - 1 := by
        rw [below_bound hzero, hput]
        omega
      rw [Stamp.directive, Stamp.field, if_neg hfull]
      rfl
    rw [hdirective]
    refine ⟨0, by omega, ?_, by omega, [(o.count.toNat, ch '%')], rfl, ?_⟩
    · dsimp only
      rw [toNat_advance (by omega)]
      omega
    · simp

end

/-! ## One token -/

def Token.width (tm : Tm) : Token → Nat
  | .byte _ => 1
  | .directive d => directiveWidth tm d

/-- What a token stores keeps to the room, and is as long as the index moves. -/
def Token.Fits (room : Nat) : Token → Prop
  | .byte _ => True
  | .directive d => d ∈ printedLetters ∨ d ∈ twoDigitLetters ∧ room ≠ 2

/-- `text` is stored up to the index, and nothing but a NUL behind it. -/
structure Spells (text : List U8) (o : Stamp) : Prop where
  count : o.count.toNat = text.length
  below : ∀ w ∈ o.writes, w.1 ≤ text.length
  spelled : ∀ (i : Nat) (hi : i < text.length), o.writes.lookup i = some text[i]

/-- The index has not moved back, and the stores since are not below it. -/
structure Extends (o o' : Stamp) : Prop where
  count : o.count.toNat ≤ o'.count.toNat
  writes : ∃ new, o'.writes = new ++ o.writes ∧ ∀ w ∈ new, o.count.toNat ≤ w.1

theorem Extends.refl (o : Stamp) : Extends o o where
  count := Nat.le_refl _
  writes := ⟨[], rfl, by simp⟩

theorem Extends.trans {a b c : Stamp} (h : Extends a b) (h' : Extends b c) : Extends a c := by
  obtain ⟨new, hnew, hge⟩ := h.writes
  obtain ⟨new', hnew', hge'⟩ := h'.writes
  refine ⟨Nat.le_trans h.count h'.count, new' ++ new, by rw [hnew', hnew, List.append_assoc], ?_⟩
  intro w hw
  cases List.mem_append.mp hw with
  | inl hlate => exact Nat.le_trans h.count (hge' w hlate)
  | inr hearly => exact hge w hearly

/-- Something is stored behind the buffer, or a byte below the index is not stored. -/
def Broken (max : Nat) (o : Stamp) : Prop :=
  (∃ w ∈ o.writes, max ≤ w.1) ∨ ∃ i < o.count.toNat, ∀ w ∈ o.writes, w.1 ≠ i

theorem Broken.extends {max : Nat} {o o' : Stamp} (h : Broken max o) (h' : Extends o o') :
    Broken max o' := by
  obtain ⟨new, hnew, hge⟩ := h'.writes
  rw [Broken, hnew]
  rcases h with ⟨w, hw, hmax⟩ | ⟨i, hi, hnone⟩
  · exact .inl ⟨w, List.mem_append_right new hw, hmax⟩
  · refine .inr ⟨i, Nat.lt_of_lt_of_le hi h'.count, ?_⟩
    intro w hw
    cases List.mem_append.mp hw with
    | inl hlate => exact Nat.ne_of_gt (Nat.lt_of_lt_of_le hi (hge w hlate))
    | inr hearly => exact hnone w hearly

section
variable {text stored : List U8} {o o' : Stamp}

theorem Spells.append (h : Spells text o) (nul : List (Nat × U8))
    (hcount : o'.count.toNat = o.count.toNat + stored.length)
    (hwrites : o'.writes = nul ++ stores o.count.toNat stored ++ o.writes)
    (hnul : ∀ w ∈ nul, w.1 = o.count.toNat + stored.length) : Spells (text ++ stored) o' := by
  rw [h.count] at hcount hwrites hnul
  refine ⟨by rw [hcount, List.length_append], ?_, ?_⟩
  · intro w hw
    rw [List.length_append]
    rw [hwrites, List.append_assoc] at hw
    rcases List.mem_append.mp hw with hw | hw
    · exact Nat.le_of_eq (hnul w hw)
    rcases List.mem_append.mp hw with hw | hw
    · exact Nat.le_of_lt (mem_stores hw).2
    · exact Nat.le_trans (h.below w hw) (Nat.le_add_right _ _)
  · intro i hi
    rw [List.length_append] at hi
    rw [hwrites, List.append_assoc, lookup_of_ne fun w hw => by rw [hnul w hw]; omega]
    by_cases hold : i < text.length
    · rw [lookup_of_ne fun w hw => by have hge := (mem_stores hw).1; omega, h.spelled i hold,
        List.getElem_append_left hold]
    · obtain ⟨j, rfl⟩ := Nat.exists_eq_add_of_le (Nat.le_of_not_lt hold)
      rw [lookup_stores text.length o.writes (by omega), List.getElem_append_right (by omega)]
      simp

theorem Spells.lookup_extends (h : Spells text o) (h' : Extends o o') {i : Nat} (hi : i < text.length) :
    o'.writes.lookup i = some text[i] := by
  obtain ⟨new, hnew, hge⟩ := h'.writes
  have hcount := h.count
  rw [hnew, lookup_of_ne, h.spelled i hi]
  intro w hw
  have hle := hge w hw
  omega

theorem Spells.put (h : Spells text o) (hlt : o.count.toNat + 1 < 2^64) (b : U8) :
    Spells (text ++ [b]) (o.put b) :=
  h.append [] (put_count hlt b) rfl (by simp)

end

section
variable {max : U64} {tm : Tm} {o o' : Stamp}

/-- What a directive does: it prints what has room, or one of the three cases that do not
keep the bound. -/
theorem strftimeDirective_cases {d : U8} (hlt : o.count.toNat + 1 < max.toNat)
    (hstep : strftimeDirective max tm d o = some o') :
    ((Token.directive d).Fits (max.toNat - o.count.toNat) ∧
      ∃ text : List U8, text.length = directiveWidth tm d ∧
        let stored := text.take (max.toNat - 1 - o.count.toNat)
        o'.count.toNat = o.count.toNat + stored.length ∧
          o'.writes = (o.count.toNat + stored.length, 0) :: stores o.count.toNat stored ++ o.writes) ∨
    (¬(Token.directive d).Fits (max.toNat - o.count.toNat) ∧
      ((directiveWidth tm d = 4 ∧ max.toNat = o.count.toNat + 2 ∧
          ∃ v, o' = o.directive max (.print (literal "%02d") (intArg v))) ∨
        (directiveWidth tm d = 2 ∧ o' = o.directive max .percent) ∨
        (d ∉ printedLetters ∧ d ∉ twoDigitLetters ∧ directiveWidth tm d = 4 ∧
          o' = o.directive max (.unknown d)))) := by
  have hsize : max - o.count ≠ 0 := by
    intro hzero
    have hroom := toNat_room hlt
    rw [hzero] at hroom
    have hnone : (0 : U64).toNat = 0 := rfl
    omega
  unfold strftimeDirective at hstep
  obtain ⟨field, hfield, rfl⟩ := Option.map_eq_some_iff.mp hstep
  by_cases hprinted : d ∈ printedLetters
  · obtain ⟨format, args, text, rfl, hwidth, hprints⟩ := strftimeField_printed hprinted hfield
    exact .inl ⟨.inl hprinted, text, hwidth, directive_print (hprints _ hsize) hlt⟩
  by_cases htwo : d ∈ twoDigitLetters
  · obtain ⟨v, hv⟩ := strftimeField_two tm htwo
    obtain rfl : Field.print (literal "%02d") (intArg v) = field := Option.some.inj (hv.symm.trans hfield)
    by_cases hroom : max.toNat - o.count.toNat = 2
    · refine .inr ⟨?_, .inl ⟨directiveWidth_two htwo, by omega, v, rfl⟩⟩
      rintro (hd | ⟨-, hne⟩)
      · exact hprinted hd
      · exact hne hroom
    · have hprints := prints_two v (show 2 < (max - o.count).toNat by rw [toNat_room hlt]; omega)
      exact .inl ⟨.inr ⟨htwo, hroom⟩, (literal "%02d").bytes, (directiveWidth_two htwo).symm,
        directive_print hprints hlt⟩
  · have hfits : ¬(Token.directive d).Fits (max.toNat - o.count.toNat) := by
      rintro (hd | ⟨hd, -⟩)
      · exact hprinted hd
      · exact htwo hd
    obtain ⟨hother, hwidth⟩ := strftimeField_other tm hprinted htwo
    obtain rfl := Option.some.inj (hother.symm.trans hfield)
    refine .inr ⟨hfits, .inr ?_⟩
    by_cases hpercent : d = ch '%'
    · rw [if_pos hpercent] at hwidth ⊢
      exact .inl ⟨hwidth, rfl⟩
    · rw [if_neg hpercent] at hwidth ⊢
      exact .inr ⟨hprinted, htwo, hwidth, rfl⟩

theorem strftimeToken_fits {text : List U8} {tok : Token} (h : Spells text o)
    (hlt : o.count.toNat + 1 < max.toNat) (hfits : tok.Fits (max.toNat - o.count.toNat))
    (hstep : strftimeToken max tm o tok = some o') :
    ∃ stored : List U8, stored.length = min (max.toNat - 1 - o.count.toNat) (tok.width tm) ∧
      Spells (text ++ stored) o' := by
  have hmax := max.isLt
  cases tok with
  | byte c =>
    obtain rfl := Option.some.inj hstep
    have hone : min (max.toNat - 1 - o.count.toNat) 1 = 1 := Nat.min_eq_right (by omega)
    refine ⟨[c], hone.symm, ?_⟩
    exact h.put (by omega) c
  | directive d =>
    rcases strftimeDirective_cases hlt hstep with ⟨-, t, hwidth, hcount, hwrites⟩ | ⟨hunfit, -⟩
    · refine ⟨t.take (max.toNat - 1 - o.count.toNat), by rw [List.length_take, hwidth]; rfl, ?_⟩
      exact h.append [_] hcount hwrites (by simp)
    · exact absurd hfits hunfit

theorem Token.width_le (tm : Tm) (tok : Token) : tok.width tm ≤ 34 := by
  cases tok with
  | byte c => exact show 1 ≤ 34 by decide
  | directive d => exact directiveWidth_le tm d

/-- The index does not wrap around: the bound comes before that, the tokens are too few,
or they are all printed and keep to the bound. -/
def Safe (max : U64) (count : Nat) (toks : List Token) : Prop :=
  max.toNat + 1 < 2^64 ∨ count + 34 * toks.length < 2^64 ∨
    ∀ d, Token.directive d ∈ toks → d ∈ printedLetters ∨ d ∈ twoDigitLetters

theorem Safe.next (tm : Tm) {tok : Token} {toks : List Token} {count count' : Nat}
    (h : Safe max count (tok :: toks)) (hcount : count' ≤ count + tok.width tm) :
    Safe max count' toks := by
  have hwidth := tok.width_le tm
  refine h.imp_right (Or.imp (fun hfew => ?_) fun hall d hd => hall d (List.mem_cons_of_mem _ hd))
  rw [List.length_cons] at hfew
  omega

theorem Safe.unknown {d : U8} {toks : List Token} {count : Nat}
    (h : Safe max count (.directive d :: toks)) (hprinted : d ∉ printedLetters)
    (htwo : d ∉ twoDigitLetters) : max.toNat + 1 < 2^64 ∨ count + 4 < 2^64 := by
  refine h.imp_right fun h => h.elim (fun hfew => ?_) fun hall => ?_
  · rw [List.length_cons] at hfew
    omega
  · exact absurd (hall d List.mem_cons_self) (not_or.mpr ⟨hprinted, htwo⟩)

/-- A token that does not fit breaks what is promised of the buffer. -/
theorem strftimeToken_unfit {text : List U8} {tok : Token} {toks : List Token} (h : Spells text o)
    (hlt : o.count.toNat + 1 < max.toNat) (hsafe : Safe max o.count.toNat (tok :: toks))
    (hunfit : ¬tok.Fits (max.toNat - o.count.toNat)) (hstep : strftimeToken max tm o tok = some o') :
    Broken max.toNat o' := by
  have hbelow : ∀ w ∈ o.writes, w.1 ≤ o.count.toNat := by rw [h.count]; exact h.below
  cases tok with
  | byte c => exact absurd trivial hunfit
  | directive d =>
    rcases strftimeDirective_cases hlt hstep with ⟨hfits, -⟩ | ⟨-, hcases⟩
    · exact absurd hfits hunfit
    rcases hcases with ⟨-, hroom, v, rfl⟩ | ⟨-, rfl⟩ | ⟨hprinted, htwo, -, rfl⟩
    · -- the NUL of `snprintf` is stored behind the buffer
      have hwrites := (directive_cramped v hroom).2
      exact .inl ⟨(o.count.toNat + 2, 0), by rw [hwrites]; simp, by omega⟩
    · -- the second of the two bytes is never stored
      obtain ⟨hcount, hwrites⟩ := directive_percent hlt
      refine .inr ⟨o.count.toNat + 1, by omega, ?_⟩
      intro w hw
      rw [hwrites] at hw
      cases List.mem_cons.mp hw with
      | inl hnew => rw [hnew]; dsimp only; omega
      | inr hold => have hle := hbelow w hold; omega
    · obtain ⟨k, hk, hcount, -, new, hwrites, hnew⟩ :=
        directive_unknown hlt (hsafe.unknown hprinted htwo) d
      refine .inr ⟨o.count.toNat + 2, by omega, ?_⟩
      intro w hw
      rw [hwrites] at hw
      cases List.mem_append.mp hw with
      | inl hstored => have hle := (hnew w hstored).2; omega
      | inr hold => have hle := hbelow w hold; omega

/-- The index is where the widths end, until one of them reaches the bound. -/
def Tracks (max w : Nat) (o : Stamp) : Prop :=
  o.count.toNat = w ∨ max ≤ o.count.toNat + 1 ∧ max ≤ w + 1

theorem strftimeToken_extends {tok : Token} {toks : List Token}
    (hlt : o.count.toNat + 1 < max.toNat) (hsafe : Safe max o.count.toNat (tok :: toks))
    (hstep : strftimeToken max tm o tok = some o') :
    Extends o o' ∧ Tracks max.toNat (o.count.toNat + tok.width tm) o' ∧
      Safe max o'.count.toNat toks := by
  cases tok with
  | byte c =>
    obtain rfl := Option.some.inj hstep
    have hput := put_count (show o.count.toNat + 1 < 2^64 by omega) c
    exact ⟨⟨by omega, [(o.count.toNat, c)], rfl, by simp⟩, .inl hput, hsafe.next tm (Nat.le_of_eq hput)⟩
  | directive d =>
    have hdirective : (Token.directive d).width tm = directiveWidth tm d := rfl
    have hnext {count : Nat} (hcount : count ≤ o.count.toNat + directiveWidth tm d) :
        Safe max count toks := hsafe.next tm hcount
    rw [hdirective]
    rcases strftimeDirective_cases hlt hstep with ⟨-, text, hwidth, hcount, hwrites⟩ | ⟨-, hcases⟩
    · rw [List.length_take] at hcount
      refine ⟨⟨by omega, _, hwrites, ?_⟩, ?_, hnext (by omega)⟩
      · intro w hw
        cases List.mem_cons.mp hw with
        | inl hnul => rw [hnul]; exact Nat.le_add_right _ _
        | inr hstored => exact (mem_stores hstored).1
      · unfold Tracks
        omega
    rcases hcases with ⟨hwidth, hroom, v, rfl⟩ | ⟨hwidth, rfl⟩ | ⟨hprinted, htwo, hwidth, rfl⟩
    · obtain ⟨hcount, hwrites⟩ := directive_cramped v hroom
      refine ⟨⟨by omega, _, hwrites, by simp⟩, .inr ?_, hnext (by omega)⟩
      omega
    · obtain ⟨hcount, hwrites⟩ := directive_percent hlt
      refine ⟨⟨by omega, [(o.count.toNat, ch '%')], hwrites, by simp⟩, .inl ?_, hnext (by omega)⟩
      omega
    · obtain ⟨k, hk, hcount, hfull, new, hwrites, hnew⟩ :=
        directive_unknown hlt (hsafe.unknown hprinted htwo) d
      refine ⟨⟨by omega, new, hwrites, fun w hw => (hnew w hw).1⟩, ?_, hnext (by omega)⟩
      unfold Tracks
      omega

end

/-! ## A whole run -/

/-- Every token that is reached before the bound fits into the room it meets. -/
def CleanFrom (max : Nat) (tm : Tm) : Nat → List Token → Prop
  | _, [] => True
  | w, tok :: toks => w + 1 < max → tok.Fits (max - w) ∧ CleanFrom max tm (w + tok.width tm) toks

def Clean (max : U64) (tm : Tm) (format : CStr) : Prop :=
  CleanFrom max.toNat tm 0 (tokens format.bytes)

/-- What is promised of `s`: stores inside of the buffer, a NUL at the index returned, and
no byte left out below it. -/
def InBuffer (max : U64) (r : U64 × List (Nat × U8)) : Prop :=
  (∀ w ∈ r.2, w.1 < max.toNat) ∧ r.2.lookup r.1.toNat = some 0 ∧
    ∀ i < r.1.toNat, ∃ b, (i, b) ∈ r.2

section
variable {max : U64} {tm : Tm} {o o' : Stamp} {toks : List Token}

theorem Tracks.eq {max w : Nat} {o : Stamp} (h : Tracks max w o) (hw : w + 1 < max) :
    o.count.toNat = w := by
  unfold Tracks at h
  omega

theorem Tracks.below_iff {max w : Nat} {o : Stamp} (h : Tracks max w o) :
    o.count.toNat + 1 < max ↔ w + 1 < max := by
  unfold Tracks at h
  omega

theorem strftimeTokens_go {tok : Token} (hmax : max ≠ 0) (hlt : o.count.toNat + 1 < max.toNat) :
    strftimeTokens max tm (tok :: toks) o =
      (strftimeToken max tm o tok).bind (strftimeTokens max tm toks) := by
  rw [strftimeTokens, if_pos ((below_bound hmax _).mpr hlt)]

theorem strftimeTokens_stop {tok : Token} (hmax : max ≠ 0) (hfull : ¬o.count.toNat + 1 < max.toNat) :
    strftimeTokens max tm (tok :: toks) o = some o := by
  rw [strftimeTokens, if_neg fun h => hfull ((below_bound hmax _).mp h)]

theorem strftimeTokens_extends (hmax : max ≠ 0) (hsafe : Safe max o.count.toNat toks)
    (hrun : strftimeTokens max tm toks o = some o') : Extends o o' := by
  induction toks generalizing o with
  | nil =>
    obtain rfl := Option.some.inj hrun
    exact .refl o
  | cons tok toks ih =>
    by_cases hlt : o.count.toNat + 1 < max.toNat
    · rw [strftimeTokens_go hmax hlt] at hrun
      obtain ⟨o₁, hstep, hrest⟩ := Option.bind_eq_some_iff.mp hrun
      obtain ⟨hextends, -, hsafe'⟩ := strftimeToken_extends hlt hsafe hstep
      exact hextends.trans (ih hsafe' hrest)
    · rw [strftimeTokens_stop hmax hlt] at hrun
      obtain rfl := Option.some.inj hrun
      exact .refl o

theorem strftimeTokens_clean {text : List U8} {w : Nat} (hmax : max ≠ 0) (h : Spells text o)
    (hroom : text.length < max.toNat) (htracks : Tracks max.toNat w o)
    (hclean : CleanFrom max.toNat tm w toks) (hrun : strftimeTokens max tm toks o = some o') :
    ∃ text' : List U8, text'.length < max.toNat ∧ Spells text' o' := by
  induction toks generalizing text o w with
  | nil =>
    obtain rfl := Option.some.inj hrun
    exact ⟨text, hroom, h⟩
  | cons tok toks ih =>
    by_cases hlt : o.count.toNat + 1 < max.toNat
    · rw [strftimeTokens_go hmax hlt] at hrun
      obtain ⟨o₁, hstep, hrest⟩ := Option.bind_eq_some_iff.mp hrun
      have hw := htracks.below_iff.mp hlt
      obtain ⟨hfits, hclean'⟩ := hclean hw
      rw [← htracks.eq hw] at hfits
      obtain ⟨stored, hlength, hspells⟩ := strftimeToken_fits h hlt hfits hstep
      have hcount := hspells.count
      have hindex := h.count
      have hplace := htracks.eq hw
      rw [List.length_append] at hcount
      have hnext : Tracks max.toNat (w + tok.width tm) o₁ := by
        unfold Tracks
        omega
      exact ih hspells (by rw [List.length_append]; omega) hnext hclean' hrest
    · rw [strftimeTokens_stop hmax hlt] at hrun
      obtain rfl := Option.some.inj hrun
      exact ⟨text, hroom, h⟩

theorem strftimeTokens_unclean {text : List U8} {w : Nat} (hmax : max ≠ 0)
    (hsafe : Safe max o.count.toNat toks) (h : Spells text o) (htracks : Tracks max.toNat w o)
    (hunclean : ¬CleanFrom max.toNat tm w toks) (hrun : strftimeTokens max tm toks o = some o') :
    Broken max.toNat o' := by
  induction toks generalizing text o w with
  | nil => exact absurd trivial hunclean
  | cons tok toks ih =>
    rw [CleanFrom, Classical.not_imp, not_and_or] at hunclean
    obtain ⟨hw, hunclean⟩ := hunclean
    have hlt := htracks.below_iff.mpr hw
    rw [strftimeTokens_go hmax hlt] at hrun
    obtain ⟨o₁, hstep, hrest⟩ := Option.bind_eq_some_iff.mp hrun
    obtain ⟨-, htracks', hsafe'⟩ := strftimeToken_extends hlt hsafe hstep
    rw [htracks.eq hw] at htracks'
    by_cases hfits : tok.Fits (max.toNat - o.count.toNat)
    · obtain ⟨stored, -, hspells⟩ := strftimeToken_fits h hlt hfits hstep
      rw [htracks.eq hw] at hfits
      exact ih hsafe' hspells htracks' (hunclean.resolve_left fun hno => hno hfits) hrest
    · have hbroken := strftimeToken_unfit h hlt hsafe hfits hstep
      exact hbroken.extends (strftimeTokens_extends hmax hsafe' hrest)

theorem strftimeTokens_total (max : U64) (hmon : 0 ≤ tm.mon ∧ tm.mon < 12) (hwday : 0 ≤ tm.wday ∧ tm.wday < 7)
    (toks : List Token) (o : Stamp) : ∃ o', strftimeTokens max tm toks o = some o' := by
  induction toks generalizing o with
  | nil => exact ⟨o, rfl⟩
  | cons tok toks ih =>
    rw [strftimeTokens]
    by_cases hlt : o.count < max - 1
    · have hstep : ∃ o₁, strftimeToken max tm o tok = some o₁ := by
        cases tok with
        | byte c => exact ⟨o.put c, rfl⟩
        | directive d =>
          have hfield : strftimeField tm d ≠ none := fun h =>
            ((strftimeField_none_iff hmon).mp h).2 hwday
          obtain ⟨field, hfield⟩ := Option.ne_none_iff_exists'.mp hfield
          exact ⟨o.directive max field, by rw [strftimeToken, strftimeDirective, hfield, Option.map_some]⟩
      obtain ⟨o₁, hstep⟩ := hstep
      rw [if_pos hlt, hstep, Option.bind_some]
      exact ih o₁
    · exact ⟨o, if_neg hlt⟩

end

theorem spells_start : Spells [] ⟨0, []⟩ where
  count := rfl
  below := by simp
  spelled i hi := absurd hi (Nat.not_lt_zero i)

theorem Spells.inBuffer {max : U64} {text : List U8} {o : Stamp} (h : Spells text o)
    (hroom : text.length < max.toNat) : InBuffer max (o.count, (o.count.toNat, 0) :: o.writes) := by
  refine ⟨?_, List.lookup_cons_self, ?_⟩
  · intro w hw
    cases List.mem_cons.mp hw with
    | inl hnul => rw [hnul]; exact h.count.symm ▸ hroom
    | inr hstored => exact Nat.lt_of_le_of_lt (h.below w hstored) hroom
  · intro i hi
    have hlt : i < text.length := Nat.lt_of_lt_of_eq hi h.count
    obtain ⟨before, after, hwrites, -⟩ := List.lookup_eq_some_iff.mp (h.spelled i hlt)
    refine ⟨text[i], List.mem_cons_of_mem _ ?_⟩
    rw [hwrites]
    exact List.mem_append_right _ List.mem_cons_self

theorem Broken.not_inBuffer {max : U64} {o : Stamp} (h : Broken max.toNat o) :
    ¬InBuffer max (o.count, (o.count.toNat, 0) :: o.writes) := by
  rintro ⟨hinside, -, hwritten⟩
  rcases h with ⟨w, hw, hmax⟩ | ⟨i, hi, hnone⟩
  · exact Nat.not_lt_of_le hmax (hinside w (List.mem_cons_of_mem _ hw))
  · obtain ⟨b, hb⟩ := hwritten i hi
    cases List.mem_cons.mp hb with
    | inl hnul => exact Nat.ne_of_lt hi (congrArg Prod.fst hnul)
    | inr hstored => exact hnone _ hstored rfl

/-- No index wraps around below `SIZE_MAX`, nor for a format of fewer than 2^58 bytes. -/
theorem safe_start {max : U64} {format : CStr} (h : max ≠ -1 ∨ format.bytes.length < 2^58) :
    Safe max (0 : U64).toNat (tokens format.bytes) := by
  rcases h with hlast | hshort
  · have hlt := max.isLt
    have hne : max.toNat ≠ (-1 : U64).toNat := fun h => hlast (BitVec.eq_of_toNat_eq h)
    have hminus : (-1 : U64).toNat = 2^64 - 1 := rfl
    exact .inl (by omega)
  · have hle := tokens_length_le format.bytes
    have hzero : (0 : U64).toNat = 0 := rfl
    exact .inr (.inl (by omega))

theorem gmtime_epoch : gmtime 0 = some ⟨0, 0, 0, 1, 0, 70, 4, 0, -1⟩ :=
  gmtime_of_lt_february (by decide)

/-- **`strftime` and its buffer.** For every time from the epoch on, every buffer that has
room for a byte and every format: a run that meets no directive but those it prints, and
`%02d` nowhere with two bytes of room, stores inside of the buffer, puts a NUL at the index
it returns, and leaves out no byte below. A run that does meet one breaks that, unless the
bound is `SIZE_MAX` and the format has 2^58 bytes. -/
theorem strftime_buffer_iff {t : Int} {tm : Tm} (hepoch : 0 ≤ t) (htm : gmtime t = some tm)
    (max : U64) (hmax : max ≠ 0) (format : CStr) :
    ∃ r, strftime max format tm = some r ∧
      (Clean max tm format → InBuffer max r) ∧
      (max ≠ -1 ∨ format.bytes.length < 2^58 → InBuffer max r → Clean max tm format) := by
  have hmon := (gmtime_fields htm).1
  have hwday : 0 ≤ tm.wday ∧ tm.wday < 7 := by
    refine ⟨(gmtime_wday_iff htm).mpr (.inl (by omega)), ?_⟩
    rw [(gmtime_fields htm).2]
    exact Int.tmod_lt_of_pos _ (by decide)
  obtain ⟨o, hrun⟩ := strftimeTokens_total max hmon hwday (tokens format.bytes) ⟨0, []⟩
  have htracks : Tracks max.toNat 0 ⟨0, []⟩ := .inl rfl
  refine ⟨(o.count, (o.count.toNat, 0) :: o.writes), ?_, ?_, ?_⟩
  · rw [strftime, if_neg hmax, strftimeLoop_eq, hrun, Option.map_some]
  · intro hclean
    obtain ⟨text, hroom, hspells⟩ := strftimeTokens_clean hmax spells_start (toNat_pos hmax) htracks hclean hrun
    exact hspells.inBuffer hroom
  · intro hsmall hinside
    by_contra hunclean
    have hsafe : Safe max (Stamp.mk 0 []).count.toNat (tokens format.bytes) := safe_start hsmall
    exact (strftimeTokens_unclean hmax hsafe spells_start htracks hunclean hrun).not_inBuffer hinside

/-- `%d` in a buffer of 26 bytes, at the epoch. -/
theorem strftime_buffer_iff_epoch :
    ∃ r, strftime 26 (literal "%d") ⟨0, 0, 0, 1, 0, 70, 4, 0, -1⟩ = some r ∧
      (Clean 26 ⟨0, 0, 0, 1, 0, 70, 4, 0, -1⟩ (literal "%d") → InBuffer 26 r) ∧
      ((26 : U64) ≠ -1 ∨ (literal "%d").bytes.length < 2^58 → InBuffer 26 r →
        Clean 26 ⟨0, 0, 0, 1, 0, 70, 4, 0, -1⟩ (literal "%d")) :=
  strftime_buffer_iff (Int.le_refl 0) gmtime_epoch 26 (by decide) (literal "%d")

/-- `%d` in a buffer of two bytes: the NUL is stored behind it. -/
theorem strftime_past_two : ∃ tm r, gmtime 0 = some tm ∧ strftime 2 (literal "%d") tm = some r ∧
    ¬InBuffer 2 r :=
  ⟨_, _, gmtime_epoch, rfl, fun h => absurd (h.1 (2, 0) List.mem_cons_self) (by decide)⟩

end JarJar.Libc
