import JarJar.Strtok
import JarJar.Lib.Unwinding

/- Several strings cut into tokens at the same time. `strtok_r` keeps nothing but the pointer
   its caller gives it, so callers with buffers of their own may call in any order, each with
   the delimiters it likes at every call, and start again where they like in their buffer.

   Correspondence (C ↔ Lean):
     `char buffer[]` of a client, NUL at its end   ↔ `TokenBuffer`
     `strtok_r(str, delim, &saveptr)` of a client  ↔ `Request`, `Tokenizers.call`
   What one call makes of the string it finds is `cut`. -/
namespace JarJar.Libc

/-- The last byte of a buffer is there for a NUL. -/
structure TokenBuffer where
  start : Nat
  last : Nat

def TokenBuffer.Has (b : TokenBuffer) (x : Nat) : Prop := b.start ≤ x ∧ x ≤ b.last

instance (b : TokenBuffer) : DecidablePred b.Has := fun x =>
  inferInstanceAs (Decidable (b.start ≤ x ∧ x ≤ b.last))

/-- A string that is given lies in the buffer of the client that gives it. -/
structure Request {ι : Type} (buffer : ι → TokenBuffer) where
  client : ι
  str : Option Nat
  delim : CStr
  inside : ∀ p ∈ str, (buffer client).Has p

/-- The memory, and the saved pointer of every client. -/
structure Tokenizers (ι : Type) where
  mem : Memory
  saveptr : ι → Option Nat

section
variable {ι : Type} [DecidableEq ι] {buffer : ι → TokenBuffer}

/-- The state after a call, and the pointer it returns. -/
def Tokenizers.call (fuel : Nat) (s : Tokenizers ι) (r : Request buffer) :
    Option (Tokenizers ι × Option Nat) :=
  (strtokR fuel r.str r.delim (s.saveptr r.client) s.mem).map fun call =>
    (⟨call.mem, Function.update s.saveptr r.client call.saveptr⟩, call.token)

end

/-! ## One call -/

/-- What a call makes of a string: the token, where the next one is looked for, and the byte
that becomes a NUL. -/
structure Cut where
  token : Option Nat
  saveptr : Option Nat
  nul : Option Nat

def isDelim (delim : CStr) (c : U8) : Bool := (strchr delim.bytes c).isSome

def cut (delim : CStr) (p : Nat) (s : List U8) : Cut :=
  let start := (s.takeWhile (isDelim delim)).length
  let stop := start + ((s.drop start).takeWhile fun c => !isDelim delim c).length
  if s.length ≤ start then ⟨none, none, none⟩
  else if s.length ≤ stop then ⟨some (p + start), none, none⟩
  else ⟨some (p + start), some (p + stop + 1), some (p + stop)⟩

/-- The call does with the string from `p` on what the cut says. -/
structure Does (c : Cut) (p : Nat) (s : List U8) (m : Memory) (call : Call) : Prop where
  token : call.token = c.token
  saveptr : call.saveptr = c.saveptr
  bytes : ∀ x, call.mem.bytes x = if c.nul = some x then 0 else m.bytes x
  touched : ∀ x ∈ call.mem.touched, x ∈ m.touched ∨ InString p s x

section
variable {m : Memory} {p x start stop fuel : Nat} {s : List U8} {str saveptr : Option Nat}
  {P : U8 → Bool}

theorem takeWhile_length_le (P : U8 → Bool) (s : List U8) : (s.takeWhile P).length ≤ s.length :=
  (List.takeWhile_prefix P).length_le

theorem inString_drop (hstart : start ≤ s.length) (h : InString (p + start) (s.drop start) x) :
    InString p s x := by
  rw [InString, List.length_drop] at h
  exact ⟨by omega, by omega⟩

theorem skipWhile_drop (P : U8 → Bool) (hs : m.HasString p s) (hstart : start ≤ s.length)
    (hfuel : s.length < fuel) :
    ∃ m', skipWhile P fuel (p + start) m =
        some (p + (start + ((s.drop start).takeWhile P).length), m') ∧
      ReadsOnly (InString p s) m m' := by
  have hfuel' : (s.drop start).length < fuel := by
    rw [List.length_drop]
    omega
  obtain ⟨m', hskip, hreads⟩ := skipWhile_eq (P := P) (hs.drop hstart) hfuel'
  rw [Nat.add_assoc] at hskip
  exact ⟨m', hskip, hreads.mono fun x hx => inString_drop hstart hx⟩

theorem load_drop (hs : m.HasString p s) (hstop : stop ≤ s.length) :
    (m.load (p + stop)).1 = 0 ↔ s.length ≤ stop :=
  (hs.drop hstop).nul_iff.trans List.drop_eq_nil_iff

theorem endToken_does (hs : m.HasString p s) (hstop : stop ≤ s.length) {c : Cut}
    (hc : c = if s.length ≤ stop then ⟨some (p + start), none, none⟩
      else ⟨some (p + start), some (p + stop + 1), some (p + stop)⟩) :
    Does c p s m (endToken (p + start) (p + stop) m) := by
  have hread : ReadsOnly (InString p s) m (m.load (p + stop)).2 :=
    .load ⟨Nat.le_add_right p stop, Nat.add_le_add_left hstop p⟩
  by_cases hend : s.length ≤ stop
  · have hcall : endToken (p + start) (p + stop) m = ⟨some (p + start), none, (m.load (p + stop)).2⟩ :=
      if_neg (not_not_intro ((load_drop hs hstop).mpr hend))
    rw [if_pos hend] at hc
    rw [hcall, hc]
    exact ⟨rfl, rfl, fun x => rfl, hread.touched⟩
  · have hcall : endToken (p + start) (p + stop) m = ⟨some (p + start), some (p + stop + 1),
        (m.load (p + stop)).2.store (p + stop) 0⟩ :=
      if_pos (mt (load_drop hs hstop).mp hend)
    rw [if_neg hend] at hc
    rw [hcall, hc]
    refine ⟨rfl, rfl, fun x => ?_, fun x hx => ?_⟩
    · simp only [Memory.store, Memory.load, Option.some.injEq, eq_comm]
    · obtain rfl | hold := Memory.mem_store_touched.mp hx
      · exact Or.inr ⟨Nat.le_add_right p stop, Nat.add_le_add_left hstop p⟩
      · exact hread.touched x hold

theorem strtokR_does (hp : (if str.isSome then str else saveptr) = some p) (hs : m.HasString p s)
    (hfuel : s.length < fuel) (delim : CStr) :
    ∃ call, strtokR fuel str delim saveptr m = some call ∧ Does (cut delim p s) p s m call := by
  let start := (s.takeWhile (isDelim delim)).length
  let stop := start + ((s.drop start).takeWhile fun c => !isDelim delim c).length
  have hstart : start ≤ s.length := takeWhile_length_le _ s
  have hstop : stop ≤ s.length := by
    have hword := takeWhile_length_le (fun c => !isDelim delim c) (s.drop start)
    rw [List.length_drop] at hword
    omega
  obtain ⟨m₁, hskip₁, hreads₁⟩ := skipWhile_drop (isDelim delim) hs (Nat.zero_le _) hfuel
  have hspan : strspn fuel p delim m = some (start, m₁) := by
    rw [strspn]
    simp only [Nat.zero_add, Nat.add_zero, List.drop_zero] at hskip₁
    rw [show (fun c => (strchr delim.bytes c).isSome) = isDelim delim from rfl, hskip₁]
    simp only [Nat.add_sub_cancel_left]
    rfl
  have hs₁ := hreads₁.hasString hs
  have hreads₂ : ReadsOnly (InString p s) m (m₁.load (p + start)).2 :=
    hreads₁.trans (.load ⟨Nat.le_add_right p start, Nat.add_le_add_left hstart p⟩)
  have hs₂ := hreads₂.hasString hs
  rw [strtokR]
  simp only [hp, hspan]
  by_cases hend : s.length ≤ start
  · refine ⟨_, if_pos ((load_drop hs₁ hstart).mpr hend), ?_⟩
    rw [cut, if_pos hend]
    exact ⟨rfl, rfl, fun x => congrFun hreads₂.bytes x, hreads₂.touched⟩
  · rw [if_neg (mt (load_drop hs₁ hstart).mp hend)]
    obtain ⟨m₃, hskip₃, hreads₃⟩ := skipWhile_drop (fun c => !isDelim delim c) hs₂ hstart hfuel
    have hspan₃ : strcspn fuel (p + start) delim (m₁.load (p + start)).2 =
        some (stop - start, m₃) := by
      rw [strcspn]
      rw [show (fun c => !(strchr delim.bytes c).isSome) = fun c => !isDelim delim c from rfl, hskip₃]
      simp only [Nat.add_sub_add_left]
      rfl
    have hbehind : p + start + (stop - start) = p + stop := by omega
    simp only [hspan₃, hbehind]
    have hreads := hreads₂.trans hreads₃
    have hdoes := endToken_does (c := cut delim p s) (hreads.hasString hs) hstop
      (by rw [cut, if_neg hend])
    refine ⟨_, rfl, hdoes.token, hdoes.saveptr, fun x => ?_, fun x hx => ?_⟩
    · rw [hdoes.bytes, hreads.bytes]
    · obtain hold | hin := hdoes.touched x hx
      · exact hreads.touched x hold
      · exact Or.inr hin

end

/-! ## A buffer -/

section
variable {m m' : Memory} {b : TokenBuffer} {p x : Nat} {s : List U8}

theorem TokenBuffer.exists_string (hp : b.Has p) (hnul : m.bytes b.last = 0) :
    ∃ s, m.HasString p s ∧ p + s.length ≤ b.last := by
  obtain ⟨k, hk⟩ := Nat.exists_eq_add_of_le hp.2
  induction k generalizing p with
  | zero => exact ⟨[], by rwa [Memory.HasString, ← Nat.add_zero p, ← hk], hp.2⟩
  | succ k ih =>
    by_cases hzero : m.bytes p = 0
    · exact ⟨[], hzero, hp.2⟩
    · obtain ⟨s, hs, hle⟩ := ih (p := p + 1) ⟨Nat.le_succ_of_le hp.1, by omega⟩ (by omega)
      refine ⟨m.bytes p :: s, ⟨rfl, hzero, hs⟩, ?_⟩
      rw [List.length_cons]
      omega

theorem TokenBuffer.has_of_inString (hp : b.Has p) (hle : p + s.length ≤ b.last)
    (hx : InString p s x) : b.Has x :=
  ⟨Nat.le_trans hp.1 hx.1, Nat.le_trans hx.2 hle⟩

/-- A call finds no token, or the last one, or one with a delimiter behind it. -/
theorem cut_cases (delim : CStr) (p : Nat) (s : List U8) :
    cut delim p s = ⟨none, none, none⟩ ∨
      (∃ k < s.length, cut delim p s = ⟨some (p + k), none, none⟩) ∨
      ∃ k < s.length, ∃ j < s.length, cut delim p s = ⟨some (p + k), some (p + j + 1), some (p + j)⟩ := by
  rw [cut]
  by_cases hstart : s.length ≤ (s.takeWhile (isDelim delim)).length
  · exact Or.inl (if_pos hstart)
  · refine Or.inr ?_
    rw [if_neg hstart]
    split
    · exact Or.inl ⟨_, Nat.lt_of_not_le hstart, rfl⟩
    · next hstop => exact Or.inr ⟨_, Nat.lt_of_not_le hstart, _, Nat.lt_of_not_le hstop, rfl⟩

/-- The place to go on at and the byte that is cut off lie in the buffer. -/
structure Cut.Inside (c : Cut) (b : TokenBuffer) : Prop where
  saveptr : ∀ p, c.saveptr = some p → b.Has p
  nul : ∀ x, c.nul = some x → b.Has x

theorem cut_inside (delim : CStr) (hp : b.Has p) (hle : p + s.length ≤ b.last) :
    (cut delim p s).Inside b := by
  have hfrom := hp.1
  obtain hcut | ⟨k, -, hcut⟩ | ⟨k, -, j, hj, hcut⟩ := cut_cases delim p s
  · rw [hcut]
    exact ⟨fun _ hq => (nomatch hq), fun _ hq => (nomatch hq)⟩
  · rw [hcut]
    exact ⟨fun _ hq => (nomatch hq), fun _ hq => (nomatch hq)⟩
  · rw [hcut]
    refine ⟨fun q hq => ?_, fun q hq => ?_⟩
    · obtain rfl := Option.some.inj hq
      exact ⟨by omega, by omega⟩
    · obtain rfl := Option.some.inj hq
      exact ⟨by omega, by omega⟩

end

/-! ## All clients -/

section
variable {ι : Type} [DecidableEq ι] {buffer : ι → TokenBuffer}

/-- The buffers end with a NUL, the saved pointers lie in them, and nothing else was touched. -/
structure Tokenizers.Sound (buffer : ι → TokenBuffer) (old : Memory) (s : Tokenizers ι) : Prop where
  nul : ∀ i, s.mem.bytes (buffer i).last = 0
  inside : ∀ i, ∀ p ∈ s.saveptr i, (buffer i).Has p
  outside : ∀ x, (∀ i, ¬ (buffer i).Has x) → s.mem.bytes x = old.bytes x
  touched : ∀ x ∈ s.mem.touched, x ∈ old.touched ∨ ∃ i, (buffer i).Has x

/-- What a client sees: its saved pointer, and its buffer. -/
def Tokenizers.view (buffer : ι → TokenBuffer) (i : ι) (s : Tokenizers ι) :
    Option Nat × ({x // (buffer i).Has x} → U8) :=
  (s.saveptr i, fun x => s.mem.bytes x)

/-- Where a call begins to look. -/
def Tokenizers.pointer (s : Tokenizers ι) (r : Request buffer) : Option Nat :=
  if r.str.isSome then r.str else s.saveptr r.client

omit [DecidableEq ι] in
theorem pointer_inside {old : Memory} {s : Tokenizers ι} (hs : s.Sound buffer old)
    (r : Request buffer) {p : Nat} (hp : s.pointer r = some p) : (buffer r.client).Has p := by
  rw [Tokenizers.pointer] at hp
  split at hp
  · exact r.inside p hp
  · exact hs.inside r.client p hp

section
variable {fuel : Nat} {s t : Tokenizers ι} {r : Request buffer} {q q' : Tokenizers ι × Option Nat}
  {c : Cut} {old : Memory}

/-- What a call returns and leaves. -/
structure Turned (c : Cut) (r : Request buffer) (s : Tokenizers ι) (q : Tokenizers ι × Option Nat) :
    Prop where
  token : q.2 = c.token
  saveptr : q.1.saveptr = Function.update s.saveptr r.client c.saveptr
  bytes : ∀ x, q.1.mem.bytes x = if c.nul = some x then 0 else s.mem.bytes x
  touched : ∀ x ∈ q.1.mem.touched, x ∈ s.mem.touched ∨ (buffer r.client).Has x

theorem call_of_none (h : s.pointer r = none) :
    ∃ q, s.call fuel r = some q ∧ Turned ⟨none, none, none⟩ r s q := by
  have hstrtok : strtokR fuel r.str r.delim (s.saveptr r.client) s.mem = some ⟨none, none, s.mem⟩ := by
    rw [Tokenizers.pointer] at h
    rw [strtokR]
    simp only [h]
  refine ⟨_, by rw [Tokenizers.call, hstrtok]; rfl, rfl, rfl, fun x => rfl, fun x hx => Or.inl hx⟩

theorem call_of_some {p : Nat} {text : List U8} (h : s.pointer r = some p)
    (hin : (buffer r.client).Has p) (hle : p + text.length ≤ (buffer r.client).last)
    (htext : s.mem.HasString p text) (hfuel : text.length < fuel) :
    ∃ q, s.call fuel r = some q ∧ Turned (cut r.delim p text) r s q := by
  obtain ⟨call, hcall, hdoes⟩ := strtokR_does h htext hfuel r.delim
  refine ⟨_, by rw [Tokenizers.call, hcall]; rfl, hdoes.token, ?_, hdoes.bytes, fun x hx => ?_⟩
  · rw [← hdoes.saveptr]
  · exact (hdoes.touched x hx).imp_right (TokenBuffer.has_of_inString hin hle)

/-- A call does what the client's own view says, in every state in which that is the view. -/
theorem Tokenizers.Sound.turns (hs : s.Sound buffer old)
    (hfuel : ∀ i, (buffer i).last - (buffer i).start < fuel) (r : Request buffer) :
    ∃ c : Cut, c.Inside (buffer r.client) ∧ ∀ t : Tokenizers ι,
      s.view buffer r.client = t.view buffer r.client → ∃ q, t.call fuel r = some q ∧ Turned c r t q := by
  have hpointer : ∀ t : Tokenizers ι, s.view buffer r.client = t.view buffer r.client →
      t.pointer r = s.pointer r := fun t hview => by
    rw [Tokenizers.pointer, Tokenizers.pointer, (Prod.mk.inj hview).1]
  cases hp : s.pointer r with
  | none =>
    refine ⟨⟨none, none, none⟩, ⟨fun _ hq => (nomatch hq), fun _ hq => (nomatch hq)⟩, ?_⟩
    intro t hview
    exact call_of_none ((hpointer t hview).trans hp)
  | some p =>
    have hin := pointer_inside hs r hp
    have hfrom := hin.1
    have hroom := hfuel r.client
    obtain ⟨text, htext, hle⟩ := TokenBuffer.exists_string hin (hs.nul r.client)
    refine ⟨cut r.delim p text, cut_inside r.delim hin hle, fun t hview => ?_⟩
    have htext' : t.mem.HasString p text := htext.frame fun x hlo hhi =>
      (congrFun (Prod.mk.inj hview).2 ⟨x, TokenBuffer.has_of_inString hin hle ⟨hlo, hhi⟩⟩).symm
    exact call_of_some ((hpointer t hview).trans hp) hin hle htext' (by omega)

theorem Turned.outside (h : Turned c r s q) (hc : c.Inside (buffer r.client)) {x : Nat}
    (hx : ¬ (buffer r.client).Has x) : q.1.mem.bytes x = s.mem.bytes x := by
  rw [h.bytes, if_neg fun heq => hx (hc.nul x heq)]

theorem Turned.sound (h : Turned c r s q) (hc : c.Inside (buffer r.client))
    (hs : s.Sound buffer old) : q.1.Sound buffer old where
  nul i := by rw [h.bytes, hs.nul, ite_self]
  inside i p hp := by
    rw [h.saveptr] at hp
    by_cases hclient : i = r.client
    · subst hclient
      rw [Function.update_self] at hp
      exact hc.saveptr p hp
    · rw [Function.update_of_ne hclient] at hp
      exact hs.inside i p hp
  outside x hx := (h.outside hc (hx r.client)).trans (hs.outside x hx)
  touched x hx := by
    obtain hold | hnew := h.touched x hx
    · exact hs.touched x hold
    · exact Or.inr ⟨r.client, hnew⟩

theorem Turned.congr (h : Turned c r s q) (h' : Turned c r t q')
    (hview : s.view buffer r.client = t.view buffer r.client) :
    q.2 = q'.2 ∧ q.1.view buffer r.client = q'.1.view buffer r.client := by
  refine ⟨h.token.trans h'.token.symm, Prod.ext ?_ (funext fun x => ?_)⟩
  · show q.1.saveptr r.client = q'.1.saveptr r.client
    rw [h.saveptr, h'.saveptr, Function.update_self, Function.update_self]
  · have hbyte : s.mem.bytes x = t.mem.bytes x := congrFun (Prod.mk.inj hview).2 x
    show q.1.mem.bytes x = q'.1.mem.bytes x
    rw [h.bytes, h'.bytes, hbyte]

/-- The buffers have no byte in common. -/
def BuffersApart (buffer : ι → TokenBuffer) : Prop :=
  ∀ i j x, (buffer i).Has x → (buffer j).Has x → i = j

theorem separates (old : Memory) (hapart : BuffersApart buffer)
    (hfuel : ∀ i, (buffer i).last - (buffer i).start < fuel) :
    Unwinding.Separates (Tokenizers.call fuel) (fun r : Request buffer => r.client)
      (Tokenizers.view buffer) (Tokenizers.Sound buffer old) where
  total s r hs := by
    obtain ⟨c, hc, hturns⟩ := hs.turns hfuel r
    obtain ⟨q, hq, hturned⟩ := hturns s rfl
    exact ⟨q, hq, hturned.sound hc hs⟩
  own s t r q q' hs ht hview hq hq' := by
    obtain ⟨c, hc, hturns⟩ := hs.turns hfuel r
    obtain ⟨p, hp, hturned⟩ := hturns s rfl
    obtain ⟨p', hp', hturned'⟩ := hturns t hview
    obtain rfl := Option.some.inj (hq.symm.trans hp)
    obtain rfl := Option.some.inj (hq'.symm.trans hp')
    exact hturned.congr hturned' hview
  others s r q i hs hq hclient := by
    obtain ⟨c, hc, hturns⟩ := hs.turns hfuel r
    obtain ⟨p, hp, hturned⟩ := hturns s rfl
    obtain rfl := Option.some.inj (hq.symm.trans hp)
    refine Prod.ext ?_ (funext fun x => ?_)
    · show q.1.saveptr i = s.saveptr i
      rw [hturned.saveptr, Function.update_of_ne (Ne.symm hclient)]
    · exact hturned.outside hc fun hx => hclient (hapart _ _ x hx x.2)

end

/-- However the calls of clients with buffers of their own interleave, and whatever delimiters
and starting points they choose, every client gets the tokens, the saved pointer and the buffer
that it gets when it calls alone, and no byte outside of the buffers is read or changed. -/
theorem strtokR_interleaved (buffer : ι → TokenBuffer) (hapart : BuffersApart buffer) (fuel : Nat)
    (hfuel : ∀ i, (buffer i).last - (buffer i).start < fuel) (s : Tokenizers ι)
    (hnul : ∀ i, s.mem.bytes (buffer i).last = 0)
    (hinside : ∀ i, ∀ p ∈ s.saveptr i, (buffer i).Has p) (requests : List (Request buffer)) :
    ∃ s' log, Unwinding.run (Tokenizers.call fuel) s requests = some (s', log) ∧
      (∀ i, ∃ t own, Unwinding.run (Tokenizers.call fuel) s
          (requests.filter fun r => r.client = i) = some (t, own) ∧
        log.filter (fun e => e.1.client = i) = own ∧ s'.saveptr i = t.saveptr i ∧
        ∀ x, (buffer i).Has x → s'.mem.bytes x = t.mem.bytes x) ∧
      (∀ x, (∀ i, ¬ (buffer i).Has x) → s'.mem.bytes x = s.mem.bytes x) ∧
      ∀ x ∈ s'.mem.touched, x ∈ s.mem.touched ∨ ∃ i, (buffer i).Has x := by
  have hsound : s.Sound buffer s.mem := ⟨hnul, hinside, fun _ _ => rfl, fun x hx => Or.inl hx⟩
  have hseparates := separates s.mem hapart hfuel
  obtain ⟨s', log, hrun, hend⟩ := hseparates.run_total hsound requests
  refine ⟨s', log, hrun, fun i => ?_, hend.outside, hend.touched⟩
  obtain ⟨t, own, halone, -⟩ := hseparates.run_total hsound (requests.filter fun r => r.client = i)
  obtain ⟨hlog, hview⟩ := hseparates.run_view hsound hsound i rfl hrun halone
  obtain ⟨hsaveptr, hbytes⟩ := Prod.mk.inj hview
  exact ⟨t, own, halone, hlog, hsaveptr, fun x hx => congrFun hbytes ⟨x, hx⟩⟩

end

/-- The buffers of two clients, `"a,b"` from 0 on and `",c"` from 8 on. -/
def twoBuffers (i : Bool) : TokenBuffer := if i then ⟨8, 10⟩ else ⟨0, 3⟩

/-- Each of the two starts, and then the first one goes on. -/
theorem strtokR_interleaved_two :
    let comma : CStr := ⟨[44], by decide⟩
    let s : Tokenizers Bool := ⟨⟨fun x => ([97, 44, 98, 0, 0, 0, 0, 0, 44, 99] : List U8).getD x 0, []⟩,
      fun _ => none⟩
    let requests : List (Request twoBuffers) := [⟨false, some 0, comma, by decide⟩,
      ⟨true, some 8, comma, by decide⟩, ⟨false, none, comma, by decide⟩]
    ∃ s' log, Unwinding.run (Tokenizers.call 4) s requests = some (s', log) ∧
      ∃ t own, Unwinding.run (Tokenizers.call 4) s (requests.filter fun r => r.client = false) =
        some (t, own) ∧ log.filter (fun e => e.1.client = false) = own := by
  intro comma s requests
  have hapart : BuffersApart twoBuffers := by
    rintro (_ | _) (_ | _) x ⟨hlo, hhi⟩ ⟨hlo', hhi'⟩
    · rfl
    · exact absurd (Nat.le_trans hlo' hhi) (by decide)
    · exact absurd (Nat.le_trans hlo hhi') (by decide)
    · rfl
  obtain ⟨s', log, hrun, hclients, -⟩ := strtokR_interleaved twoBuffers hapart 4 (by decide) s
    (by decide) (fun i p hp => nomatch hp) requests
  obtain ⟨t, own, halone, hlog, -⟩ := hclients false
  exact ⟨s', log, hrun, t, own, halone, hlog⟩

end JarJar.Libc
