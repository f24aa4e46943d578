import JarJar.ConsoleFormat
import JarJar.Memory

/- How `console_vprintf` reads its format. The cursor is moved on in three places: behind
   a `%`, once more behind the `l` of a long directive, and at the end of every turn. The
   second of them does not look whether there is a byte to move to.

   Correspondence (C ↔ Lean):
     `fmt`, `*(fmt + k)`                  ↔ `Scan.fmt`, `Scan.peek`
     the end of a turn                    ↔ `Scan.emit`
     the body of the loop, the loop       ↔ `scanStep`, `scanLoop`
   `Scan.shown` collects what is handed to `console_putchar`; the scan goes on when a number
   has no digits in the table. The loop takes a bound on its turns.

   What is proved (`console_vprintf_scan_iff`): the scan ends, inside the format, exactly
   when the format does not end behind a `%l`; it then shows what `formatText` says
   (`scanLoop_spec`). -/
namespace JarJar.Vga
open Libc

structure Scan where
  mem : Memory
  fmt : Nat
  arg : Nat
  shown : Except Fault (List U8)

namespace Scan

/-- `*(fmt + k)`. -/
def peek (s : Scan) (k : Nat) : U8 × Scan :=
  let (c, mem) := s.mem.load (s.fmt + k)
  (c, { s with mem })

/-- The turn took `width` bytes of the format and shows `text`. -/
def emit (s : Scan) (width arg : Nat) (text : Except Fault (List U8)) : Scan where
  mem := s.mem
  fmt := s.fmt + width
  arg := arg
  shown := do
    let before ← s.shown
    return before ++ (← text)

end Scan

def scanStep (args : Args) (c : U8) (s : Scan) : Scan :=
  if c = ch '%' then
    let (d, s) := s.peek 1
    if d = 0 then s.emit 1 s.arg (.ok [c])
    else if d = ch 'l' then
      let (e, s) := s.peek 2
      s.emit 3 (longDirective args e s.arg).1 (longDirective args e s.arg).2
    else s.emit 2 (consoleDirective args d s.arg).1 (consoleDirective args d s.arg).2
  else s.emit 1 s.arg (.ok [c])

def scanLoop (args : Args) : Nat → Scan → Option Scan
  | 0, _ => none
  | fuel + 1, s =>
    let (c, s) := s.peek 0
    if c = 0 then some s else scanLoop args fuel (scanStep args c s)

/-- Taken apart from the left into bytes, directives and long directives, the format ends in
the middle of a long directive. -/
def EndsInLong : List U8 → Prop
  | [] => False
  | [_] => False
  | c :: d :: rest =>
    if c = ch '%' then
      if d = ch 'l' then
        match rest with
        | [] => True
        | _ :: rest => EndsInLong rest
      else EndsInLong rest
    else EndsInLong (d :: rest)

/-! ## One turn -/

section
variable {args : Args} {c d e : U8} {rest : List U8} {arg : Nat}

theorem endsInLong_byte (hc : c ≠ ch '%') : EndsInLong (c :: rest) ↔ EndsInLong rest := by
  cases rest with
  | nil => simp [EndsInLong]
  | cons d rest => rw [EndsInLong.eq_def]; simp [hc]

theorem endsInLong_directive (hd : d ≠ ch 'l') :
    EndsInLong (ch '%' :: d :: rest) ↔ EndsInLong rest := by
  rw [EndsInLong.eq_def]
  simp [hd]

theorem endsInLong_long : EndsInLong (ch '%' :: ch 'l' :: e :: rest) ↔ EndsInLong rest := by
  rw [EndsInLong.eq_def]
  simp

theorem formatText_cons (hc : c ≠ ch '%') :
    formatText args (c :: rest) arg = do return [c] ++ (← formatText args rest arg) := by
  cases rest with
  | nil => simp [formatText]
  | cons d rest => rw [formatText_byte d rest arg hc]; rfl

theorem formatText_long :
    formatText args (ch '%' :: ch 'l' :: e :: rest) arg = do
      let text ← (longDirective args e arg).2
      return text ++ (← formatText args rest (longDirective args e arg).1) := by
  rw [formatText.eq_def]
  simp

end

/-- What was shown, and what is still to come. -/
def Scan.all (s : Scan) (text : Except Fault (List U8)) : Except Fault (List U8) := do
  let before ← s.shown
  return before ++ (← text)

theorem Scan.emit_all (s : Scan) (width arg : Nat) (text rest : Except Fault (List U8)) :
    (s.emit width arg text).all rest = s.all do
      let a ← text
      return a ++ (← rest) := by
  obtain ⟨mem, fmt, arg', shown⟩ := s
  cases shown with
  | error fault => rfl
  | ok before =>
    cases text with
    | error fault => rfl
    | ok a =>
      cases rest with
      | error fault => rfl
      | ok b =>
        show Except.ok (before ++ a ++ b) = Except.ok (before ++ (a ++ b))
        rw [List.append_assoc]

/-- What a turn of the scan leaves behind: `rest` is still in front of it. -/
structure Turned (args : Args) (s s' : Scan) (text rest : List U8) : Prop where
  string : s'.mem.HasString s'.fmt rest
  pos : s'.fmt + rest.length = s.fmt + text.length
  forward : s.fmt < s'.fmt
  touches : Touches s.fmt (text.length + 1) s.mem s'.mem
  ends : EndsInLong text ↔ EndsInLong rest
  shows : s'.all (formatText args rest s'.arg) = s.all (formatText args text s.arg)

theorem Turned.emit {args : Args} {s : Scan} {mem : Memory} {text rest : List U8} {width arg : Nat}
    {shown : Except Fault (List U8)} (hrest : s.mem.HasString (s.fmt + width) rest)
    (hbytes : mem.bytes = s.mem.bytes) (htouches : Touches s.fmt (text.length + 1) s.mem mem)
    (hwidth : 0 < width) (hlength : text.length = width + rest.length)
    (hends : EndsInLong text ↔ EndsInLong rest)
    (hshows : formatText args text s.arg = do
      let a ← shown
      return a ++ (← formatText args rest arg)) :
    Turned args s (Scan.emit { s with mem } width arg shown) text rest where
  string := hrest.frame fun x _ _ => by rw [← hbytes]; rfl
  pos := by
    show s.fmt + width + rest.length = s.fmt + text.length
    omega
  forward := Nat.lt_add_of_pos_right hwidth
  touches := htouches
  ends := hends
  shows := by
    rw [Scan.emit_all, hshows]
    rfl

section
variable {args : Args} {c : U8} {s : Scan} {rest : List U8} {k n : Nat}

theorem touches_peek (hk : k < n) {mem : Memory} (h : Touches s.fmt n s.mem mem) :
    Touches s.fmt n s.mem (mem.load (s.fmt + k)).2 :=
  h.trans (Touches.load ⟨Nat.le_add_right _ _, Nat.add_lt_add_left hk _⟩)

/-- A `%l` takes the byte behind it, whatever it is. -/
theorem scanStep_long (args : Args) (hd : s.mem.bytes (s.fmt + 1) = ch 'l') :
    scanStep args (ch '%') (s.peek 0).2 =
      Scan.emit { s with mem := (((s.mem.load (s.fmt + 0)).2.load (s.fmt + 1)).2.load (s.fmt + 2)).2 } 3
        (longDirective args (s.mem.bytes (s.fmt + 2)) s.arg).1
        (longDirective args (s.mem.bytes (s.fmt + 2)) s.arg).2 := by
  have hnul : s.mem.bytes (s.fmt + 1) ≠ 0 := by rw [hd]; decide
  rw [scanStep, if_pos rfl]
  refine (if_neg hnul).trans ?_
  exact if_pos hd

theorem scanStep_spec (args : Args) (h : s.mem.HasString s.fmt (c :: rest)) (hlong : c :: rest ≠ [ch '%', ch 'l']) :
    ∃ rest', Turned args s (scanStep args c (s.peek 0).2) (c :: rest) rest' := by
  have hread : Touches s.fmt ((c :: rest).length + 1) s.mem (s.mem.load (s.fmt + 0)).2 :=
    touches_peek (by simp) Touches.refl
  by_cases hc : c = ch '%'
  · subst hc
    have hread₁ := touches_peek (k := 1) (by simp) hread
    have hd : (s.mem.bytes (s.fmt + 1)) = rest.getD 0 0 := h.2.2.getD (Nat.zero_le _)
    cases rest with
    | nil =>
      -- a `%` in front of the NUL is an ordinary byte
      have hstep : scanStep args (ch '%') (s.peek 0).2 =
          Scan.emit { s with mem := ((s.mem.load (s.fmt + 0)).2.load (s.fmt + 1)).2 } 1 s.arg
            (.ok [ch '%']) := by
        rw [scanStep, if_pos rfl]
        exact if_pos hd
      refine ⟨[], hstep ▸ Turned.emit h.2.2 rfl hread₁ (by decide) rfl ?_ ?_⟩
      · simp [EndsInLong]
      · rfl
    | cons d rest =>
      have hnul : s.mem.bytes (s.fmt + 1) ≠ 0 := hd ▸ h.2.2.2.1
      by_cases hl : d = ch 'l'
      · subst hl
        cases rest with
        | nil => exact absurd rfl hlong
        | cons e rest =>
          have hread₂ := touches_peek (k := 2) (by simp) hread₁
          have he : s.mem.bytes (s.fmt + 2) = e := h.2.2.2.2.1
          have hstep := scanStep_long args hd
          rw [he] at hstep
          exact ⟨rest, hstep ▸ Turned.emit h.2.2.2.2.2.2 rfl hread₂ (by decide)
            (by simp; omega) endsInLong_long formatText_long⟩
      · have hstep : scanStep args (ch '%') (s.peek 0).2 =
            Scan.emit { s with mem := ((s.mem.load (s.fmt + 0)).2.load (s.fmt + 1)).2 } 2
              (consoleDirective args d s.arg).1 (consoleDirective args d s.arg).2 := by
          have hbyte : s.mem.bytes (s.fmt + 1) = d := hd
          rw [scanStep, if_pos rfl, ← hbyte]
          refine (if_neg hnul).trans ?_
          refine (if_neg ?_).trans rfl
          exact hbyte ▸ hl
        exact ⟨rest, hstep ▸ Turned.emit h.2.2.2.2 rfl hread₁ (by decide) (by simp; omega)
          (endsInLong_directive hl) (formatText_directive rest s.arg hl)⟩
  · have hstep : scanStep args c (s.peek 0).2 =
        Scan.emit { s with mem := (s.mem.load (s.fmt + 0)).2 } 1 s.arg (.ok [c]) := if_neg hc
    exact ⟨rest, hstep ▸ Turned.emit h.2.2 rfl hread (by decide) (by simp; omega)
      (endsInLong_byte hc) (formatText_cons hc)⟩

end

/-! ## The whole format -/

section
variable {args : Args} {s out : Scan} {text : List U8} {fuel : Nat}

theorem Turned.trans_touches {s' : Scan} {rest : List U8} (h : Turned args s s' text rest)
    {m : Memory} (hrest : Touches s'.fmt (rest.length + 1) s'.mem m) :
    Touches s.fmt (text.length + 1) s.mem m := by
  have hpos := h.pos
  have hforward := h.forward
  exact h.touches.trans (hrest.widen (Nat.le_of_lt hforward) (by omega))

/-- The scan comes to the NUL of a format that does not end behind a `%l`, and shows what
its text says. -/
theorem scanLoop_spec (args : Args) (h : s.mem.HasString s.fmt text) (hends : ¬ EndsInLong text)
    (hfuel : text.length < fuel) :
    ∃ out, scanLoop args fuel s = some out ∧ Touches s.fmt (text.length + 1) s.mem out.mem ∧
      out.shown = s.all (formatText args text s.arg) := by
  induction fuel generalizing s text with
  | zero => omega
  | succ fuel ih =>
    rw [scanLoop]
    dsimp only
    cases text with
    | nil =>
      have hnul : (s.peek 0).1 = 0 := h
      rw [if_pos hnul]
      refine ⟨_, rfl, touches_peek (k := 0) (by decide) Touches.refl, ?_⟩
      show s.shown = s.all (.ok [])
      unfold Scan.all
      cases s.shown <;> simp <;> rfl
    | cons c rest =>
      have hc : (s.peek 0).1 = c := h.1
      have hlong : c :: rest ≠ [ch '%', ch 'l'] := by
        intro heq
        apply hends
        rw [heq, EndsInLong.eq_def]
        simp
      obtain ⟨rest', hturn⟩ := scanStep_spec args h hlong
      have hpos := hturn.pos
      have hforward := hturn.forward
      obtain ⟨out, hrun, htouches, hshown⟩ :=
        ih hturn.string (fun hc => hends (hturn.ends.mpr hc)) (by omega)
      rw [hc, if_neg h.2.1]
      exact ⟨out, hrun, hturn.trans_touches htouches, by rw [hshown, hturn.shows]⟩

theorem scanStep_touched (args : Args) (c : U8) (s : Scan) :
    s.mem.touched <:+ (scanStep args c s).mem.touched := by
  unfold scanStep
  split
  · dsimp only
    split
    · exact List.suffix_cons _ _
    · split
      · exact (List.suffix_cons _ _).trans (List.suffix_cons _ _)
      · exact List.suffix_cons _ _
  · exact List.suffix_rfl

theorem scanLoop_touched (h : scanLoop args fuel s = some out) :
    s.fmt :: s.mem.touched <:+ out.mem.touched := by
  induction fuel generalizing s with
  | zero => cases h
  | succ fuel ih =>
    rw [scanLoop] at h
    dsimp only at h
    split at h
    · obtain rfl := Option.some.inj h
      exact List.suffix_rfl
    · have hstep := scanStep_touched args (s.peek 0).1 (s.peek 0).2
      exact hstep.trans ((List.suffix_cons _ _).trans (ih h))

/-- Behind a `%l` at the end of the format the scan goes on behind its NUL. -/
theorem scanLoop_endsInLong (h : s.mem.HasString s.fmt text) (hends : EndsInLong text)
    (hrun : scanLoop args fuel s = some out) : s.fmt + text.length + 1 ∈ out.mem.touched := by
  induction fuel generalizing s text with
  | zero => cases hrun
  | succ fuel ih =>
    rw [scanLoop] at hrun
    dsimp only at hrun
    cases text with
    | nil => cases hends
    | cons c rest =>
      have hc : (s.peek 0).1 = c := h.1
      rw [hc, if_neg h.2.1] at hrun
      by_cases hlong : c :: rest = [ch '%', ch 'l']
      · obtain ⟨rfl, rfl⟩ := List.cons.inj hlong
        rw [scanStep_long args h.2.2.1] at hrun
        exact (scanLoop_touched hrun).subset List.mem_cons_self
      · obtain ⟨rest', hturn⟩ := scanStep_spec args h hlong
        have hmem := ih hturn.string (hturn.ends.mp hends) hrun
        rwa [hturn.pos] at hmem

end

/-- The start of `console_vprintf`. -/
def Scan.start (bytes : Nat → U8) (fmt : Nat) : Scan := ⟨⟨bytes, []⟩, fmt, 0, .ok []⟩

/-- The scan returns, having read nothing but the `length` bytes of the format and its NUL. -/
def ReadsFormat (bytes : Nat → U8) (fmt length : Nat) (args : Args) : Prop :=
  ∃ fuel out, scanLoop args fuel (Scan.start bytes fmt) = some out ∧
    ∀ x ∈ out.mem.touched, fmt ≤ x ∧ x ≤ fmt + length

/-- **When the format is read to its end and no further.** For every memory with a format in
it and every arguments: exactly if the format does not end in the middle of a long
directive. -/
theorem console_vprintf_scan_iff (bytes : Nat → U8) (fmt : Nat) (format : List U8) (args : Args)
    (h : (Scan.start bytes fmt).mem.HasString fmt format) :
    ReadsFormat bytes fmt format.length args ↔ ¬ EndsInLong format := by
  refine ⟨fun ⟨fuel, out, hrun, hinside⟩ hends => ?_, fun hends => ?_⟩
  · have hbehind := hinside _ (scanLoop_endsInLong h hends hrun)
    dsimp only [Scan.start] at hbehind
    omega
  · obtain ⟨out, hrun, htouches, -⟩ :=
      scanLoop_spec args h hends (Nat.lt_succ_self format.length)
    refine ⟨_, out, hrun, fun x hx => ?_⟩
    have hin := (htouches.touched x hx).resolve_left List.not_mem_nil
    dsimp only [Scan.start] at hin
    omega

/-- `%ld, %lq` has a long directive and one behind which the format goes on; behind `%ld, %l`
it does not go on. -/
theorem console_vprintf_scan_iff_long :
    let format := "%ld, %lq".toList.map ch
    let cut := "%ld, %l".toList.map ch
    ReadsFormat (fun x => format.getD x 0) 0 format.length ones ∧
      ¬ ReadsFormat (fun x => cut.getD x 0) 0 cut.length ones := by
  intro format cut
  constructor
  · refine (console_vprintf_scan_iff _ 0 format ones (by decide)).mpr ?_
    simp [format, EndsInLong, ch]
  · refine fun hreads => (console_vprintf_scan_iff _ 0 cut ones (by decide)).mp hreads ?_
    simp [cut, EndsInLong, ch]

/-- A `%l` and nothing else: the byte behind its NUL is read. -/
theorem console_vprintf_runs_past :
    let format := "%l".toList.map ch
    let bytes x := format.getD x 0
    (Scan.start bytes 0).mem.HasString 0 format ∧ ¬ ReadsFormat bytes 0 format.length ones := by
  intro format bytes
  have hstring : (Scan.start bytes 0).mem.HasString 0 format := by decide
  refine ⟨hstring, fun ⟨fuel, out, hrun, hinside⟩ => ?_⟩
  have hends : EndsInLong format := by simp [format, EndsInLong]
  exact absurd (hinside _ (scanLoop_endsInLong hstring hends hrun)).2 (by decide)

end JarJar.Vga
