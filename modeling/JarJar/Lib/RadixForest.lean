import Mathlib.Logic.Function.Basic

/- Radix trees in memory: tables of entries, where an entry of an inner table may
   point at the table one level down. A forest is such a memory with a label on
   every table in use; an entry of a table labelled `l` at index `i` points at a
   table labelled `child l i`. Labels are a function of the table, so tables with
   different labels are different tables: that is all a proof needs to know about
   aliasing.

   `trail` follows a path of indices down and collects the entries it reads; `lookup` is
   the trail if its last entry is present.
   `link` hangs a cleared table below a slot, `put` stores one entry;
   `Forest.link` and `Forest.put` keep the labelling, and `Forest.trail_congr`
   says which slots a trail depends on. In a memory that is no forest a table may be reached
   at several depths; `lookup_put_iff` says there what a store into an absent slot changes. -/
namespace RadixForest

variable {T I E L : Type*}

section Trail
variable (next : E → Option T)

/-- The entries read on the way from slot `i` of table `t` along the indices
that follow, up to the first one that points at no table. -/
def trail (read : T → I → E) (t : T) (i : I) : List I → List E
  | [] => [read t i]
  | j :: q =>
    match next (read t i) with
    | none => [read t i]
    | some u => read t i :: trail read u j q

/-- The table at the end of a path. -/
def descend (read : T → I → E) : T → List I → Option T
  | t, [] => some t
  | t, i :: q => (next (read t i)).bind (fun u => descend read u q)

theorem trail_step {read : T → I → E} {t u : T} {i j : I} {q : List I}
    (h : next (read t i) = some u) :
    trail next read t i (j :: q) = read t i :: trail next read u j q := by
  rw [trail, h]

theorem trail_stop {read : T → I → E} {t : T} {i j : I} {q : List I}
    (h : next (read t i) = none) : trail next read t i (j :: q) = [read t i] := by
  rw [trail, h]

/-- A trail depends on its first table only through the first entry. -/
theorem trail_first {read : T → I → E} {t u : T} {i : I} (h : read t i = read u i) (q : List I) :
    trail next read t i q = trail next read u i q := by
  cases q with
  | nil => rw [trail, trail, h]
  | cons j q => rw [trail, trail, h]

theorem trail_ne_nil (read : T → I → E) (t : T) (i : I) (q : List I) : trail next read t i q ≠ [] := by
  cases q with
  | nil => simp [trail]
  | cons j q =>
    rw [trail]
    split
    · simp
    · simp

theorem descend_append (read : T → I → E) (t : T) (p q : List I) :
    descend next read t (p ++ q) = (descend next read t p).bind (fun u => descend next read u q) := by
  induction p generalizing t with
  | nil => rfl
  | cons i p ih =>
    rw [List.cons_append, descend, descend]
    cases next (read t i) with
    | none => rfl
    | some u => exact ih u

end Trail

section Lookup
variable (next : E → Option T) (present : E → Prop) [DecidablePred present]

/-- The entries read, if the last one is present. -/
def found (entries : List E) : Option (List E) :=
  entries.getLast?.bind fun e => if present e then some entries else none

def lookup (read : T → I → E) (t : T) (i : I) (q : List I) : Option (List E) :=
  found present (trail next read t i q)

variable {next present} {read : T → I → E} {t u : T} {i j : I} {q : List I}

theorem found_cons (x : E) {entries : List E} (h : entries ≠ []) :
    found present (x :: entries) = (found present entries).map (x :: ·) := by
  rw [found, found, List.getLast?_cons, List.getLast?_eq_some_getLast h]
  simp only [Option.getD_some, Option.bind_some]
  split
  · rfl
  · rfl

theorem lookup_step (h : next (read t i) = some u) :
    lookup next present read t i (j :: q) = (lookup next present read u j q).map (read t i :: ·) := by
  rw [lookup, trail_step next h, found_cons _ (trail_ne_nil next _ _ _ _), lookup]

theorem lookup_stop (h : next (read t i) = none) :
    lookup next present read t i q = if present (read t i) then some [read t i] else none := by
  cases q with
  | nil => rw [lookup, trail, found, List.getLast?_singleton, Option.bind_some]
  | cons j q =>
    rw [lookup, trail_stop next h, found, List.getLast?_singleton, Option.bind_some]

theorem lookup_absent (h : next (read t i) = none) (habsent : ¬ present (read t i)) :
    lookup next present read t i q = none := by
  rw [lookup_stop h, if_neg habsent]

end Lookup

section Memory
variable [DecidableEq T] [DecidableEq I]

/-- Store entry `e` in slot `i` of table `t`. -/
def put (read : T → I → E) (t : T) (i : I) (e : E) : T → I → E :=
  Function.update read t (Function.update (read t) i e)

/-- Fill table `u` with `z`. -/
def clear (read : T → I → E) (u : T) (z : E) : T → I → E :=
  Function.update read u (fun _ => z)

/-- Store `e`, which points at `u`, and clear table `u`. -/
def link (read : T → I → E) (t : T) (i : I) (e : E) (u : T) (z : E) : T → I → E :=
  clear (put read t i e) u z

variable {read : T → I → E} {t u w p : T} {i j : I} {e z : E}

@[simp] theorem put_self : put read t i e t i = e := by simp [put]

theorem put_other (h : ¬ (p = t ∧ j = i)) : put read t i e p j = read p j := by
  by_cases hp : p = t
  · subst hp
    have hj : j ≠ i := fun hj => h ⟨rfl, hj⟩
    simp [put, hj]
  · simp [put, hp]

@[simp] theorem link_new : link read t i e u z u j = z := by simp [link, clear]

theorem link_self (h : t ≠ u) : link read t i e u z t i = e := by
  simp [link, clear, h]

theorem link_other (hp : p ≠ u) (h : ¬ (p = t ∧ j = i)) : link read t i e u z p j = read p j := by
  rw [link, clear, Function.update_of_ne hp, put_other h]

omit [DecidableEq I] in
@[simp] theorem clear_self : clear read u z u i = z := by simp [clear]

omit [DecidableEq I] in
theorem clear_other (h : p ≠ u) : clear read u z p = read p := Function.update_of_ne h _ _

theorem clear_put (h : t ≠ u) : clear (put read t i e) u z = put (clear read u z) t i e := by
  rw [clear, put, Function.update_comm h, put, clear, Function.update_of_ne h]

theorem clear_put_self : clear (put read u i e) u z = clear read u z := by
  rw [clear, put, Function.update_idem, clear]

theorem put_comm (h : t ≠ u) {e' : E} :
    put (put read t i e) u j e' = put (put read u j e') t i e := by
  rw [put, put, Function.update_of_ne h.symm, Function.update_comm h, put, put,
    Function.update_of_ne h]

theorem link_self_eq : link read u i e u z = clear read u z := clear_put_self

theorem link_eq_put (h : t ≠ u) : link read t i e u z = put (clear read u z) t i e := clear_put h

theorem link_link (htu : t ≠ u) (htw : t ≠ w) {e' : E} :
    link (link read t i e u z) u j e' w z = put (link (clear read u z) u j e' w z) t i e := by
  rw [link_eq_put htu, link, put_comm htu, clear_put htw, link]

theorem link_link_self (h : w ≠ u) {e' : E} :
    link (link read w i e u z) u j e' w z = link (clear read u z) u j e' w z := by
  rw [link_eq_put h, link, put_comm h, clear_put_self, link]

end Memory

/-! ## What a lookup finds after a store

The path of a lookup is given with its first index apart; `q` has the indices after it. -/

section Frame
variable {next : E → Option T} {present : E → Prop} [DecidablePred present]

/-- No lookup that starts at table `t` finds an entry `n` tables down. -/
def Bare (next : E → Option T) (present : E → Prop) [DecidablePred present] (read : T → I → E)
    (t : T) (n : Nat) : Prop :=
  ∀ i q, q.length = n → lookup next present read t i q = none

/-- An entry shows nothing, `n` tables above the leaves. -/
def Hides (next : E → Option T) (present : E → Prop) [DecidablePred present] (read : T → I → E)
    (e : E) : Nat → Prop
  | 0 => ¬ present e
  | n + 1 =>
    match next e with
    | none => ¬ present e
    | some u => Bare next present read u n

variable {read read' : T → I → E} {t r u : T} {i j : I} {e : E} {p q rest : List I} {n : Nat}

theorem lookup_nil : lookup next present read t i [] =
    if present (read t i) then some [read t i] else none := by
  rw [lookup, trail, found, List.getLast?_singleton, Option.bind_some]

theorem lookup_none_step (h : next (read t i) = some u) :
    lookup next present read t i (j :: q) = none ↔ lookup next present read u j q = none := by
  rw [lookup_step h, Option.map_eq_none_iff]

/-- The entry of a slot shows nothing if no lookup through the slot finds anything. -/
theorem hides_iff [Inhabited I] : Hides next present read (read t i) n ↔
    ∀ q, q.length = n → lookup next present read t i q = none := by
  cases n with
  | zero =>
    have hnil : lookup next present read t i [] = none ↔ ¬ present (read t i) := by
      rw [lookup_nil]
      simp
    refine ⟨fun h q hq => ?_, fun h => hnil.mp (h [] rfl)⟩
    obtain rfl := List.length_eq_zero_iff.mp hq
    exact hnil.mpr h
  | succ n =>
    rw [Hides]
    cases hn : next (read t i) with
    | none =>
      refine ⟨fun h q _ => lookup_absent hn h, fun h hp => ?_⟩
      have hsome := h (List.replicate (n + 1) default) List.length_replicate
      rw [lookup_stop hn, if_pos hp] at hsome
      cases hsome
    | some u =>
      refine ⟨fun h q hq => ?_, fun h j q hq => ?_⟩
      · obtain ⟨j, q, rfl⟩ := List.exists_cons_of_length_eq_add_one hq
        rw [lookup_none_step hn]
        exact h j q (by simpa using hq)
      · rw [← lookup_none_step hn]
        exact h (j :: q) (by rw [List.length_cons, hq])

theorem hides_absent (hn : next e = none) (habsent : ¬ present e) :
    Hides next present read e n := by
  cases n with
  | zero => exact habsent
  | succ n =>
    rw [Hides, hn]
    exact habsent

theorem hides_stop (hn : next e = none) (hp : present e) : ¬ Hides next present read e n := by
  cases n with
  | zero => exact fun h => h hp
  | succ n =>
    rw [Hides, hn]
    exact fun h => h hp

theorem hides_step (hn : next e = some u) :
    Hides next present read e (n + 1) ↔ Bare next present read u n := by
  rw [Hides, hn]

theorem bare_iff [Inhabited I] :
    Bare next present read t n ↔ ∀ i, Hides next present read (read t i) n :=
  forall_congr' fun _ => hides_iff.symm

theorem lookup_descend (h : descend next read r p = some t) (hpath : j :: q = p ++ i :: rest) :
    lookup next present read r j q = none ↔ lookup next present read t i rest = none := by
  induction p generalizing r j q with
  | nil =>
    obtain rfl := Option.some.inj h
    obtain ⟨rfl, rfl⟩ := List.cons.inj hpath
    rfl
  | cons k p ih =>
    -- both lookups go down to the table of the first index
    obtain ⟨w, hw, hbelow⟩ := Option.bind_eq_some_iff.mp h
    rw [List.cons_append] at hpath
    obtain ⟨rfl, rfl⟩ := List.cons.inj hpath
    obtain ⟨k, q, hq⟩ : ∃ k q, p ++ i :: rest = k :: q := List.exists_cons_of_ne_nil (by simp)
    rw [hq, lookup_none_step hw]
    exact ih hbelow hq.symm

theorem lookup_first {entries : List E} (h : lookup next present read r j q = some entries) :
    entries.head? = some (read r j) := by
  cases hn : next (read r j) with
  | none =>
    rw [lookup_stop hn] at h
    split at h
    · obtain rfl := Option.some.inj h
      rfl
    · cases h
  | some w =>
    cases q with
    | nil =>
      rw [lookup_nil] at h
      split at h
      · obtain rfl := Option.some.inj h
        rfl
      · cases h
    | cons k q =>
      rw [lookup_step hn] at h
      obtain ⟨rest, -, rfl⟩ := Option.map_eq_some_iff.mp h
      rfl

theorem lookup_first_eq (heq : lookup next present read' r j q = lookup next present read r j q)
    (h : lookup next present read r j q ≠ none) : read' r j = read r j := by
  obtain ⟨entries, hsome⟩ := Option.ne_none_iff_exists'.mp h
  exact Option.some.inj ((lookup_first (heq.trans hsome)).symm.trans (lookup_first hsome))

theorem lookup_slot (hnext : next (read t i) = none) (habsent : ¬ present (read t i))
    (h : lookup next present read r j q ≠ none) : ¬ (r = t ∧ j = i) := by
  rintro ⟨rfl, rfl⟩
  exact h (lookup_absent hnext habsent)

theorem descend_reach (h : ∀ p u, p.length ≤ n → descend next read r p = some u → read' u = read u)
    (hp : p.length ≤ n) : descend next read' r p = descend next read r p := by
  induction p generalizing r n with
  | nil => rfl
  | cons j p ih =>
    -- the first table is reached by the empty path
    rw [descend, descend, h [] r (Nat.zero_le n) rfl]
    rw [List.length_cons] at hp
    cases hn : next (read r j) with
    | none => rfl
    | some w =>
      refine ih (n := n - 1) (fun p' u hp' hdesc => h (j :: p') u ?_ ?_) (by omega)
      · rw [List.length_cons]
        omega
      · rw [descend, hn]
        exact hdesc

theorem lookup_reach (h : ∀ p u, p.length ≤ n → descend next read r p = some u → read' u = read u)
    (hq : q.length = n) : lookup next present read' r j q = lookup next present read r j q := by
  induction q generalizing r j n with
  | nil => rw [lookup_nil, lookup_nil, h [] r (Nat.zero_le n) rfl]
  | cons k q ih =>
    have hsame := h [] r (Nat.zero_le n) rfl
    rw [List.length_cons] at hq
    cases hn : next (read r j) with
    | none => rw [lookup_stop hn, lookup_stop (by rw [hsame, hn]), hsame]
    | some w =>
      rw [lookup_step hn, lookup_step (by rw [hsame, hn]), hsame]
      rw [ih (fun p u hp hdesc => h (j :: p) u ?_ ?_) rfl]
      · rw [List.length_cons]
        omega
      · rw [descend, hn]
        exact hdesc

theorem descend_root (h : ∀ i u, next (read r i) = some u → u = r)
    (hp : descend next read r p = some t) : t = r := by
  induction p with
  | nil => exact (Option.some.inj hp).symm
  | cons i p ih =>
    obtain ⟨u, hu, hrest⟩ := Option.bind_eq_some_iff.mp hp
    rw [h i u hu] at hrest
    exact ih hrest

variable [DecidableEq T] [DecidableEq I]

/-- A path goes through no slot that points nowhere, so that a store there keeps it. -/
theorem descend_put (hnext : next (read t i) = none) (h : descend next read r p = some u) :
    descend next (put read t i e) r p = some u := by
  induction p generalizing r with
  | nil => exact h
  | cons k p ih =>
    obtain ⟨w, hw, hrest⟩ := Option.bind_eq_some_iff.mp h
    have hslot : ¬ (r = t ∧ k = i) := by
      rintro ⟨rfl, rfl⟩
      rw [hnext] at hw
      cases hw
    rw [descend, put_other hslot, hw]
    exact ih hrest

theorem lookup_put_found (hnext : next (read t i) = none) (habsent : ¬ present (read t i))
    (h : lookup next present read r j q ≠ none) :
    lookup next present (put read t i e) r j q = lookup next present read r j q := by
  induction q generalizing r j with
  | nil => rw [lookup_nil, lookup_nil, put_other (lookup_slot hnext habsent h)]
  | cons k q ih =>
    -- a lookup that finds something starts beside the slot, and so does the rest of it
    have hslot := lookup_slot hnext habsent h
    cases hn : next (read r j) with
    | none => rw [lookup_stop hn, lookup_stop (by rw [put_other hslot, hn]), put_other hslot]
    | some w =>
      rw [Ne, lookup_none_step hn] at h
      rw [lookup_step hn, lookup_step (by rw [put_other hslot, hn]), put_other hslot, ih h]

/-- What two memories both find, although a store was made in one of them into a slot that is
absent in the other, they find without the store. -/
theorem lookup_put_drop (hnext : next (read t i) = none) (habsent : ¬ present (read t i))
    (h : lookup next present read r j q ≠ none)
    (heq : lookup next present (put read' t i e) r j q = lookup next present read r j q) :
    lookup next present read' r j q = lookup next present read r j q := by
  induction q generalizing r j with
  | nil =>
    have hput := lookup_first_eq heq h
    rw [put_other (lookup_slot hnext habsent h)] at hput
    rw [lookup_nil, lookup_nil, hput]
  | cons k q ih =>
    -- the first entries are the same, so both go on at the same table
    have hput := lookup_first_eq heq h
    have hsame := hput
    rw [put_other (lookup_slot hnext habsent h)] at hsame
    cases hn : next (read r j) with
    | none => rw [lookup_stop hn, lookup_stop (by rw [hsame, hn]), hsame]
    | some w =>
      rw [lookup_step (by rw [hput, hn]), lookup_step hn, hput] at heq
      rw [Ne, lookup_none_step hn] at h
      rw [lookup_step hn, lookup_step (by rw [hsame, hn]), hsame,
        ih h (Option.map_injective (fun _ _ heq => (List.cons.inj heq).2) heq)]

theorem hides_put_iff [Inhabited I] : Hides next present (put read t i e) e n ↔
    ∀ q, q.length = n → lookup next present (put read t i e) t i q = none := by
  rw [← hides_iff, put_self]

/-- An entry that shows nothing wherever its table is reached changes no lookup. -/
theorem lookup_put_hidden [Inhabited I] (hnext : next (read t i) = none)
    (habsent : ¬ present (read t i))
    (h : ∀ p, p.length ≤ n → descend next read r p = some t →
      Hides next present (put read t i e) e (n - p.length)) (hq : q.length = n) :
    lookup next present (put read t i e) r j q = lookup next present read r j q := by
  induction q generalizing r j n with
  | nil =>
    -- at the slot nothing was found, and the entry that is there now shows nothing
    by_cases hslot : r = t ∧ j = i
    · obtain ⟨rfl, rfl⟩ := hslot
      rw [lookup_absent hnext habsent]
      exact hides_put_iff.mp (h [] (Nat.zero_le n) rfl) [] hq
    · rw [lookup_nil, lookup_nil, put_other hslot]
  | cons k q ih =>
    by_cases hslot : r = t ∧ j = i
    · obtain ⟨rfl, rfl⟩ := hslot
      rw [lookup_absent hnext habsent]
      exact hides_put_iff.mp (h [] (Nat.zero_le n) rfl) (k :: q) hq
    · cases hn : next (read r j) with
      | none => rw [lookup_stop hn, lookup_stop (by rw [put_other hslot, hn]), put_other hslot]
      | some w =>
        rw [lookup_step hn, lookup_step (by rw [put_other hslot, hn]), put_other hslot]
        rw [List.length_cons] at hq
        -- seen from the next table the slot is reached by paths one shorter
        have hbelow : ∀ p, p.length ≤ q.length → descend next read w p = some t →
            Hides next present (put read t i e) e (q.length - p.length) := by
          intro p hp hdesc
          have hpath := h (j :: p) (by rw [List.length_cons]; omega) (by rw [descend, hn]; exact hdesc)
          rwa [List.length_cons, show n - (p.length + 1) = q.length - p.length by omega] at hpath
        rw [ih hbelow rfl]

/-- **A store into an absent slot.** Lookups `n` tables deep find in the memory after the store
what they found in another memory, which has the slot absent too, just if they did so before
the store and the entry shows nothing wherever the table is reached. -/
theorem lookup_put_iff [Inhabited I] (hnext : next (read t i) = none)
    (habsent : ¬ present (read t i)) (hslot : read' t i = read t i) :
    (∀ j q, q.length = n →
      lookup next present (put read' t i e) r j q = lookup next present read r j q) ↔
    (∀ j q, q.length = n → lookup next present read' r j q = lookup next present read r j q) ∧
      ∀ p, p.length ≤ n → descend next read' r p = some t →
        Hides next present (put read' t i e) e (n - p.length) := by
  have hnext' : next (read' t i) = none := hslot ▸ hnext
  have habsent' : ¬ present (read' t i) := hslot ▸ habsent
  refine ⟨fun h => ?_, fun ⟨hidle, hhides⟩ => ?_⟩
  · have hidle : ∀ j q, q.length = n →
        lookup next present read' r j q = lookup next present read r j q := by
      intro j q hq
      by_cases hfound : lookup next present read r j q = none
      · -- what is found before the store would still be found after it
        rw [hfound]
        by_contra hne
        have hkeep := lookup_put_found (e := e) hnext' habsent' hne
        rw [h j q hq, hfound] at hkeep
        exact hne hkeep.symm
      · exact lookup_put_drop hnext habsent hfound (h j q hq)
    refine ⟨hidle, fun p hp hdesc => ?_⟩
    -- a lookup through the slot found nothing before the store, so it finds nothing now
    rw [hides_put_iff]
    intro rest hrest
    obtain ⟨j, q, hq⟩ : ∃ j q, p ++ i :: rest = j :: q := List.exists_cons_of_ne_nil (by simp)
    have hlen : q.length = n := by
      have := congrArg List.length hq
      simp only [List.length_append, List.length_cons] at this
      omega
    rw [← lookup_descend (descend_put hnext' hdesc) hq.symm, h j q hlen, ← hidle j q hlen,
      lookup_descend hdesc hq.symm]
    exact lookup_absent hnext' habsent'
  · exact fun j q hq => (lookup_put_hidden hnext' habsent' hhides hq).trans (hidle j q hq)

end Frame

/-! ## Forests -/

/-- The labelling of a memory: below a table with a label of depth less than
`leafDepth`, entries point at tables with the child labels. -/
structure Forest (next : E → Option T) (child : L → I → L) (depth : L → Nat) (leafDepth : Nat)
    (read : T → I → E) (label : T → Option L) : Prop where
  closed : ∀ {t l i u}, label t = some l → depth l < leafDepth → next (read t i) = some u →
    label u = some (child l i)

/-- Every label of `label` is one of `label'`. -/
def Extends (label label' : T → Option L) : Prop := ∀ t l, label t = some l → label' t = some l

theorem Extends.refl (label : T → Option L) : Extends label label := fun _ _ h => h

theorem Extends.trans {a b c : T → Option L} (h : Extends a b) (h' : Extends b c) : Extends a c :=
  fun t l hl => h' t l (h t l hl)

section Forest
variable {next : E → Option T} {child : L → I → L} {depth : L → Nat} {leafDepth : Nat}
  {read read' : T → I → E} {label : T → Option L} {t u : T} {l : L} {i : I} {e z : E}

theorem extends_update [DecidableEq T] (hu : label u = none) (m : L) :
    Extends label (Function.update label u (some m)) := by
  intro p k hp
  have hpu : p ≠ u := fun h => by rw [h, hu] at hp; cases hp
  rw [Function.update_of_ne hpu, hp]

theorem update_cases [DecidableEq T] {m k : L} (h : Function.update label u (some m) t = some k) :
    (t = u ∧ k = m) ∨ (t ≠ u ∧ label t = some k) := by
  by_cases htu : t = u
  · rw [htu, Function.update_self] at h
    exact Or.inl ⟨htu, (Option.some.inj h).symm⟩
  · rw [Function.update_of_ne htu] at h
    exact Or.inr ⟨htu, h⟩

/-- Linking a new table keeps the forest. -/
theorem Forest.link [DecidableEq T] [DecidableEq I]
    (hF : Forest next child depth leafDepth read label)
    (ht : label t = some l) (hu : label u = none) (he : next e = some u) (hz : next z = none) :
    Forest next child depth leafDepth (link read t i e u z)
      (Function.update label u (some (child l i))) where
  closed := by
    intro p m j w hp hm hw
    obtain ⟨rfl, -⟩ | ⟨hpu, hold⟩ := update_cases hp
    · -- the new table points nowhere
      rw [link_new, hz] at hw
      cases hw
    · by_cases hslot : p = t ∧ j = i
      · obtain ⟨rfl, rfl⟩ := hslot
        rw [link_self hpu, he] at hw
        obtain rfl := Option.some.inj hw
        obtain rfl := Option.some.inj (ht.symm.trans hold)
        exact Function.update_self _ _ _
      · rw [link_other hpu hslot] at hw
        exact extends_update hu _ _ _ (hF.closed hold hm hw)

theorem Forest.put [DecidableEq T] [DecidableEq I]
    (hF : Forest next child depth leafDepth read label)
    (ht : label t = some l) (hl : leafDepth ≤ depth l) :
    Forest next child depth leafDepth (put read t i e) label where
  closed := by
    intro p m j w hp hm hw
    have hslot : ¬ (p = t ∧ j = i) := by
      intro h
      rw [h.1, ht] at hp
      cases hp
      exact Nat.lt_irrefl _ (Nat.lt_of_lt_of_le hm hl)
    rw [put_other hslot] at hw
    exact hF.closed hp hm hw

theorem Forest.root [DecidableEq T] (hF : Forest next child depth leafDepth read label)
    (hu : label u = none) (hsame : ∀ p, p ≠ u → read' p = read p)
    (hroot : depth l < leafDepth → ∀ i w, next (read' u i) = some w → label w = some (child l i)) :
    Forest next child depth leafDepth read' (Function.update label u (some l)) where
  closed := by
    intro p m j w hp hm hw
    obtain ⟨rfl, rfl⟩ | ⟨hpu, hold⟩ := update_cases hp
    · exact extends_update hu _ _ _ (hroot hm j w hw)
    · rw [hsame p hpu] at hw
      exact extends_update hu _ _ _ (hF.closed hold hm hw)

/-- What a trail depends on: the slots on its path, in tables with the labels of
its path. -/
theorem Forest.trail_congr (hF : Forest next child depth leafDepth read label)
    (hdepth : ∀ l i, depth (child l i) = depth l + 1) (q : List I) (ht : label t = some l)
    (hlen : depth l + q.length ≤ leafDepth)
    (hsame : ∀ pre j post, i :: q = pre ++ j :: post → ∀ p,
      label p = some (pre.foldl child l) → read' p j = read p j) :
    trail next read' t i q = trail next read t i q := by
  -- down the path, one label after the other
  induction q generalizing t l i with
  | nil => rw [trail, trail, hsame [] i [] rfl t ht]
  | cons j q ih =>
    have hi : read' t i = read t i := hsame [] i (j :: q) rfl t ht
    rw [List.length_cons] at hlen
    cases hn : next (read t i) with
    | none => rw [trail_stop next (hi ▸ hn), trail_stop next hn, hi]
    | some u =>
      have hu : label u = some (child l i) := hF.closed ht (by omega) hn
      rw [trail_step next (hi ▸ hn), trail_step next hn, hi]
      congr 1
      refine ih hu (by rw [hdepth]; omega) ?_
      intro pre k post hq p hp
      exact hsame (i :: pre) k post (by rw [hq, List.cons_append]) p hp

/-- A cleared table below a slot that was absent, and no slot of a leaf, is not found by any
lookup that goes down to the leaves: where the slot is passed there is nothing below it. -/
theorem lookup_link [DecidableEq T] [DecidableEq I] {present : E → Prop}
    [DecidablePred present] (hF : Forest next child depth leafDepth read label)
    (hdepth : ∀ l i, depth (child l i) = depth l + 1)
    (hslot : ∀ l, label t = some l → depth l < leafDepth ∧ next e = some u) (hu : label u = none)
    (hnext : next (read t i) = none) (habsent : ¬ present (read t i)) (hz : next z = none)
    (hzero : ¬ present z) {p : T} {j : I} (q : List I) (hp : label p = some l)
    (hlen : depth l + q.length = leafDepth) :
    lookup next present (link read t i e u z) p j q = lookup next present read p j q := by
  induction q generalizing p l j with
  | nil =>
    have hpu : p ≠ u := fun h => by rw [h, hu] at hp; cases hp
    have hsame : link read t i e u z p j = read p j := by
      apply link_other hpu
      intro h
      have hinner := (hslot l (h.1 ▸ hp)).1
      simp at hlen
      omega
    rw [lookup, lookup, trail, trail, hsame]
  | cons k q ih =>
    have hpu : p ≠ u := fun h => by rw [h, hu] at hp; cases hp
    by_cases hpt : p = t ∧ j = i
    · -- the slot itself: nothing was below it, and the new table is empty
      obtain ⟨rfl, rfl⟩ := hpt
      have hlink : next (link read p j e u z p j) = some u := by
        rw [link_self hpu]
        exact (hslot l hp).2
      have hempty : lookup next present (link read p j e u z) u k q = none := by
        apply lookup_absent
        · rw [link_new, hz]
        · rw [link_new]
          exact hzero
      rw [lookup_step hlink, hempty, lookup_absent hnext habsent, Option.map_none]
    · have hsame : link read t i e u z p j = read p j := link_other hpu hpt
      rw [List.length_cons] at hlen
      cases hn : next (read p j) with
      | none => rw [lookup_stop hn, lookup_stop (by rw [hsame, hn]), hsame]
      | some w =>
        have hw : label w = some (child l j) := hF.closed hp (by omega) hn
        rw [lookup_step hn, lookup_step (by rw [hsame, hn]), hsame,
          ih hw (by rw [hdepth]; omega)]

end Forest

end RadixForest
