import JarJar.Paging
import Mathlib.Data.List.Basic

/- What an address space is for, with no tables in it: every page that was mapped
   has the entry of the last call for it, and every region that holds a mapped
   page (512 GiB, 1 GiB and 2 MiB, one for each level above the leaves) has the
   flags of the first call in it. Regions and pages are named by their indices
   from the PML4 down. -/
namespace JarJar.Vmm

/-- The arguments of a call of `vmm_map`. -/
structure MapCall where
  virt : U64
  phys : U64
  flags : U64
  deriving DecidableEq, Repr

namespace MapCall

/-- The region of level `k` an address lies in: its first `k` indices. -/
def region (c : MapCall) (k : Nat) : List (Fin 512) := (path c.virt).take k

/-- The leaf entry the call asks for. -/
def leaf (c : MapCall) : U64 := entry c.phys c.flags

/-- The call maps a page of region `q`. -/
def In (q : List (Fin 512)) (c : MapCall) : Prop := q = c.region 1 ∨ q = c.region 2 ∨ q = c.region 3

instance (q : List (Fin 512)) (c : MapCall) : Decidable (c.In q) := by unfold In; infer_instance

end MapCall

/-- An address space as a map: `dir` for regions, `leaf` for pages. -/
structure Layout where
  dir : List (Fin 512) → Option U64
  leaf : List (Fin 512) → Option U64

namespace Layout

def empty : Layout := ⟨fun _ => none, fun _ => none⟩

/-- A region is needed: it keeps its flags, or gets these. -/
def touch (A : Layout) (q : List (Fin 512)) (flags : U64) : Layout :=
  { A with dir := Function.update A.dir q (some ((A.dir q).getD flags)) }

def setLeaf (A : Layout) (q : List (Fin 512)) (e : U64) : Layout :=
  { A with leaf := Function.update A.leaf q (some e) }

/-- One call of `vmm_map`. -/
def map (A : Layout) (c : MapCall) : Layout :=
  (((A.touch (c.region 1) c.flags).touch (c.region 2) c.flags).touch (c.region 3) c.flags).setLeaf
    (path c.virt) c.leaf

def maps (A : Layout) (calls : List MapCall) : Layout := calls.foldl map A

/-- Below a region that was never needed there is nothing. -/
structure Closed (A : Layout) : Prop where
  dir : ∀ q j, q ≠ [] → A.dir q = none → A.dir (q ++ [j]) = none
  leaf : ∀ q j, q ≠ [] → A.dir q = none → A.leaf (q ++ [j]) = none

theorem closed_empty : empty.Closed := ⟨fun _ _ _ _ => rfl, fun _ _ _ _ => rfl⟩

variable {A : Layout} {p q : List (Fin 512)} {i j : Fin 512} {flags e : U64}

theorem touch_dir_self : (A.touch q flags).dir q = some ((A.dir q).getD flags) :=
  Function.update_self _ _ _

theorem touch_dir_other (h : p ≠ q) : (A.touch q flags).dir p = A.dir p :=
  Function.update_of_ne h _ _

theorem touch_dir_none (h : (A.touch q flags).dir p = none) : p ≠ q ∧ A.dir p = none := by
  by_cases hpq : p = q
  · rw [hpq, touch_dir_self] at h
    cases h
  · exact ⟨hpq, by rwa [touch_dir_other hpq] at h⟩

theorem setLeaf_self : (A.setLeaf q e).leaf q = some e := Function.update_self _ _ _

theorem setLeaf_other (h : p ≠ q) : (A.setLeaf q e).leaf p = A.leaf p := Function.update_of_ne h _ _

theorem touch_of_some (h : A.dir q = some e) : A.touch q flags = A := by
  show Layout.mk _ _ = A
  rw [h, Option.getD_some, ← h, Function.update_eq_self]

theorem Closed.touch (h : A.Closed) (hp : p = [] ∨ A.dir p ≠ none) :
    (A.touch (p ++ [i]) flags).Closed where
  dir := by
    intro q j hq hn
    obtain ⟨-, hq'⟩ := touch_dir_none hn
    have hne : q ++ [j] ≠ p ++ [i] := by
      intro heq
      obtain ⟨rfl, -⟩ := List.append_singleton_inj.mp heq
      cases hp with
      | inl hp => exact hq hp
      | inr hp => exact hp hq'
    rw [touch_dir_other hne]
    exact h.dir q j hq hq'
  leaf := by
    intro q j hq hn
    exact h.leaf q j hq (touch_dir_none hn).2

theorem Closed.setLeaf (h : A.Closed) (hp : p = [] ∨ A.dir p ≠ none) :
    (A.setLeaf (p ++ [i]) e).Closed where
  dir := h.dir
  leaf := by
    intro q j hq hn
    have hne : q ++ [j] ≠ p ++ [i] := by
      intro heq
      obtain ⟨rfl, -⟩ := List.append_singleton_inj.mp heq
      cases hp with
      | inl hp => exact hq hp
      | inr hp => exact hp hn
    show Function.update A.leaf _ _ (q ++ [j]) = none
    rw [Function.update_of_ne hne]
    exact h.leaf q j hq hn

/-! ## The first and the last call -/

theorem map_dir (A : Layout) (c : MapCall) (q : List (Fin 512)) :
    (A.map c).dir q = if c.In q then some ((A.dir q).getD c.flags) else A.dir q := by
  have h12 : c.region 1 ≠ c.region 2 := by simp [MapCall.region, path]
  have h13 : c.region 1 ≠ c.region 3 := by simp [MapCall.region, path]
  have h23 : c.region 2 ≠ c.region 3 := by simp [MapCall.region, path]
  show (((A.touch (c.region 1) c.flags).touch (c.region 2) c.flags).touch (c.region 3) c.flags).dir q
    = _
  by_cases h3 : q = c.region 3
  · have hin : c.In q := Or.inr (Or.inr h3)
    rw [if_pos hin, h3, touch_dir_self, touch_dir_other h23.symm,
      touch_dir_other h13.symm]
  · rw [touch_dir_other h3]
    by_cases h2 : q = c.region 2
    · have hin : c.In q := Or.inr (Or.inl h2)
      rw [if_pos hin, h2, touch_dir_self, touch_dir_other h12.symm]
    · rw [touch_dir_other h2]
      by_cases h1 : q = c.region 1
      · have hin : c.In q := Or.inl h1
        rw [if_pos hin, h1, touch_dir_self]
      · rw [touch_dir_other h1, if_neg]
        exact fun h => h.elim h1 fun h => h.elim h2 h3

theorem map_flags {P : U64 → Prop} {c : MapCall} (hA : ∀ q f, A.dir q = some f → P f)
    (hc : P c.flags) : ∀ q f, (A.map c).dir q = some f → P f := by
  intro q f hf
  rw [map_dir] at hf
  split at hf
  · cases hq : A.dir q with
    | none =>
      rw [hq, Option.getD_none] at hf
      exact Option.some.inj hf ▸ hc
    | some g =>
      rw [hq, Option.getD_some] at hf
      exact Option.some.inj hf ▸ hA q g hq
  · exact hA q f hf

theorem map_leaf (A : Layout) (c : MapCall) (q : List (Fin 512)) :
    (A.map c).leaf q = if q = path c.virt then some c.leaf else A.leaf q :=
  Function.update_apply _ _ _ _

/-- A region has the flags of the first call in it. -/
theorem maps_dir (A : Layout) (calls : List MapCall) (q : List (Fin 512)) :
    (A.maps calls).dir q =
      (A.dir q).or ((calls.find? (fun c => c.In q)).map MapCall.flags) := by
  induction calls generalizing A with
  | nil => simp [maps]
  | cons c calls ih =>
    have hc := ih (A.map c)
    rw [map_dir] at hc
    show ((A.map c).maps calls).dir q = _
    by_cases hin : c.In q
    · rw [hc, if_pos hin, List.find?_cons_of_pos (by simpa using hin)]
      cases A.dir q with
      | none => rfl
      | some f => rfl
    · rw [hc, if_neg hin, List.find?_cons_of_neg (by simpa using hin)]

theorem maps_leaf (A : Layout) (calls : List MapCall) (q : List (Fin 512)) :
    (A.maps calls).leaf q =
      ((calls.reverse.find? (fun c => q = path c.virt)).map MapCall.leaf).or (A.leaf q) := by
  induction calls generalizing A with
  | nil => simp [maps]
  | cons c calls ih =>
    show ((A.map c).maps calls).leaf q = _
    rw [ih (A.map c), map_leaf, List.reverse_cons, List.find?_append]
    cases calls.reverse.find? (fun c => q = path c.virt) with
    | some d => rfl
    | none =>
      by_cases hq : q = path c.virt
      · simp [hq]
      · simp [hq]

theorem maps_last (calls : List MapCall) (v : U64) :
    (empty.maps calls).leaf (path v) =
      (calls.reverse.find? (fun c => pageNumber v = pageNumber c.virt)).map MapCall.leaf := by
  rw [maps_leaf]
  simp only [path_eq_iff]
  exact Option.or_none

theorem maps_first (calls : List MapCall) (q : List (Fin 512)) :
    (empty.maps calls).dir q = (calls.find? (fun c => c.In q)).map MapCall.flags := by
  rw [maps_dir]
  exact Option.none_or

theorem maps_dir_mem {calls : List MapCall} (h : (empty.maps calls).dir q = some flags) :
    ∃ c ∈ calls, c.In q ∧ flags = c.flags := by
  rw [maps_first, Option.map_eq_some_iff] at h
  obtain ⟨c, hc, rfl⟩ := h
  have hin := List.find?_some hc
  exact ⟨c, List.mem_of_find?_eq_some hc, of_decide_eq_true hin, rfl⟩

end Layout

theorem MapCall.in_region {c d : MapCall} {k : Nat} (hk : k = 1 ∨ k = 2 ∨ k = 3) :
    d.In (c.region k) ↔ d.region k = c.region k := by
  refine ⟨fun h => ?_, fun h => ?_⟩
  · have hlen : ∀ (e : MapCall) m, m = 1 ∨ m = 2 ∨ m = 3 → (e.region m).length = m := by
      intro e m hm
      obtain rfl | rfl | rfl := hm
      · rfl
      · rfl
      · rfl
    have same : ∀ m, m = 1 ∨ m = 2 ∨ m = 3 → c.region k = d.region m → d.region k = c.region k := by
      intro m hm heq
      have hkm : k = m := by rw [← hlen c k hk, heq, hlen d m hm]
      rw [heq, hkm]
    obtain h | h | h := h
    · exact same 1 (Or.inl rfl) h
    · exact same 2 (Or.inr (Or.inl rfl)) h
    · exact same 3 (Or.inr (Or.inr rfl)) h
  · obtain rfl | rfl | rfl := hk
    · exact Or.inl h.symm
    · exact Or.inr (Or.inl h.symm)
    · exact Or.inr (Or.inr h.symm)

end JarJar.Vmm
