import JarJar.JarvisKnowledge
import JarJar.StringCopies

/- What `knowledge_base_add` stores of strings that are too long for it. The node comes from
   `kmalloc` and is not cleared; `strncpy` puts no NUL behind a string that it cuts. Such a
   string ends where what stood in the node before has a NUL, if it ends inside of its field
   at all, and what a query compares and returns depends on that. -/
namespace JarJar.Jarvis
open Libc

/-- Two memories in which queries see the same node: they compare it alike with every concept,
and find the same definition. -/
structure SameAnswers (n : Nat) (m₁ m₂ : Memory) : Prop where
  compared : ∀ concept, queryLoop m₁ concept [n] = queryLoop m₂ concept [n]
  returned : ∀ text,
    m₁.HasString (n + definitionOffset) text ↔ m₂.HasString (n + definitionOffset) text

/-- The `n` bytes that are copied of a text have its NUL among them, or what is in the field
behind them goes on with the text and ends. -/
def EndsInField (text : CStr) (n size d : Nat) (m : Memory) : Prop :=
  text.bytes.length < n ∨ HoldsPrefix (text.bytes.drop n) (size - n) (d + n) m

/-! ## One node -/

section
variable {n : Nat} {concept definition : CStr} {conf : U32} {m m' : Memory}

theorem HoldsPrefix.frame {text : List U8} {size d : Nat}
    (heq : ∀ x, d ≤ x → x < d + size → m'.bytes x = m.bytes x) :
    HoldsPrefix text size d m' ↔ HoldsPrefix text size d m := by
  constructor
  · rintro ⟨pre, hpre, hfits, hstring⟩
    exact ⟨pre, hpre, hfits, hstring.frame fun x hx hx' => (heq x hx (by omega)).symm⟩
  · rintro ⟨pre, hpre, hfits, hstring⟩
    exact ⟨pre, hpre, hfits, hstring.frame fun x hx hx' => heq x hx (by omega)⟩

theorem nodeStored_concept_iff :
    HoldsPrefix concept.bytes conceptSize (n + conceptOffset)
        (nodeStored n concept definition conf m) ↔
      EndsInField concept 63 conceptSize (n + conceptOffset) m := by
  rw [HoldsPrefix.frame fun x hlo hhi => nodeStored_concept hlo hhi]
  exact strncpy_holdsPrefix_iff (by decide)

theorem nodeStored_definition_iff :
    HoldsPrefix definition.bytes definitionSize (n + definitionOffset)
        (nodeStored n concept definition conf m) ↔
      EndsInField definition 255 definitionSize (n + definitionOffset) m := by
  rw [HoldsPrefix.frame fun x hlo hhi => nodeStored_definition hlo hhi,
    strncpy_holdsPrefix_iff (by decide), EndsInField]
  apply or_congr_right
  exact HoldsPrefix.frame fun x hlo _ => conceptCopied_outside (by omega)

theorem queryLoop_single (hne : n ≠ 0) {s : List U8} (hs : m.HasString (n + conceptOffset) s)
    (concept : CStr) :
    queryLoop m concept [n] = some (if EqUpToCase s concept.bytes then n + definitionOffset else 0) := by
  obtain ⟨order, hcmp, horder⟩ := strcasecmp_iff hs concept.nonzero
  rw [queryLoop, if_neg hne, hcmp]
  simp only [horder]
  split <;> rfl

end

/-! ## Two runs -/

/-- `m` with other bytes in the node at `n`. -/
def withNode (n : Nat) (f : Nat → U8) (m : Memory) : Memory where
  bytes x := if n ≤ x ∧ x < n + nodeSize then f x else m.bytes x
  touched := m.touched

section
variable {n : Nat} {concept definition : CStr} {conf : U32} {m m₁ m₂ : Memory}

theorem withNode_outside (f : Nat → U8) {x : Nat} (hx : x < n ∨ n + nodeSize ≤ x) :
    (withNode n f m).bytes x = m.bytes x := if_neg (by omega)

theorem withNode_inside (f : Nat → U8) {x : Nat} (hx : n ≤ x ∧ x < n + nodeSize) :
    (withNode n f m).bytes x = f x := if_pos hx

/-- A concept that was cut, with the string `rest` behind it in the node before. -/
theorem nodeStored_cut_concept {rest : List U8} (hlong : 63 ≤ concept.bytes.length)
    (hfits : rest.length < conceptSize - 63) (hrest : m.HasString (n + conceptOffset + 63) rest) :
    (nodeStored n concept definition conf m).HasString (n + conceptOffset)
      (concept.bytes.take 63 ++ rest) := by
  apply ((strncpy_hasString_append hlong).mpr hrest).frame
  intro x hlo hhi
  rw [List.length_append, List.length_take_of_le hlong] at hhi
  simp only [conceptSize] at hfits
  exact nodeStored_concept hlo (by simp only [conceptSize]; omega)

theorem nodeStored_cut_definition {rest : List U8} (hlong : 255 ≤ definition.bytes.length)
    (hfits : rest.length < definitionSize - 255)
    (hrest : m.HasString (n + definitionOffset + 255) rest) :
    (nodeStored n concept definition conf m).HasString (n + definitionOffset)
      (definition.bytes.take 255 ++ rest) := by
  have hcopied : (strncpy (n + conceptOffset) concept 63 m).HasString (n + definitionOffset + 255) rest :=
    hrest.frame fun x hx _ => conceptCopied_outside (by omega)
  apply ((strncpy_hasString_append hlong).mpr hcopied).frame
  intro x hlo hhi
  rw [List.length_append, List.length_take_of_le hlong] at hhi
  simp only [definitionSize] at hfits
  exact nodeStored_definition hlo (by simp only [definitionSize]; omega)

theorem sameAnswers_of_short (hne : n ≠ 0) (h : (⟨concept, definition, conf⟩ : Entry).Short) :
    SameAnswers n (nodeStored n concept definition conf m₁)
      (nodeStored n concept definition conf m₂) := by
  have h₁ := nodeStored_holds (n := n) (m := m₁) h
  have h₂ := nodeStored_holds (n := n) (m := m₂) h
  refine ⟨fun q => ?_, fun text => ⟨fun ht => ?_, fun ht => ?_⟩⟩
  · rw [queryLoop_single hne h₁.concept, queryLoop_single hne h₂.concept]
  · rw [h₁.definition.unique ht |>.symm]
    exact h₂.definition
  · rw [h₂.definition.unique ht |>.symm]
    exact h₁.definition

/-- A node full of NULs, and one with another byte where each of the copies ends. -/
def noBytes : Nat → U8 := fun _ => 0

def strayBytes (n : Nat) : Nat → U8 := fun x =>
  if x = n + conceptOffset + 63 ∨ x = n + definitionOffset + 255 then 1 else 0

theorem noBytes_hasString {x : Nat} (hlo : n ≤ x) (hhi : x < n + nodeSize) :
    (withNode n noBytes m).HasString x [] := if_pos ⟨hlo, hhi⟩

theorem strayBytes_hasString {x : Nat} (hx : x = n + conceptOffset + 63 ∨ x = n + definitionOffset + 255) :
    (withNode n (strayBytes n) m).HasString x [1] := by
  have hin : n ≤ x ∧ x + 1 < n + nodeSize := by
    simp only [conceptOffset, definitionOffset, nodeSize] at *
    omega
  refine ⟨?_, by decide, ?_⟩
  · rw [withNode_inside _ (by omega), strayBytes, if_pos hx]
  · show (withNode n (strayBytes n) m).bytes (x + 1) = 0
    rw [withNode_inside _ (by omega), strayBytes, if_neg]
    simp only [conceptOffset, definitionOffset] at *
    omega

/-- What a query sees of a node does not depend on what was in it before only if the strings
fit. -/
theorem short_of_sameAnswers (hne : n ≠ 0)
    (h : SameAnswers n (nodeStored n concept definition conf (withNode n noBytes m))
      (nodeStored n concept definition conf (withNode n (strayBytes n) m))) :
    (⟨concept, definition, conf⟩ : Entry).Short := by
  constructor
  · apply Nat.lt_of_not_le
    intro hlong
    replace hlong : 63 ≤ concept.bytes.length := hlong
    have hnul : (nodeStored n concept definition conf (withNode n noBytes m)).HasString
        (n + conceptOffset) (concept.bytes.take 63 ++ []) :=
      nodeStored_cut_concept hlong (by decide)
        (noBytes_hasString (by omega) (by simp only [conceptOffset, nodeSize]; omega))
    have hstray : (nodeStored n concept definition conf (withNode n (strayBytes n) m)).HasString
        (n + conceptOffset) (concept.bytes.take 63 ++ [1]) :=
      nodeStored_cut_concept hlong (by decide) (strayBytes_hasString (Or.inl rfl))
    -- the text that was copied, as a query
    have hquery := h.compared ⟨concept.bytes.take 63, fun b hb =>
      concept.nonzero b (List.mem_of_mem_take hb)⟩
    have hself : EqUpToCase (concept.bytes.take 63) (concept.bytes.take 63) := rfl
    rw [queryLoop_single hne hnul, queryLoop_single hne hstray, List.append_nil, if_pos hself,
      if_neg fun heq => by simpa using congrArg List.length heq] at hquery
    exact absurd (Option.some.inj hquery) (by rw [definitionOffset]; omega)
  · apply Nat.lt_of_not_le
    intro hlong
    replace hlong : 255 ≤ definition.bytes.length := hlong
    have hnul : (nodeStored n concept definition conf (withNode n noBytes m)).HasString
        (n + definitionOffset) (definition.bytes.take 255 ++ []) :=
      nodeStored_cut_definition hlong (by decide)
        (noBytes_hasString (by omega) (by simp only [definitionOffset, nodeSize]; omega))
    have hstray : (nodeStored n concept definition conf (withNode n (strayBytes n) m)).HasString
        (n + definitionOffset) (definition.bytes.take 255 ++ [1]) :=
      nodeStored_cut_definition hlong (by decide) (strayBytes_hasString (Or.inr rfl))
    -- one definition in one memory, a longer one in the other
    have hsame := ((h.returned _).mp hnul).unique hstray
    simpa using congrArg List.length hsame

end

/-! ## Successful additions -/

section
variable {heap : Heap} {kb kb' : KnowledgeBase} {concept definition : CStr} {conf : U32}
  {s s' : Machine}

theorem knowledgeBaseAdd_some
    (h : knowledgeBaseAdd heap kb concept definition conf s = some (.ok, kb', s')) :
    kb.numNodes < kb.capacity ∧ heap.block s.allocs ≠ 0 ∧ ∃ nodes, kb.nodes = some nodes := by
  have hroom : kb.numNodes < kb.capacity := by
    apply Nat.lt_of_not_le
    intro hfull
    rw [knowledgeBaseAdd_full hfull] at h
    cases h
  have hne : heap.block s.allocs ≠ 0 := by
    intro hnull
    rw [knowledgeBaseAdd_null hroom hnull] at h
    cases h
  refine ⟨hroom, hne, ?_⟩
  cases hnodes : kb.nodes with
  | some nodes => exact ⟨nodes, rfl⟩
  | none =>
    rw [knowledgeBaseAdd, if_neg (Nat.not_le.mpr hroom)] at h
    dsimp only [kmalloc] at h
    rw [if_neg hne, hnodes] at h
    cases h

end

/-- Any two memories that differ in the node to be filled only give, after the addition, nodes
that queries see alike. -/
def Independent (heap : Heap) (kb : KnowledgeBase) (concept definition : CStr) (conf : U32)
    (s : Machine) : Prop :=
  ∀ m₁ m₂ : Memory,
    (∀ x, x < heap.block s.allocs ∨ heap.block s.allocs + nodeSize ≤ x → m₁.bytes x = m₂.bytes x) →
    ∀ kb₁ kb₂ s₁ s₂,
      knowledgeBaseAdd heap kb concept definition conf { s with mem := m₁ } = some (.ok, kb₁, s₁) →
      knowledgeBaseAdd heap kb concept definition conf { s with mem := m₂ } = some (.ok, kb₂, s₂) →
      SameAnswers (heap.block s.allocs) s₁.mem s₂.mem

/-- After a successful addition a stored string ends in its field, as what it was copied from
begins, exactly if it was copied with its NUL or what was in the node before goes on that way;
what queries see does not depend on what was there exactly if both strings were copied with
their NUL. -/
theorem knowledgeBaseAdd_terminated_iff {heap : Heap} {kb kb' : KnowledgeBase}
    {concept definition : CStr} {conf : U32} {s s' : Machine}
    (h : knowledgeBaseAdd heap kb concept definition conf s = some (.ok, kb', s')) :
    (HoldsPrefix concept.bytes conceptSize (heap.block s.allocs + conceptOffset) s'.mem ∧
        HoldsPrefix definition.bytes definitionSize (heap.block s.allocs + definitionOffset) s'.mem ↔
      EndsInField concept 63 conceptSize (heap.block s.allocs + conceptOffset) s.mem ∧
        EndsInField definition 255 definitionSize (heap.block s.allocs + definitionOffset) s.mem) ∧
    (Independent heap kb concept definition conf s ↔
      concept.bytes.length < 63 ∧ definition.bytes.length < 255) := by
  obtain ⟨hroom, hne, nodes, hnodes⟩ := knowledgeBaseAdd_some h
  have hadd (m : Memory) : knowledgeBaseAdd heap kb concept definition conf { s with mem := m } =
      some (.ok, kb.push nodes (heap.block s.allocs), { s with
        mem := nodeStored (heap.block s.allocs) concept definition conf m
        allocs := s.allocs + 1 }) := knowledgeBaseAdd_ok hroom hne hnodes
  constructor
  · rw [hadd s.mem] at h
    obtain ⟨-, rfl⟩ : _ ∧ _ = s' := by simpa using h
    exact and_congr nodeStored_concept_iff nodeStored_definition_iff
  · constructor
    · -- two memories are enough: all NULs, and a stray byte where a copy ends
      intro hsame
      apply short_of_sameAnswers hne
      apply hsame (withNode _ noBytes s.mem) (withNode _ (strayBytes _) s.mem) _ _ _ _ _
        (hadd _) (hadd _)
      intro x hx
      rw [withNode_outside _ hx, withNode_outside _ hx]
    · intro hshort m₁ m₂ _ kb₁ kb₂ s₁ s₂ h₁ h₂
      rw [hadd] at h₁ h₂
      obtain ⟨-, rfl⟩ : _ ∧ _ = s₁ := by simpa using h₁
      obtain ⟨-, rfl⟩ : _ ∧ _ = s₂ := by simpa using h₂
      exact sameAnswers_of_short hne hshort

/-- A heap whose blocks are 2 KiB apart, and a knowledge base with room in it. -/
def someHeap : Heap := ⟨fun k => 2048 * (k + 1), fun _ _ => 0⟩

def emptyBase : KnowledgeBase := ⟨some fun _ => 0, 0, 100⟩

/-- `"Ok"` and `"y"` in a node that was full of `0xFF`. -/
theorem knowledgeBaseAdd_terminated_short :
    ∃ kb s, knowledgeBaseAdd someHeap emptyBase okEntry.concept okEntry.definition 0
        (Machine.start ⟨fun _ => 0xFF, []⟩) = some (.ok, kb, s) ∧
      HoldsPrefix okEntry.concept.bytes conceptSize (2048 + conceptOffset) s.mem ∧
      Independent someHeap emptyBase okEntry.concept okEntry.definition 0
        (Machine.start ⟨fun _ => 0xFF, []⟩) := by
  have hadd : knowledgeBaseAdd someHeap emptyBase okEntry.concept okEntry.definition 0
      (Machine.start ⟨fun _ => 0xFF, []⟩) = _ := knowledgeBaseAdd_ok (by decide) (by decide) rfl
  obtain ⟨hstored, hsame⟩ := knowledgeBaseAdd_terminated_iff hadd
  refine ⟨_, _, hadd, (hstored.mpr ⟨Or.inl (by decide), Or.inl (by decide)⟩).1, hsame.mpr ?_⟩
  decide

/-- A concept of 63 bytes in a node that was full of `0xFF`. -/
theorem knowledgeBaseAdd_unterminated :
    ¬ ∀ (heap : Heap) (kb kb' : KnowledgeBase) (concept definition : CStr) (conf : U32)
      (s s' : Machine), knowledgeBaseAdd heap kb concept definition conf s = some (.ok, kb', s') →
        HoldsPrefix concept.bytes conceptSize (heap.block s.allocs + conceptOffset) s'.mem ∧
        HoldsPrefix definition.bytes definitionSize (heap.block s.allocs + definitionOffset) s'.mem := by
  intro h
  let concept : CStr := ⟨List.replicate 63 (ch 'a'), fun b hb => by
    rw [List.eq_of_mem_replicate hb]
    decide⟩
  have hadd : knowledgeBaseAdd someHeap emptyBase concept CStr.empty 0
      (Machine.start ⟨fun _ => 0xFF, []⟩) = _ := knowledgeBaseAdd_ok (by decide) (by decide) rfl
  have hholds := nodeStored_concept_iff.mp (h _ _ _ _ _ _ _ _ hadd).1
  obtain hshort | ⟨pre, hpre, -, hstring⟩ := hholds
  · exact absurd hshort (Nat.lt_irrefl 63)
  · have hnil : concept.bytes.drop 63 = [] := rfl
    rw [hnil] at hpre
    obtain rfl := List.prefix_nil.mp hpre
    have hnul : (0xFF : U8) = 0 := hstring
    exact absurd hnul (by decide)

end JarJar.Jarvis
