import JarJar.JarvisInit
import Mathlib.Data.List.Forall2

/- The knowledge base as its callers see it: what was added, and what a query finds.

   What is proved (`jarvis_query_after_adds`): the first hundred additions are stored, later
   ones are refused, and `jarvis_query_knowledge` finds the whole definition of the first
   entry whose concept is the one asked for, up to the case of its letters. The strings are
   copied into memory that may hold anything before. -/
namespace JarJar.Jarvis
open Libc

/-- `knowledge_base_add` on the knowledge base of the instance, again and again. -/
def knowledgeAdds (heap : Heap) : List Entry → Machine → Option (List JarResult × Machine)
  | [], s => some ([], s)
  | entry :: entries, s =>
    match s.knowledge with
    | none => none
    | some kb =>
      match knowledgeBaseAdd heap kb entry.concept entry.definition entry.conf s with
      | none => none
      | some (r, kb, s) =>
        match knowledgeAdds heap entries (s.setKnowledge kb) with
        | none => none
        | some (rs, s) => some (r :: rs, s)

/-- `kmalloc` succeeds, and from call `first` on no two blocks share a byte of a node. -/
structure Heap.Works (heap : Heap) (first : Nat) : Prop where
  nonzero : ∀ k, heap.block k ≠ 0
  apart : ∀ j k, first ≤ j → j < k →
    heap.block j + nodeSize ≤ heap.block k ∨ heap.block k + nodeSize ≤ heap.block j

/-- The strings fit into what `knowledge_base_add` copies. -/
def Entry.Short (entry : Entry) : Prop :=
  entry.concept.bytes.length < 63 ∧ entry.definition.bytes.length < 255

def Entry.Answers (concept : CStr) (entry : Entry) : Prop :=
  EqUpToCase entry.concept.bytes concept.bytes

instance (concept : CStr) : DecidablePred (Entry.Answers concept) :=
  fun entry => inferInstanceAs (Decidable (EqUpToCase entry.concept.bytes concept.bytes))

/-! ## One node -/

/-- The node at `n` has the strings of the entry. -/
structure NodeHolds (m : Memory) (n : Nat) (entry : Entry) : Prop where
  concept : m.HasString (n + conceptOffset) entry.concept.bytes
  definition : m.HasString (n + definitionOffset) entry.definition.bytes

section
variable {m m' : Memory} {n n' : Nat} {entry : Entry} {concept definition : CStr} {conf : U32}

theorem storeFloat_touches (m : Memory) (p : Nat) (bits : U32) :
    Touches p 4 m (storeFloat m p bits) := by
  have hfirst : Touches p 4 m (m.store p (bits.extractLsb' 0 8)) := .store (by omega) _
  exact ((hfirst.trans (.store (by omega) _)).trans (.store (by omega) _)).trans (.store (by omega) _)

theorem nodeStored_touches (n : Nat) (concept definition : CStr) (conf : U32) (m : Memory) :
    Touches n nodeSize m (nodeStored n concept definition conf m) := by
  have hconcept := strncpy_touches (n + conceptOffset) concept 63 m
  have hdefinition := strncpy_touches (n + definitionOffset) definition 255
    (strncpy (n + conceptOffset) concept 63 m)
  have hconfidence := storeFloat_touches (strncpy (n + definitionOffset) definition 255
    (strncpy (n + conceptOffset) concept 63 m)) (n + confidenceOffset) conf
  simp only [conceptOffset, definitionOffset, confidenceOffset] at hconcept hdefinition hconfidence
  have hlen : nodeSize = 1312 := rfl
  apply ((hconcept.widen _ _).trans (hdefinition.widen _ _)).trans (hconfidence.widen _ _) <;> omega

theorem nodeStored_concept {x : Nat} (hlo : n + conceptOffset ≤ x)
    (hhi : x < n + conceptOffset + conceptSize) :
    (nodeStored n concept definition conf m).bytes x =
      (strncpy (n + conceptOffset) concept 63 m).bytes x := by
  have hdefinition := strncpy_touches (n + definitionOffset) definition 255
    (strncpy (n + conceptOffset) concept 63 m)
  have hconfidence := storeFloat_touches (strncpy (n + definitionOffset) definition 255
    (strncpy (n + conceptOffset) concept 63 m)) (n + confidenceOffset) conf
  simp only [conceptOffset, conceptSize, definitionOffset, confidenceOffset] at *
  exact (hconfidence.outside x (by omega)).trans (hdefinition.outside x (by omega))

theorem nodeStored_definition {x : Nat} (hlo : n + definitionOffset ≤ x)
    (hhi : x < n + definitionOffset + definitionSize) :
    (nodeStored n concept definition conf m).bytes x =
      (strncpy (n + definitionOffset) definition 255
        (strncpy (n + conceptOffset) concept 63 m)).bytes x := by
  have hconfidence := storeFloat_touches (strncpy (n + definitionOffset) definition 255
    (strncpy (n + conceptOffset) concept 63 m)) (n + confidenceOffset) conf
  simp only [conceptOffset, definitionSize, definitionOffset, confidenceOffset] at *
  exact hconfidence.outside x (by omega)

theorem conceptCopied_outside {x : Nat} (hlo : n + definitionOffset ≤ x) :
    (strncpy (n + conceptOffset) concept 63 m).bytes x = m.bytes x := by
  have hconcept := strncpy_touches (n + conceptOffset) concept 63 m
  simp only [conceptOffset, definitionOffset] at *
  exact hconcept.outside x (by omega)

/-- The fields do not overlap, so that each keeps what was put into it. -/
theorem nodeStored_holds (h : entry.Short) :
    NodeHolds (nodeStored n entry.concept entry.definition entry.conf m) n entry := by
  obtain ⟨hc, hd⟩ := h
  constructor
  · apply (strncpy_hasString hc).frame
    intro x hx hx'
    exact nodeStored_concept hx (by rw [show conceptSize = 256 from rfl]; omega)
  · apply (strncpy_hasString hd).frame
    intro x hx hx'
    exact nodeStored_definition hx (by rw [show definitionSize = 1024 from rfl]; omega)

theorem NodeHolds.frame (h : NodeHolds m n entry) (hshort : entry.Short)
    (htouch : Touches n' nodeSize m m') (hapart : n + nodeSize ≤ n' ∨ n' + nodeSize ≤ n) :
    NodeHolds m' n entry := by
  obtain ⟨hc, hd⟩ := hshort
  have hlen : nodeSize = 1312 := rfl
  constructor
  · apply h.concept.frame
    intro x hx hx'
    simp only [conceptOffset] at hx hx'
    exact htouch.outside x (by omega)
  · apply h.definition.frame
    intro x hx hx'
    simp only [definitionOffset] at hx hx'
    exact htouch.outside x (by omega)

end

/-! ## All nodes -/

/-- The knowledge base holds the entries in their order, in the blocks from call `first` on. -/
structure Stored (heap : Heap) (first : Nat) (entries : List Entry) (core : JarvisCore)
    (kb : KnowledgeBase) (nodes : Nat → Nat) (s : Machine) : Prop where
  ready : Ready core kb nodes s
  count : kb.numNodes = entries.length
  allocs : s.allocs = first + entries.length
  block : ∀ i < entries.length, nodes i = heap.block (first + i)
  holds : ∀ i entry, entries[i]? = some entry → NodeHolds s.mem (nodes i) entry

section
variable {heap : Heap} {first : Nat} {entries : List Entry} {core : JarvisCore}
  {kb : KnowledgeBase} {nodes : Nat → Nat} {s : Machine}

theorem Stored.nil (h : Ready core ⟨some nodes, 0, 100⟩ nodes s) :
    Stored heap s.allocs [] core ⟨some nodes, 0, 100⟩ nodes s where
  ready := h
  count := rfl
  allocs := rfl
  block i hi := absurd hi (Nat.not_lt_zero i)
  holds i entry h := by rw [List.getElem?_nil] at h; cases h

theorem Stored.add {entry : Entry} (h : Stored heap first entries core kb nodes s)
    (hroom : kb.numNodes < kb.capacity) (hheap : heap.Works first)
    (hshort : ∀ e ∈ entries, e.Short) (hentry : entry.Short) :
    ∃ s₁, knowledgeBaseAdd heap kb entry.concept entry.definition entry.conf s =
        some (.ok, kb.push nodes (heap.block s.allocs), s₁) ∧
      Stored heap first (entries ++ [entry])
        { core with knowledge := some (kb.push nodes (heap.block s.allocs)) }
        (kb.push nodes (heap.block s.allocs))
        (Function.update nodes kb.numNodes (heap.block s.allocs))
        (s₁.setKnowledge (kb.push nodes (heap.block s.allocs))) := by
  have hlast : (entries ++ [entry]).length = entries.length + 1 := List.length_append
  refine ⟨_, knowledgeBaseAdd_ok hroom (hheap.nonzero _) h.ready.nodes, h.ready.setKnowledge rfl _ _,
    ?_, ?_, fun i hi => ?_, fun i e he => ?_⟩
  · rw [hlast, ← h.count]
    rfl
  · rw [hlast]
    exact congrArg (· + 1) h.allocs
  · rw [hlast] at hi
    by_cases hnew : i = kb.numNodes
    · rw [hnew, Function.update_self, h.allocs, h.count]
    · have hcount := h.count
      rw [Function.update_of_ne hnew]
      exact h.block i (by omega)
  · by_cases hold : i < entries.length
    · rw [List.getElem?_append_left hold] at he
      have hne : i ≠ kb.numNodes := by rw [h.count]; omega
      rw [Function.update_of_ne hne]
      apply (h.holds i e he).frame (hshort e (List.mem_of_getElem? he)) (nodeStored_touches _ _ _ _ _)
      rw [h.block i hold, h.allocs]
      exact hheap.apart _ _ (by omega) (by omega)
    · obtain rfl : i = entries.length := by
        have hlt := (List.getElem?_eq_some_iff.mp he).1
        omega
      rw [List.getElem?_concat_length] at he
      obtain rfl := Option.some.inj he
      rw [← h.count, Function.update_self]
      exact nodeStored_holds hentry

/-! ## Runs of additions -/

theorem knowledgeAdds_append (before after : List Entry) (s : Machine) :
    knowledgeAdds heap (before ++ after) s =
      match knowledgeAdds heap before s with
      | none => none
      | some (rs, s') =>
        match knowledgeAdds heap after s' with
        | none => none
        | some (rs', s'') => some (rs ++ rs', s'') := by
  induction before generalizing s with
  | nil =>
    dsimp only [List.nil_append, knowledgeAdds]
    cases knowledgeAdds heap after s <;> rfl
  | cons entry before ih =>
    rw [List.cons_append, knowledgeAdds, knowledgeAdds]
    cases s.knowledge with
    | none => rfl
    | some kb =>
      dsimp only
      cases knowledgeBaseAdd heap kb entry.concept entry.definition entry.conf s with
      | none => rfl
      | some added =>
        obtain ⟨r, kb', s₁⟩ := added
        dsimp only
        rw [ih]
        cases knowledgeAdds heap before (s₁.setKnowledge kb') with
        | none => rfl
        | some run =>
          dsimp only
          cases knowledgeAdds heap after run.2 <;> rfl

theorem Stored.adds (added : List Entry) (h : Stored heap first entries core kb nodes s)
    (hroom : entries.length + added.length ≤ kb.capacity) (hheap : heap.Works first)
    (hshort : ∀ e ∈ entries, e.Short) (hadded : ∀ e ∈ added, e.Short) :
    ∃ core' kb' nodes' s', knowledgeAdds heap added s =
        some (List.replicate added.length .ok, s') ∧ kb'.capacity = kb.capacity ∧
      Stored heap first (entries ++ added) core' kb' nodes' s' := by
  induction added generalizing entries core kb nodes s with
  | nil =>
    refine ⟨core, kb, nodes, s, rfl, rfl, ?_⟩
    rwa [List.append_nil]
  | cons entry added ih =>
    obtain ⟨hentry, hrest⟩ := List.forall_mem_cons.mp hadded
    rw [List.length_cons] at hroom
    have hcount := h.count
    obtain ⟨s₁, hadd, hstored⟩ := h.add (by omega) hheap hshort hentry
    obtain ⟨core', kb', nodes', s', hrun, hcap, hstored'⟩ := ih hstored
      (by rw [List.length_append, List.length_singleton, KnowledgeBase.push]; dsimp only; omega)
      (List.forall_mem_append.mpr ⟨hshort, List.forall_mem_singleton.mpr hentry⟩) hrest
    rw [List.append_assoc, List.singleton_append] at hstored'
    refine ⟨core', kb', nodes', s', ?_, hcap, hstored'⟩
    simp [knowledgeAdds, h.ready.machine_knowledge, hadd, hrun, List.replicate_succ]

theorem Ready.adds_full (h : Ready core kb nodes s) (hfull : kb.capacity ≤ kb.numNodes)
    (added : List Entry) :
    knowledgeAdds heap added s = some (List.replicate added.length .nomem, s) := by
  induction added with
  | nil => rfl
  | cons entry added ih =>
    simp [knowledgeAdds, h.machine_knowledge, knowledgeBaseAdd_full hfull, h.setKnowledge_self, ih,
      List.replicate_succ]

/-! ## Queries -/

/-- The loop finds the definition of the first node that answers. -/
theorem queryLoop_find {m : Memory} {ns : List Nat} (concept : CStr)
    (h : List.Forall₂ (fun n entry => n ≠ 0 ∧ NodeHolds m n entry) ns entries) :
    ∃ p, queryLoop m concept ns = some p ∧
      match entries.find? fun entry => entry.Answers concept with
      | none => p = 0
      | some entry => p ≠ 0 ∧ m.HasString p entry.definition.bytes := by
  induction h with
  | nil => exact ⟨0, rfl, rfl⟩
  | @cons n entry ns entries hnode _ ih =>
    obtain ⟨hne, hnode⟩ := hnode
    obtain ⟨order, hcmp, horder⟩ := strcasecmp_iff hnode.concept concept.nonzero
    rw [queryLoop, if_neg hne, hcmp]
    dsimp only
    by_cases heq : order = 0
    · have hanswers : entry.Answers concept := horder.mp heq
      have hfind : (entry :: entries).find? (fun entry => entry.Answers concept) = some entry :=
        List.find?_cons_of_pos (decide_eq_true hanswers)
      rw [if_pos heq, hfind]
      exact ⟨_, rfl, by rw [definitionOffset]; omega, hnode.definition⟩
    · have hanswers : ¬ entry.Answers concept := fun h => heq (horder.mpr h)
      have hfind : (entry :: entries).find? (fun entry => entry.Answers concept) =
          entries.find? fun entry => entry.Answers concept :=
        List.find?_cons_of_neg fun h => hanswers (of_decide_eq_true h)
      rw [if_neg heq, hfind]
      exact ih

theorem Stored.forall₂ (h : Stored heap first entries core kb nodes s) (hheap : heap.Works first) :
    List.Forall₂ (fun n entry => n ≠ 0 ∧ NodeHolds s.mem n entry)
      ((List.range kb.numNodes).map nodes) entries := by
  have hlen : ((List.range kb.numNodes).map nodes).length = entries.length := by
    rw [List.length_map, List.length_range, h.count]
  refine List.forall₂_iff_get.mpr ⟨hlen, fun i hi hi' => ?_⟩
  rw [List.get_eq_getElem, List.get_eq_getElem, List.getElem_map, List.getElem_range]
  refine ⟨?_, h.holds i _ (List.getElem?_eq_getElem hi')⟩
  rw [h.block i hi']
  exact hheap.nonzero _

theorem Stored.query (h : Stored heap first entries core kb nodes s) (hheap : heap.Works first)
    (concept : CStr) :
    ∃ p, jarvisQueryKnowledge concept s = some p ∧
      match entries.find? fun entry => entry.Answers concept with
      | none => p = 0
      | some entry => p ≠ 0 ∧ s.mem.HasString p entry.definition.bytes := by
  have hquery : jarvisQueryKnowledge concept s =
      queryLoop s.mem concept ((List.range kb.numNodes).map nodes) := by
    simp [jarvisQueryKnowledge, h.ready.machine_knowledge, h.ready.nodes]
  rw [hquery]
  exact queryLoop_find concept (h.forall₂ hheap)

end

/-- **What a query finds.** After any additions to the knowledge base of a new instance, the
first hundred of them stored and the others refused, a query returns the whole definition of
the first entry that answers it, and NULL if there is none. -/
theorem jarvis_query_after_adds (heap : Heap) (s : Machine) (adds : List Entry) (concept : CStr)
    (hnew : s.jarvisInstance = none) (hheap : heap.Works (s.allocs + 200))
    (hshort : ∀ entry ∈ adds, entry.Short) :
    ∃ s₀ s' p, jarvisCoreInit heap s = some (.ok, s₀) ∧
      knowledgeAdds heap adds s₀ = some (List.replicate (min 100 adds.length) .ok ++
        List.replicate (adds.length - 100) .nomem, s') ∧
      knowledgeAdds heap (adds.take 100) s₀ =
        some (List.replicate (min 100 adds.length) .ok, s') ∧
      jarvisQueryKnowledge concept s' = some p ∧
      match (adds.take 100).find? fun entry => entry.Answers concept with
      | none => p = 0
      | some entry => p ≠ 0 ∧ s'.mem.HasString p entry.definition.bytes := by
  obtain ⟨core, words, s₀, hinit, hready, hallocs⟩ :=
    jarvisCoreInit_ready heap hnew fun i _ => hheap.nonzero _
  rw [← hallocs] at hheap
  have htake : (adds.take 100).length = min 100 adds.length := List.length_take
  obtain ⟨core', kb, nodes, s', hrun, hcap, hstored⟩ := (Stored.nil hready).adds
    (adds.take 100) (by rw [htake, List.length_nil]; dsimp only; omega) hheap
    (fun e he => absurd he List.not_mem_nil) fun e he => hshort e (List.mem_of_mem_take he)
  rw [htake] at hrun
  rw [List.nil_append] at hstored
  obtain ⟨p, hquery, hfound⟩ := hstored.query hheap concept
  refine ⟨s₀, s', p, hinit, ?_, hrun, hquery, hfound⟩
  -- what comes after the first hundred meets a full knowledge base
  have hrest : knowledgeAdds heap (adds.drop 100) s' =
      some (List.replicate (adds.length - 100) .nomem, s') := by
    by_cases hmore : adds.length ≤ 100
    · rw [List.drop_of_length_le hmore, Nat.sub_eq_zero_of_le hmore]
      rfl
    · have hfull : kb.capacity ≤ kb.numNodes := by
        rw [hcap, hstored.count, htake]
        dsimp only
        omega
      rw [hstored.ready.adds_full hfull, List.length_drop]
  calc knowledgeAdds heap adds s₀
      = knowledgeAdds heap (adds.take 100 ++ adds.drop 100) s₀ := by rw [List.take_append_drop]
    _ = _ := by rw [knowledgeAdds_append, hrun]; dsimp only; rw [hrest]

def okEntry : Entry := ⟨⟨[ch 'O', ch 'k'], by decide⟩, ⟨[ch 'y'], by decide⟩, 0⟩

def otherOkEntry : Entry := ⟨⟨[ch 'O', ch 'K'], by decide⟩, ⟨[ch 'n'], by decide⟩, 0⟩

/-- Two entries whose concepts differ in the case of a letter. -/
theorem jarvis_query_after_adds_twice :
    ∃ s₀ s' p, jarvisCoreInit ⟨fun k => 2048 * (k + 1), fun _ _ => 0⟩
        (Machine.start ⟨fun _ => 0xFF, []⟩) = some (.ok, s₀) ∧
      knowledgeAdds ⟨fun k => 2048 * (k + 1), fun _ _ => 0⟩ [okEntry, otherOkEntry] s₀ =
        some ([.ok, .ok], s') ∧
      jarvisQueryKnowledge ⟨[ch 'o', ch 'k'], by decide⟩ s' = some p ∧
      s'.mem.HasString p [ch 'y'] := by
  have hheap : Heap.Works ⟨fun k => 2048 * (k + 1), fun _ _ => 0⟩ 200 := by
    refine ⟨fun k => Nat.mul_ne_zero (by decide) (Nat.succ_ne_zero k), fun j k _ hjk => .inl ?_⟩
    have hlen : nodeSize = 1312 := rfl
    dsimp only
    omega
  have hshort : ∀ entry ∈ [okEntry, otherOkEntry], entry.Short := by
    simp [Entry.Short, okEntry, otherOkEntry]
  obtain ⟨s₀, s', p, hinit, hrun, -, hquery, hfound⟩ := jarvis_query_after_adds _
    (Machine.start ⟨fun _ => 0xFF, []⟩) [okEntry, otherOkEntry] ⟨[ch 'o', ch 'k'], by decide⟩ rfl
    hheap hshort
  exact ⟨s₀, s', p, hinit, hrun, hquery, hfound.2⟩

end JarJar.Jarvis
