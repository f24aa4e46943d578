import JarJar.JarvisCore
import JarJar.Lib.Runs

/- `jarvis_core_init` and `knowledge_base_add` when `kmalloc` fails. The first allocation of
   `jarvis_core_init` is tested, and so are those of the network and of the knowledge base;
   what they return is not, nor are the arrays and the nodes. The instance is there as soon
   as the first allocation has succeeded.

   What is proved (`jarvis_alloc_iff`): a run of calls of `jarvis_core_init` and then of
   `knowledge_base_add` does what the results promise, whatever `kmalloc` does, exactly when
   the first call that gets its instance gets everything else as well, 200 blocks, and so
   does every `knowledge_base_add` after it until the knowledge base is full. -/
namespace JarJar.Jarvis
open Libc Runs

/-! ## What has to be allocated -/

def Neuron.Allocated (prev : Option Nat) (neuron : Neuron) : Prop :=
  ∀ size, prev = some size → ∃ weights, weights ≠ 0 ∧ neuron.weights = some (size, weights)

def NeuralLayer.Allocated (prev : Option Nat) (layer : NeuralLayer) : Prop :=
  ∃ list, layer.neurons = some list ∧ list.length = layer.numNeurons ∧
    ∀ neuron ∈ list, neuron.Allocated prev

/-- Every layer has its neurons, and those below another layer their weights. -/
def LayersAllocated : Option Nat → List NeuralLayer → Prop
  | _, [] => True
  | prev, layer :: layers => layer.Allocated prev ∧ LayersAllocated (some layer.numNeurons) layers

def NeuralNetwork.Allocated (net : NeuralNetwork) : Prop :=
  ∃ list, net.layers = some list ∧ list.length = net.numLayers ∧ LayersAllocated none list

/-- The instance has a network and a knowledge base with all they point to. -/
def JarvisCore.Allocated (core : JarvisCore) : Prop :=
  (∃ net, core.nlpNetwork = some net ∧ net.Allocated) ∧
    ∃ kb, core.knowledge = some kb ∧ kb.nodes.isSome

/-- `n` calls of `kmalloc` from call `a` on succeed. -/
def Heap.Grants (heap : Heap) (a n : Nat) : Prop := ∀ i < n, heap.block (a + i) ≠ 0

/-! ## Runs -/

/-- What may be added: a concept, its definition and how sure it is. -/
structure Entry where
  concept : CStr
  definition : CStr
  conf : U32

inductive Op where
  | init
  | add (entry : Entry)

section Definitions
variable (heap : Heap)

/-- One call; there is none of `knowledge_base_add` without a knowledge base. -/
def next (s : Machine) : Op → Option Machine
  | .init => (jarvisCoreInit heap s).map Prod.snd
  | .add entry =>
    match s.knowledge with
    | none => some s
    | some kb =>
      match knowledgeBaseAdd heap kb entry.concept entry.definition entry.conf s with
      | none => none
      | some (_, kb, s) => some (s.setKnowledge kb)

def step (s : Option Machine) (op : Op) : Option Machine := s.bind fun s => next heap s op

/-- A call goes through no NULL and its result is right: `JAR_OK` of `jarvis_core_init` means
that all is there and `JAR_NOMEM` that nothing is, and `knowledge_base_add` says `JAR_NOMEM`
and changes nothing if `kmalloc` fails. -/
def Honest (s : Machine) : Op → Prop
  | .init => ∃ r s', jarvisCoreInit heap s = some (r, s') ∧
      ((r = .ok ∧ ∃ core, s'.jarvisInstance = some core ∧ core.Allocated) ∨
        (r = .nomem ∧ s'.jarvisInstance = none))
  | .add entry => ∀ kb, s.knowledge = some kb → ∃ r kb' s',
      knowledgeBaseAdd heap kb entry.concept entry.definition entry.conf s = some (r, kb', s') ∧
        (heap.block s.allocs = 0 → r = .nomem ∧ kb' = kb ∧ s'.mem = s.mem)

/-- Every call of a run is like that, up to one that goes through NULL. -/
def HonestRun (s : Machine) (ops : List Op) : Prop :=
  Each (step heap) (fun s op => ∀ t, s = some t → Honest heap t op) (some s) ops

/-- The statics as they are at the start. -/
def Machine.start (mem : Memory) : Machine := ⟨mem, 0, 12345, none⟩

end Definitions

/-! ## The network -/

section
variable {heap : Heap} {a m n : Nat}

theorem Heap.grants_add : heap.Grants a (m + n) ↔ heap.Grants a m ∧ heap.Grants (a + m) n := by
  refine ⟨fun h => ⟨fun i hi => h i (by omega), fun i hi => ?_⟩, fun ⟨h₁, h₂⟩ i hi => ?_⟩
  · rw [Nat.add_assoc]
    exact h (m + i) (by omega)
  · by_cases him : i < m
    · exact h₁ i him
    · have hrest := h₂ (i - m) (by omega)
      rwa [Nat.add_assoc, Nat.add_sub_cancel' (by omega)] at hrest

theorem Heap.grants_one : heap.Grants a 1 ↔ heap.block a ≠ 0 :=
  ⟨fun h => h 0 Nat.zero_lt_one, fun h i hi => by rwa [Nat.lt_one_iff.mp hi]⟩

theorem Heap.grants_succ : heap.Grants a (n + 1) ↔ heap.block a ≠ 0 ∧ heap.Grants (a + 1) n := by
  rw [Nat.add_comm, grants_add, grants_one]

theorem Heap.grants_two : heap.Grants a 2 ↔ heap.block a ≠ 0 ∧ heap.block (a + 1) ≠ 0 := by
  rw [grants_succ, grants_one]

theorem Heap.grants_zero : heap.Grants a 0 := fun _ hi => absurd hi (Nat.not_lt_zero _)

/-- The calls for the weights of a layer of `n` neurons. -/
def weightCalls (prev : Option Nat) (n : Nat) : Nat := if prev.isSome then n else 0

def layerCalls : Option Nat → List Nat → Nat
  | _, [] => 0
  | prev, size :: sizes => (1 + weightCalls prev size) + layerCalls (some size) sizes

variable {prev : Option Nat} {sizes : List Nat} {s s' : Machine}

theorem fillNeurons_spec (heap : Heap) (prev : Option Nat) (n : Nat) (s : Machine) :
    (fillNeurons heap prev n s).1.length = n ∧
    (fillNeurons heap prev n s).2.allocs = s.allocs + weightCalls prev n ∧
    (fillNeurons heap prev n s).2.jarvisInstance = s.jarvisInstance ∧
    ((∀ neuron ∈ (fillNeurons heap prev n s).1, neuron.Allocated prev) ↔
      heap.Grants s.allocs (weightCalls prev n)) := by
  induction n generalizing s with
  | zero =>
    refine ⟨rfl, by simp [fillNeurons, weightCalls], rfl, iff_of_true ?_ ?_⟩
    · exact fun _ h => absurd h List.not_mem_nil
    · simp [weightCalls, Heap.Grants]
  | succ n ih =>
    have hallocs₀ := randomFloat_allocs s
    have hinst₀ := randomFloat_instance s
    rw [fillNeurons]
    generalize randomFloat s = drawn at hallocs₀ hinst₀
    rw [← hallocs₀, ← hinst₀]
    cases prev with
    | none =>
      obtain ⟨hlen, hallocs, hinst, -⟩ := ih drawn.2
      refine ⟨congrArg (· + 1) hlen, hallocs, hinst, iff_of_true ?_ Heap.grants_zero⟩
      intro _ _ _ h
      cases h
    | some size =>
      obtain ⟨hlen, hallocs, hinst, hiff⟩ := ih (kmalloc heap drawn.2).2
      have hweights : Neuron.Allocated (some size)
          ⟨drawn.1, some (size, heap.block drawn.2.allocs)⟩ ↔ heap.block drawn.2.allocs ≠ 0 := by
        simp [Neuron.Allocated]
      refine ⟨congrArg (· + 1) hlen, ?_, hinst, ?_⟩
      · exact hallocs.trans (by simp [weightCalls]; omega)
      · exact List.forall_mem_cons.trans ((and_congr hweights hiff).trans Heap.grants_succ.symm)

theorem fillLayers_some {layers : List NeuralLayer}
    (h : fillLayers heap prev sizes s = some (layers, s')) :
    layers.length = sizes.length ∧ s'.allocs = s.allocs + layerCalls prev sizes ∧
    s'.jarvisInstance = s.jarvisInstance ∧
    (LayersAllocated prev layers ↔ heap.Grants s.allocs (layerCalls prev sizes)) := by
  induction sizes generalizing prev s layers with
  | nil =>
    cases h
    exact ⟨rfl, rfl, rfl, iff_of_true trivial Heap.grants_zero⟩
  | cons size sizes ih =>
    rw [fillLayers] at h
    obtain ⟨hlen, hallocs, hinst, hiff⟩ := fillNeurons_spec heap prev size (kmalloc heap s).2
    dsimp only at h
    split at h
    · cases h
    · cases hrest : fillLayers heap (some size) sizes
        (fillNeurons heap prev size (kmalloc heap s).2).2 with
      | none => rw [hrest] at h; cases h
      | some r =>
        obtain ⟨rest, s₁⟩ := r
        rw [hrest] at h
        cases h
        obtain ⟨hlen', hallocs', hinst', hiff'⟩ := ih hrest
        rw [hallocs, kmalloc_allocs] at hallocs' hiff'
        rw [kmalloc_allocs] at hiff
        refine ⟨congrArg (· + 1) hlen', ?_, hinst'.trans hinst, ?_⟩
        · rw [hallocs', layerCalls]
          omega
        · rw [LayersAllocated, layerCalls, Heap.grants_add, Heap.grants_add, Heap.grants_one,
            hiff', Nat.add_assoc, ← hiff]
          simp [NeuralLayer.Allocated, hlen]

theorem fillLayers_grants (h : heap.Grants s.allocs (layerCalls prev sizes)) :
    ∃ layers s', fillLayers heap prev sizes s = some (layers, s') := by
  induction sizes generalizing prev s with
  | nil => exact ⟨[], s, rfl⟩
  | cons size sizes ih =>
    rw [layerCalls, Heap.grants_add, Heap.grants_add, Heap.grants_one] at h
    obtain ⟨⟨hne, -⟩, hrest⟩ := h
    obtain ⟨-, hallocs, -⟩ := fillNeurons_spec heap prev size (kmalloc heap s).2
    have hnext : (fillNeurons heap prev size (kmalloc heap s).2).2.allocs =
        s.allocs + (1 + weightCalls prev size) := hallocs.trans (Nat.add_assoc _ _ _)
    rw [← hnext] at hrest
    obtain ⟨rest, s', heq⟩ := ih hrest
    rw [fillLayers]
    dsimp only
    rw [if_neg fun h => hne h.1, heq]
    exact ⟨_, s', rfl⟩

/-- The calls for a whole network. -/
def networkCalls (sizes : List Nat) : Nat := 1 + (1 + layerCalls none sizes)

theorem neuralNetworkCreate_some {net : Option NeuralNetwork}
    (h : neuralNetworkCreate heap sizes s = some (net, s')) :
    s'.jarvisInstance = s.jarvisInstance ∧
    ((∃ n, net = some n ∧ n.Allocated) ↔ heap.Grants s.allocs (networkCalls sizes)) ∧
    (heap.Grants s.allocs (networkCalls sizes) → s'.allocs = s.allocs + networkCalls sizes) := by
  rw [networkCalls, Heap.grants_add, Heap.grants_one, Heap.grants_add, Heap.grants_one]
  rw [neuralNetworkCreate] at h
  dsimp only at h
  split at h
  · next hnull =>
    cases h
    refine ⟨rfl, iff_of_false ?_ fun h => h.1 hnull, fun h => absurd hnull h.1⟩
    rintro ⟨n, heq, -⟩
    cases heq
  · next hne =>
    split at h
    · cases h
    · cases hfill : fillLayers heap none sizes (kmalloc heap (kmalloc heap s).2).2 with
      | none => rw [hfill] at h; cases h
      | some r =>
        obtain ⟨list, s₁⟩ := r
        rw [hfill] at h
        cases h
        obtain ⟨hlen, hallocs, hinst, hiff⟩ := fillLayers_some hfill
        rw [kmalloc_fst] at hne
        refine ⟨hinst, ?_, fun _ => hallocs.trans (by simp; omega)⟩
        simp [NeuralNetwork.Allocated, hlen, hiff, hne]

theorem neuralNetworkCreate_grants (h : heap.Grants s.allocs (networkCalls sizes)) :
    ∃ net s', neuralNetworkCreate heap sizes s = some (net, s') := by
  rw [networkCalls, Heap.grants_add, Heap.grants_one, Heap.grants_add, Heap.grants_one] at h
  obtain ⟨hne, hlayers, hall⟩ := h
  obtain ⟨list, s', hfill⟩ := fillLayers_grants (s := (kmalloc heap (kmalloc heap s).2).2) hall
  simp [neuralNetworkCreate, hne, hlayers, hfill]

end

/-! ## The instance -/

section
variable {heap : Heap} {s s' : Machine} {n : Nat}

/-- An instance with a network and a knowledge base that are all there. -/
structure Ready (core : JarvisCore) (kb : KnowledgeBase) (nodes : Nat → Nat) (s : Machine) :
    Prop where
  jarvisInstance : s.jarvisInstance = some core
  network : ∃ net, core.nlpNetwork = some net ∧ net.Allocated
  knowledge : core.knowledge = some kb
  nodes : kb.nodes = some nodes

theorem knowledgeBaseCreate_instance (s : Machine) :
    (knowledgeBaseCreate heap s).2.jarvisInstance = s.jarvisInstance := by
  rw [knowledgeBaseCreate]
  dsimp only
  split <;> rfl

theorem knowledgeBaseCreate_iff (s : Machine) :
    (∃ kb, (knowledgeBaseCreate heap s).1 = some kb ∧ kb.nodes.isSome) ↔
      heap.Grants s.allocs 2 := by
  rw [Heap.grants_two]
  by_cases hkb : heap.block s.allocs = 0
  · simp [knowledgeBaseCreate, hkb]
  · simp [knowledgeBaseCreate, hkb]

theorem knowledgeBaseCreate_grants (h : heap.Grants s.allocs 2) :
    ∃ words, knowledgeBaseCreate heap s =
      (some ⟨some words, 0, 100⟩, { s with allocs := s.allocs + 2 }) := by
  obtain ⟨hkb, hnodes⟩ := Heap.grants_two.mp h
  refine ⟨heap.words (s.allocs + 1), ?_⟩
  simp [knowledgeBaseCreate, kmalloc, pointed, hkb, hnodes]

theorem jarvisCoreInit_again (heap : Heap) {core : JarvisCore} (h : s.jarvisInstance = some core) :
    jarvisCoreInit heap s = some (.ok, s) := by
  rw [jarvisCoreInit, h]

/-- The machine with the new instance, before anything is put into it. -/
def published (s : Machine) : Machine :=
  { s with allocs := s.allocs + 1, jarvisInstance := some ⟨.init, none, none⟩ }

def Machine.setNetwork (net : Option NeuralNetwork) : Machine → Machine :=
  Machine.setInstance fun core => { core with nlpNetwork := net }

/-- The machine with a knowledge base in the instance, if there is one. -/
def completed (heap : Heap) (s : Machine) : Machine :=
  (knowledgeBaseCreate heap s).2.setInstance fun core =>
    { core with knowledge := (knowledgeBaseCreate heap s).1 }

theorem jarvisCoreInit_new (heap : Heap) (h : s.jarvisInstance = none) :
    jarvisCoreInit heap s =
      if heap.block s.allocs = 0 then some (.nomem, { s with allocs := s.allocs + 1 })
      else
        match neuralNetworkCreate heap [64, 128, 64] (published s) with
        | none => none
        | some (net, t) => some (.ok, completed heap (t.setNetwork net)) := by
  unfold jarvisCoreInit
  split
  · next hcore =>
    rw [h] at hcore
    cases hcore
  · rfl

theorem jarvisCoreInit_nomem (h : s.jarvisInstance = none) (hnull : heap.block s.allocs = 0) :
    jarvisCoreInit heap s = some (.nomem, { s with allocs := s.allocs + 1 }) := by
  rw [jarvisCoreInit_new heap h, if_pos hnull]

theorem jarvisCoreInit_none (h : s.jarvisInstance = none) (hne : heap.block s.allocs ≠ 0)
    (hnet : neuralNetworkCreate heap [64, 128, 64] (published s) = none) :
    jarvisCoreInit heap s = none := by
  rw [jarvisCoreInit_new heap h, if_neg hne, hnet]

theorem jarvisCoreInit_some {net : Option NeuralNetwork} {t : Machine}
    (h : s.jarvisInstance = none) (hne : heap.block s.allocs ≠ 0)
    (hnet : neuralNetworkCreate heap [64, 128, 64] (published s) = some (net, t)) :
    ∃ u s', u.allocs = t.allocs ∧ jarvisCoreInit heap s = some (.ok, s') ∧
      s'.jarvisInstance = some ⟨.init, net, (knowledgeBaseCreate heap u).1⟩ ∧
      s'.allocs = (knowledgeBaseCreate heap u).2.allocs := by
  have hinst : t.jarvisInstance = some ⟨.init, none, none⟩ := (neuralNetworkCreate_some hnet).1
  refine ⟨t.setNetwork net, completed heap (t.setNetwork net), rfl, ?_, ?_, rfl⟩
  · rw [jarvisCoreInit_new heap h, if_neg hne, hnet]
  · rw [completed, Machine.setInstance, knowledgeBaseCreate_instance, Machine.setNetwork,
      Machine.setInstance, hinst, Option.map_some, Option.map_some]

theorem grants_init {a : Nat} : heap.Grants a 200 ↔ heap.block a ≠ 0 ∧
    heap.Grants (a + 1) (networkCalls [64, 128, 64]) ∧
    heap.Grants (a + 1 + networkCalls [64, 128, 64]) 2 := by
  rw [← Heap.grants_add, ← Heap.grants_succ]
  rfl

theorem jarvisCoreInit_ready (heap : Heap) (h : s.jarvisInstance = none)
    (hgrants : heap.Grants s.allocs 200) :
    ∃ core words s', jarvisCoreInit heap s = some (.ok, s') ∧
      Ready core ⟨some words, 0, 100⟩ words s' ∧ s'.allocs = s.allocs + 200 := by
  obtain ⟨hne, hnet, hkb⟩ := grants_init.mp hgrants
  obtain ⟨net, t, hcreate⟩ := neuralNetworkCreate_grants (s := published s) hnet
  obtain ⟨-, hiff, hallocs⟩ := neuralNetworkCreate_some hcreate
  obtain ⟨n, rfl, hn⟩ := hiff.mpr hnet
  obtain ⟨u, s', hu, hinit, hinst, hallocs'⟩ := jarvisCoreInit_some h hne hcreate
  have hstart : u.allocs = s.allocs + 1 + networkCalls [64, 128, 64] := hu.trans (hallocs hnet)
  obtain ⟨words, hwords⟩ := knowledgeBaseCreate_grants (s := u) (hstart ▸ hkb)
  rw [hwords] at hinst hallocs'
  refine ⟨_, words, s', hinit, ⟨hinst, ⟨n, rfl, hn⟩, rfl, rfl⟩, ?_⟩
  calc s'.allocs = u.allocs + 2 := hallocs'
    _ = s.allocs + 200 := by rw [hstart]; rfl

/-- A call that gets its instance but not everything else says that it has. -/
theorem not_honest_init (h : s.jarvisInstance = none) (hne : heap.block s.allocs ≠ 0)
    (hgrants : ¬ heap.Grants s.allocs 200) : ¬ Honest heap s .init := by
  rintro ⟨r, t, hinit, hresult⟩
  cases hcreate : neuralNetworkCreate heap [64, 128, 64] (published s) with
  | none =>
    rw [jarvisCoreInit_none h hne hcreate] at hinit
    cases hinit
  | some made =>
    obtain ⟨net, t'⟩ := made
    obtain ⟨-, hiff, hallocs⟩ := neuralNetworkCreate_some hcreate
    obtain ⟨u, s', hu, hinit', hinst, -⟩ := jarvisCoreInit_some h hne hcreate
    rw [hinit'] at hinit
    cases hinit
    obtain ⟨-, core, hcore, hnet, hkb⟩ | ⟨heq, -⟩ := hresult
    · rw [hinst] at hcore
      cases hcore
      have hgrants₁ := hiff.mp hnet
      have hgrants₂ := (knowledgeBaseCreate_iff u).mp hkb
      rw [hu, hallocs hgrants₁] at hgrants₂
      exact hgrants (grants_init.mpr ⟨hne, hgrants₁, hgrants₂⟩)
    · cases heq

end

/-! ## The knowledge base -/

section
variable {heap : Heap} {s : Machine} {core : JarvisCore} {kb : KnowledgeBase} {nodes : Nat → Nat}
  {concept definition : CStr} {conf : U32}

theorem knowledgeBaseAdd_full (h : kb.capacity ≤ kb.numNodes) :
    knowledgeBaseAdd heap kb concept definition conf s = some (.nomem, kb, s) := if_pos h

theorem knowledgeBaseAdd_null (h : kb.numNodes < kb.capacity) (hnull : heap.block s.allocs = 0) :
    knowledgeBaseAdd heap kb concept definition conf s = none := by
  rw [knowledgeBaseAdd, if_neg (Nat.not_le.mpr h)]
  exact if_pos hnull

/-- The memory after a new node at `n` was filled. -/
def nodeStored (n : Nat) (concept definition : CStr) (conf : U32) (m : Memory) : Memory :=
  storeFloat (strncpy (n + definitionOffset) definition 255
    (strncpy (n + conceptOffset) concept 63 m)) (n + confidenceOffset) conf

/-- The knowledge base with a new node at `n`. -/
def KnowledgeBase.push (kb : KnowledgeBase) (nodes : Nat → Nat) (n : Nat) : KnowledgeBase :=
  ⟨some (Function.update nodes kb.numNodes n), kb.numNodes + 1, kb.capacity⟩

theorem knowledgeBaseAdd_ok (h : kb.numNodes < kb.capacity) (hne : heap.block s.allocs ≠ 0)
    (hnodes : kb.nodes = some nodes) :
    knowledgeBaseAdd heap kb concept definition conf s =
      some (.ok, kb.push nodes (heap.block s.allocs), { s with
        mem := nodeStored (heap.block s.allocs) concept definition conf s.mem
        allocs := s.allocs + 1 }) := by
  rw [knowledgeBaseAdd, if_neg (Nat.not_le.mpr h)]
  dsimp only [kmalloc]
  rw [if_neg hne, hnodes]
  rfl

namespace Ready

theorem machine_knowledge (h : Ready core kb nodes s) : s.knowledge = some kb := by
  rw [Machine.knowledge, h.jarvisInstance, Option.bind_some, h.knowledge]

theorem setKnowledge_self (h : Ready core kb nodes s) : s.setKnowledge kb = s := by
  obtain ⟨mem, allocs, seed, inst⟩ := s
  obtain ⟨state, net, knowledge⟩ := core
  obtain ⟨rfl, -, rfl, -⟩ := h
  rfl

theorem setKnowledge (h : Ready core kb nodes s) {kb' : KnowledgeBase} {nodes' : Nat → Nat}
    (hnodes : kb'.nodes = some nodes') (mem : Memory) (allocs : Nat) :
    Ready { core with knowledge := some kb' } kb' nodes'
      ({ s with mem, allocs }.setKnowledge kb') := by
  refine ⟨?_, h.network, rfl, hnodes⟩
  rw [Machine.setKnowledge, Machine.setInstance, h.jarvisInstance]
  rfl

theorem init (heap : Heap) (h : Ready core kb nodes s) :
    Honest heap s .init ∧ next heap s .init = some s := by
  have hagain := jarvisCoreInit_again heap h.jarvisInstance
  refine ⟨⟨.ok, s, hagain, .inl ⟨rfl, core, h.jarvisInstance, h.network, kb, h.knowledge, ?_⟩⟩, ?_⟩
  · rw [h.nodes]
    rfl
  · rw [next, hagain]
    rfl

theorem add_full (heap : Heap) (entry : Entry) (h : Ready core kb nodes s)
    (hfull : kb.capacity ≤ kb.numNodes) :
    Honest heap s (.add entry) ∧ next heap s (.add entry) = some s := by
  refine ⟨fun kb' hkb' => ?_, ?_⟩
  · obtain rfl : kb = kb' := Option.some.inj (h.machine_knowledge.symm.trans hkb')
    exact ⟨.nomem, kb, s, knowledgeBaseAdd_full hfull, fun _ => ⟨rfl, rfl, rfl⟩⟩
  · rw [next, h.machine_knowledge]
    dsimp only
    rw [knowledgeBaseAdd_full hfull]
    exact congrArg some h.setKnowledge_self

theorem add_null (entry : Entry) (h : Ready core kb nodes s)
    (hroom : kb.numNodes < kb.capacity) (hnull : heap.block s.allocs = 0) :
    ¬ Honest heap s (.add entry) := by
  intro hhonest
  obtain ⟨r, kb', s', hadd, -⟩ := hhonest kb h.machine_knowledge
  rw [knowledgeBaseAdd_null hroom hnull] at hadd
  cases hadd

theorem add_ok (entry : Entry) (h : Ready core kb nodes s)
    (hroom : kb.numNodes < kb.capacity) (hne : heap.block s.allocs ≠ 0) :
    Honest heap s (.add entry) ∧
      ∃ core' nodes' s', next heap s (.add entry) = some s' ∧
        Ready core' (kb.push nodes (heap.block s.allocs)) nodes' s' ∧
        s'.allocs = s.allocs + 1 := by
  refine ⟨fun kb' hkb' => ?_, _, _, _, ?_, h.setKnowledge rfl
    (nodeStored (heap.block s.allocs) entry.concept entry.definition entry.conf s.mem)
    (s.allocs + 1), rfl⟩
  · obtain rfl : kb = kb' := Option.some.inj (h.machine_knowledge.symm.trans hkb')
    exact ⟨_, _, _, knowledgeBaseAdd_ok hroom hne h.nodes, fun hnull => absurd hnull hne⟩
  · rw [next, h.machine_knowledge]
    dsimp only
    rw [knowledgeBaseAdd_ok hroom hne h.nodes]

end Ready

/-! ## Runs -/

variable {ops : List Op}

theorem honestRun_cons {op : Op} {s' : Machine} (h : next heap s op = some s') :
    HonestRun heap s (op :: ops) ↔ Honest heap s op ∧ HonestRun heap s' ops := by
  rw [HonestRun, Each, step, Option.bind_some, h]
  exact and_congr_left fun _ => ⟨fun hall => hall s rfl, fun hop t ht => Option.some.inj ht ▸ hop⟩

theorem not_honestRun_cons {op : Op} (h : ¬ Honest heap s op) : ¬ HonestRun heap s (op :: ops) :=
  fun hrun => h (hrun.1 s rfl)

theorem honestRun_no_instance (h : s.jarvisInstance = none) (adds : List Entry) :
    HonestRun heap s (adds.map Op.add) := by
  have hnone : s.knowledge = none := by rw [Machine.knowledge, h]; rfl
  induction adds with
  | nil => trivial
  | cons entry adds ih =>
    have hnext : next heap s (.add entry) = some s := by rw [next, hnone]
    rw [List.map_cons, honestRun_cons hnext]
    exact ⟨fun kb hkb => absurd (hnone.symm.trans hkb) (Option.some_ne_none kb).symm, ih⟩

/-- Once there is an instance the other calls of `jarvis_core_init` do nothing. -/
theorem Ready.honestRun_inits (h : Ready core kb nodes s) (m : Nat) :
    HonestRun heap s (List.replicate m .init ++ ops) ↔ HonestRun heap s ops := by
  induction m with
  | zero => rfl
  | succ m ih =>
    rw [List.replicate_succ, List.cons_append, honestRun_cons (h.init heap).2, ih]
    exact and_iff_right (h.init heap).1

theorem Ready.honestRun_adds (h : Ready core kb nodes s) (adds : List Entry) :
    HonestRun heap s (adds.map Op.add) ↔
      heap.Grants s.allocs (min adds.length (kb.capacity - kb.numNodes)) := by
  induction adds generalizing core kb nodes s with
  | nil =>
    rw [List.length_nil, Nat.zero_min]
    exact iff_of_true trivial Heap.grants_zero
  | cons entry adds ih =>
    rw [List.map_cons]
    by_cases hroom : kb.numNodes < kb.capacity
    · have hcount : min (adds.length + 1) (kb.capacity - kb.numNodes) =
          min adds.length (kb.capacity - (kb.numNodes + 1)) + 1 := by omega
      rw [List.length_cons, hcount, Heap.grants_succ]
      by_cases hne : heap.block s.allocs = 0
      · exact iff_of_false (not_honestRun_cons (h.add_null entry hroom hne)) fun hall => hall.1 hne
      · obtain ⟨hhonest, core', nodes', s', hnext, hready, hallocs⟩ := h.add_ok entry hroom hne
        rw [honestRun_cons hnext, ih hready, hallocs]
        exact and_congr_left fun _ => iff_of_true hhonest hne
    · have hfull : kb.capacity ≤ kb.numNodes := Nat.not_lt.mp hroom
      obtain ⟨hhonest, hnext⟩ := h.add_full heap entry hfull
      rw [honestRun_cons hnext, ih h, Nat.sub_eq_zero_of_le hfull, Nat.min_zero, Nat.min_zero]
      exact and_iff_right hhonest

/-- The first of `m` calls of `kmalloc` that gets a block, from call `a` on, is the first of `n`
that do. -/
def Heap.FirstGets (heap : Heap) (a m n : Nat) : Prop :=
  ∀ j < m, (∀ i < j, heap.block (a + i) = 0) → heap.block (a + j) ≠ 0 → heap.Grants (a + j) n

theorem Heap.firstGets_null {a m n : Nat} (hnull : heap.block a = 0) :
    heap.FirstGets a (m + 1) n ↔ heap.FirstGets (a + 1) m n := by
  have hshift (j : Nat) : a + 1 + j = a + (j + 1) := by omega
  refine ⟨fun h j hj hbefore hne => ?_, fun h j hj hbefore hne => ?_⟩
  · rw [hshift] at hne ⊢
    apply h (j + 1) (Nat.succ_lt_succ hj) _ hne
    intro i hi
    cases i with
    | zero => exact hnull
    | succ i =>
      rw [← hshift]
      exact hbefore i (Nat.lt_of_succ_lt_succ hi)
  · cases j with
    | zero => exact absurd hnull hne
    | succ j =>
      rw [← hshift] at hne ⊢
      apply h j (Nat.lt_of_succ_lt_succ hj) _ hne
      intro i hi
      rw [hshift]
      exact hbefore (i + 1) (Nat.succ_lt_succ hi)

theorem Heap.firstGets_block {a m n : Nat} (hne : heap.block a ≠ 0) :
    heap.FirstGets a (m + 1) n ↔ heap.Grants a n := by
  refine ⟨fun h => h 0 (Nat.succ_pos m) (fun _ hi => absurd hi (Nat.not_lt_zero _)) hne,
    fun hgrants j _ hbefore _ => ?_⟩
  cases j with
  | zero => exact hgrants
  | succ j => exact absurd (hbefore 0 (Nat.succ_pos j)) hne

/-- The first call that gets its instance, as far as there is one, gets everything. -/
theorem honestRun_inits (heap : Heap) (h : s.jarvisInstance = none) (m : Nat) (adds : List Entry) :
    HonestRun heap s (List.replicate m .init ++ adds.map Op.add) ↔
      heap.FirstGets s.allocs m (200 + min adds.length 100) := by
  induction m generalizing s with
  | zero =>
    exact iff_of_true (honestRun_no_instance h adds) fun j hj => absurd hj (Nat.not_lt_zero j)
  | succ m ih =>
    rw [List.replicate_succ, List.cons_append]
    by_cases hnull : heap.block s.allocs = 0
    · have hinit := jarvisCoreInit_nomem h hnull
      have hhonest : Honest heap s .init := ⟨_, _, hinit, .inr ⟨rfl, h⟩⟩
      have hnext : next heap s .init = some { s with allocs := s.allocs + 1 } := by
        rw [next, hinit, Option.map_some]
      have hrest : (Machine.mk s.mem (s.allocs + 1) s.seed s.jarvisInstance).jarvisInstance = none := h
      rw [honestRun_cons hnext, Heap.firstGets_null hnull, ih hrest]
      exact and_iff_right hhonest
    · rw [Heap.firstGets_block hnull, Heap.grants_add]
      by_cases hgrants : heap.Grants s.allocs 200
      · obtain ⟨core, words, s', hinit, hready, hallocs⟩ := jarvisCoreInit_ready heap h hgrants
        have hnext : next heap s .init = some s' := by rw [next, hinit, Option.map_some]
        have hhonest : Honest heap s .init := ⟨_, _, hinit, .inl ⟨rfl, core,
          hready.jarvisInstance, hready.network, _, hready.knowledge, rfl⟩⟩
        rw [honestRun_cons hnext, hready.honestRun_inits, hready.honestRun_adds, hallocs]
        exact and_congr_left fun _ => iff_of_true hhonest hgrants
      · apply iff_of_false (not_honestRun_cons (not_honest_init h hnull hgrants))
        exact fun hall => hgrants hall.1

end

/-- **When allocation failures are handled.** Every call of such a run is right exactly when
the first call of `jarvis_core_init` that gets its instance gets all of its 200 blocks, and
the additions that find room get theirs. -/
theorem jarvis_alloc_iff (heap : Heap) (mem : Memory) (m : Nat) (adds : List Entry) :
    HonestRun heap (Machine.start mem) (List.replicate m .init ++ adds.map Op.add) ↔
      ∀ j < m, (∀ i < j, heap.block i = 0) → heap.block j ≠ 0 →
        heap.Grants j (200 + min adds.length 100) := by
  have hnew : (Machine.start mem).jarvisInstance = none := rfl
  have h := honestRun_inits heap hnew m adds
  simp only [Machine.start, Heap.FirstGets, Nat.zero_add] at h
  exact h

/-- A heap that has no block for the network, but for everything else. -/
def noNetworkHeap : Heap := ⟨fun k => if k = 1 then 0 else 0x1000, fun _ _ => 0⟩

/-- On `noNetworkHeap` `jarvis_core_init` returns `JAR_OK` without a network. -/
theorem jarvisCoreInit_no_network :
    ¬ HonestRun noNetworkHeap (Machine.start ⟨fun _ => 0, []⟩) [.init] ∧
    ∃ s' core, jarvisCoreInit noNetworkHeap (Machine.start ⟨fun _ => 0, []⟩) = some (.ok, s') ∧
      s'.jarvisInstance = some core ∧ core.nlpNetwork.isNone := by
  refine ⟨not_honestRun_cons (not_honest_init rfl (by decide) fun h => ?_), _, _, rfl, rfl, rfl⟩
  exact h 1 (by decide) rfl

end JarJar.Jarvis
