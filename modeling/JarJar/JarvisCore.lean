import JarJar.Strings
import Mathlib.Logic.Function.Basic

/- The core of JARVIS: the instance with its neural network and its knowledge base, which
   `jarvis_core_init` allocates piece by piece.

   Correspondence (C ↔ Lean):
     `kmalloc`                       ↔ `kmalloc`, with a `Heap` for what the calls return
     the statics `jarvis_instance`, `seed`   ↔ `Machine.jarvisInstance`, `Machine.seed`
     `random_float`                  ↔ `randomFloat`, the thousandths before `- 0.5f`
     `neural_network_create`         ↔ `neuralNetworkCreate` (`fillLayers`, `fillNeurons`)
     `knowledge_base_create`, `knowledge_base_add` ↔ `knowledgeBaseCreate`, `knowledgeBaseAdd`
     `jarvis_core_init`              ↔ `jarvisCoreInit`
     `jarvis_query_knowledge`        ↔ `jarvisQueryKnowledge` (`queryLoop`), 0 for NULL
   A pointer to a record or an array is an `Option` of what it points to, `none` for NULL. The
   nodes of the knowledge base are addresses, with their strings in memory. A function is
   `none` when it accesses memory through NULL. The message on the console and fields nothing
   here reads are left out; what `memset` clears is the new instance. -/
namespace JarJar.Jarvis
open Libc

/-- What `kmalloc` returns, whatever size it is asked for: the address of the block for every
call, 0 for NULL, and the words that stand in it before anything is stored there. -/
structure Heap where
  block : Nat → Nat
  words : Nat → Nat → Nat

/-- `weights` is `none` where `num_weights` and `weights` are not set, in the first layer. -/
structure Neuron where
  bias : U32
  weights : Option (Nat × Nat)

structure NeuralLayer where
  numNeurons : Nat
  neurons : Option (List Neuron)

structure NeuralNetwork where
  numLayers : Nat
  layers : Option (List NeuralLayer)

structure KnowledgeBase where
  nodes : Option (Nat → Nat)
  numNodes : Nat
  capacity : Nat

inductive JarvisState where
  | init | learning | thinking | executing | sleeping | selfModifying | error
  deriving DecidableEq

structure JarvisCore where
  state : JarvisState
  nlpNetwork : Option NeuralNetwork
  knowledge : Option KnowledgeBase

structure Machine where
  mem : Memory
  allocs : Nat
  seed : U32
  jarvisInstance : Option JarvisCore

/-- Where the fields of a `knowledge_node_t` stand, and how long it is. -/
def conceptOffset : Nat := 0
def definitionOffset : Nat := 256
def confidenceOffset : Nat := 1280
def nodeSize : Nat := 1312

/-- `sizeof` the two strings of a `knowledge_node_t`. -/
def conceptSize : Nat := 256
def definitionSize : Nat := 1024

/-- `jarvis_instance->knowledge`, if there is one. -/
def Machine.knowledge (s : Machine) : Option KnowledgeBase :=
  s.jarvisInstance.bind JarvisCore.knowledge

def Machine.setInstance (f : JarvisCore → JarvisCore) (s : Machine) : Machine :=
  { s with jarvisInstance := s.jarvisInstance.map f }

/-- What stands in `*jarvis_instance->knowledge` after it was changed through a pointer. -/
def Machine.setKnowledge (kb : KnowledgeBase) : Machine → Machine :=
  Machine.setInstance fun core => { core with knowledge := some kb }

/-- A pointer from `kmalloc` to a block that `x` was stored in. -/
def pointed {α : Type} (p : Nat) (x : α) : Option α := if p = 0 then none else some x

@[simp] theorem pointed_eq_some {α : Type} {p : Nat} {x y : α} :
    pointed p x = some y ↔ p ≠ 0 ∧ x = y := by
  simp [pointed]

@[simp] theorem pointed_isSome {α : Type} {p : Nat} {x : α} :
    (pointed p x).isSome = true ↔ p ≠ 0 := by
  by_cases hp : p = 0 <;> simp [pointed, hp]

def Machine.setSeed (seed : U32) (s : Machine) : Machine := { s with seed }

/-- `seed = seed * 1103515245 + 12345`, and what it is modulo 1000. -/
def randomFloat (s : Machine) : U32 × Machine :=
  let seed := 12345 + 1103515245 * s.seed
  (seed % 1000, s.setSeed seed)

theorem randomFloat_allocs (s : Machine) : (randomFloat s).2.allocs = s.allocs := rfl

theorem randomFloat_instance (s : Machine) :
    (randomFloat s).2.jarvisInstance = s.jarvisInstance := rfl

section
variable (heap : Heap)

def kmalloc (s : Machine) : Nat × Machine := (heap.block s.allocs, { s with allocs := s.allocs + 1 })

@[simp] theorem kmalloc_fst (s : Machine) : (kmalloc heap s).1 = heap.block s.allocs := rfl

@[simp] theorem kmalloc_allocs (s : Machine) : (kmalloc heap s).2.allocs = s.allocs + 1 := rfl

@[simp] theorem kmalloc_instance (s : Machine) :
    (kmalloc heap s).2.jarvisInstance = s.jarvisInstance := rfl

/-- The neurons of one layer, with as many weights as the layer before has neurons, if there
is one. -/
def fillNeurons (prev : Option Nat) : Nat → Machine → List Neuron × Machine
  | 0, s => ([], s)
  | n + 1, s =>
    let (bias, s) := randomFloat s
    match prev with
    | none =>
      let (rest, s) := fillNeurons prev n s
      (⟨bias, none⟩ :: rest, s)
    | some size =>
      let (weights, s) := kmalloc heap s
      let (rest, s) := fillNeurons prev n s
      (⟨bias, some (size, weights)⟩ :: rest, s)

def fillLayers (prev : Option Nat) : List Nat → Machine → Option (List NeuralLayer × Machine)
  | [], s => some ([], s)
  | size :: sizes, s =>
    let (neurons, s) := kmalloc heap s
    -- the first neuron gets its bias
    if neurons = 0 ∧ size ≠ 0 then none
    else
      let (list, s) := fillNeurons heap prev size s
      match fillLayers (some size) sizes s with
      | none => none
      | some (layers, s) => some (⟨size, pointed neurons list⟩ :: layers, s)

def neuralNetworkCreate (layerSizes : List Nat) (s : Machine) :
    Option (Option NeuralNetwork × Machine) :=
  let (net, s) := kmalloc heap s
  if net = 0 then some (none, s)
  else
    let (layers, s) := kmalloc heap s
    if layers = 0 ∧ layerSizes ≠ [] then none
    else
      match fillLayers heap none layerSizes s with
      | none => none
      | some (list, s) => some (some ⟨layerSizes.length, pointed layers list⟩, s)

def knowledgeBaseCreate (s : Machine) : Option KnowledgeBase × Machine :=
  let (kb, s) := kmalloc heap s
  if kb = 0 then (none, s)
  else
    let words := heap.words s.allocs
    let (nodes, s) := kmalloc heap s
    (some ⟨pointed nodes words, 0, 100⟩, s)

def jarvisCoreInit (s : Machine) : Option (JarResult × Machine) :=
  match s.jarvisInstance with
  | some _ => some (.ok, s)
  | none =>
    let (core, s) := kmalloc heap s
    if core = 0 then some (.nomem, s)
    else
      -- the instance is there from here on
      let s := { s with jarvisInstance := some ⟨.init, none, none⟩ }
      match neuralNetworkCreate heap [64, 128, 64] s with
      | none => none
      | some (net, s) =>
        let s := s.setInstance fun core => { core with nlpNetwork := net }
        let (kb, s) := knowledgeBaseCreate heap s
        some (.ok, s.setInstance fun core => { core with knowledge := kb })

/-- The four bytes of an `f32`. -/
def storeFloat (m : Memory) (p : Nat) (bits : U32) : Memory :=
  (((m.store p (bits.extractLsb' 0 8)).store (p + 1) (bits.extractLsb' 8 8)).store (p + 2)
    (bits.extractLsb' 16 8)).store (p + 3) (bits.extractLsb' 24 8)

def knowledgeBaseAdd (kb : KnowledgeBase) (concept definition : CStr) (conf : U32) (s : Machine) :
    Option (JarResult × KnowledgeBase × Machine) :=
  if kb.numNodes ≥ kb.capacity then some (.nomem, kb, s)
  else
    let (n, s) := kmalloc heap s
    if n = 0 then none
    else
      let mem := strncpy (n + conceptOffset) concept 63 s.mem
      let mem := strncpy (n + definitionOffset) definition 255 mem
      let mem := storeFloat mem (n + confidenceOffset) conf
      match kb.nodes with
      | none => none
      | some nodes =>
        some (.ok, { kb with
          nodes := some (Function.update nodes kb.numNodes n), numNodes := kb.numNodes + 1 },
          { s with mem })

end

/-- The loop over the pointers of the nodes. -/
def queryLoop (m : Memory) (concept : CStr) : List Nat → Option Nat
  | [] => some 0
  | n :: nodes =>
    if n = 0 then none
    else
      match strcasecmp m (n + conceptOffset) concept.bytes with
      | none => none
      | some order => if order = 0 then some (n + definitionOffset) else queryLoop m concept nodes

def jarvisQueryKnowledge (concept : CStr) (s : Machine) : Option Nat :=
  match s.knowledge with
  | none => some 0
  | some kb =>
    match kb.nodes with
    | none => if kb.numNodes = 0 then some 0 else none
    | some nodes => queryLoop s.mem concept ((List.range kb.numNodes).map nodes)

end JarJar.Jarvis
