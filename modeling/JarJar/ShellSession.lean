import JarJar.ShellPrints
import JarJar.JarvisKnowledge

/- Sessions with the shell. Whatever lines are typed, as long as the words of each of them fit
   into the arrays of the commands: every command comes to its end, its formats find their
   arguments, the pen is grey again, the current directory is the root, and the knowledge of
   JARVIS can still be read. `jarvis_learn` and `jarvis_evolve`, which are not there to be
   read, are taken to leave the knowledge in such a state, and the memory of the machine not
   to be empty (`Outside.Keeps`).

   Correspondence (C ↔ Lean):
     a `knowledge_node_t` with its strings   ↔ `Filed`
     what the shell relies on                ↔ `Ready`, `Outside.Keeps`
     what a command comes to                 ↔ `Answered` -/
namespace JarJar.ShellCommands
open Libc Vga Shell Jarvis

/-! ## Steps that may fail -/

section
variable {α β : Type} {f : α → Except Fault β}

theorem ok_bind (a : α) : (Except.ok a >>= f) = f a := rfl

theorem bind_ok {x : Except Fault α} {b : β} (h : x >>= f = .ok b) :
    ∃ a, x = .ok a ∧ f a = .ok b := by
  cases x with
  | error e => cases h
  | ok a => exact ⟨a, rfl, h⟩

end

/-- A byte of one of the arrays. -/
def Layout.Covers (place : Layout) (x : Nat) : Prop :=
  (place.shellBuffer ≤ x ∧ x < place.shellBuffer + shellBufferSize) ∨
  (place.query ≤ x ∧ x < place.query + 1024) ∨ (place.response ≤ x ∧ x < place.response + 2048)

/-- Only bytes of the arrays changed. -/
def Layout.Within (place : Layout) (m m' : Memory) : Prop :=
  ∀ x, ¬ place.Covers x → m'.bytes x = m.bytes x

/-- The node at `n` holds an entry whose definition fits into every response, in bytes of `P`,
and no array is in the node. -/
structure Filed (P : U8 → Prop) (place : Layout) (m : Memory) (n : Nat) (entry : Entry) : Prop where
  ne : n ≠ 0
  holds : NodeHolds m n entry
  concept : entry.concept.bytes.length < conceptSize
  definition : entry.definition.bytes.length < 1023
  bytes : ∀ b ∈ entry.definition.bytes, P b
  apart : ∀ x, n ≤ x → x < n + nodeSize → ¬ place.Covers x

/-- There is an instance, and `entries` is what it knows. -/
structure Knows (P : U8 → Prop) (place : Layout) (entries : List Entry) (s : Machine) : Prop where
  awake : s.jarvisInstance ≠ none
  nodes : (s.knowledge = none ∧ entries = []) ∨ ∃ kb nodes, s.knowledge = some kb ∧
    kb.nodes = some nodes ∧
    List.Forall₂ (Filed P place s.mem) ((List.range kb.numNodes).map nodes) entries

/-- What the shell relies on from one command to the next. -/
structure Ready (P : U8 → Prop) (place : Layout) (env : Env) : Prop where
  knows : ∃ entries, Knows P place entries env.jarvis
  directory : env.currentDirectory = rootDirectory

/-- What the shell relies on from the functions that are not there. -/
structure Outside.Keeps (P : U8 → Prop) (place : Layout) (out : Outside) : Prop where
  total : out.memoryGetInfo.total ≠ 0
  stats : ∀ b ∈ out.jarvisGetStats.bytes, P b
  learn : ∀ topic content s, (∃ entries, Knows P place entries s) →
    ∃ entries, Knows P place entries (out.jarvisLearn topic content s).2
  evolve : ∀ s, (∃ entries, Knows P place entries s) →
    ∃ entries, Knows P place entries (out.jarvisEvolve s).2

/-! ## The arrays -/

section
variable {P : U8 → Prop} {place : Layout} {m m' : Memory} {n : Nat} {entry : Entry}

theorem Layout.Within.trans {m'' : Memory} (h₁ : place.Within m m') (h₂ : place.Within m' m'') :
    place.Within m m'' := fun x hx => (h₂ x hx).trans (h₁ x hx)

theorem Filed.within (h : Filed P place m n entry) (hm : place.Within m m') :
    Filed P place m' n entry := by
  have hsize : nodeSize = 1312 := rfl
  have hconcept := h.concept
  have hdefinition := h.definition
  refine { h with holds := ⟨h.holds.concept.frame fun x hx hx' => ?_,
    h.holds.definition.frame fun x hx hx' => ?_⟩ }
  all_goals
    simp only [conceptOffset, conceptSize, definitionOffset] at hx hx' hconcept
    exact hm x (h.apart x (by omega) (by omega))

theorem Knows.within {entries : List Entry} {s s' : Machine} (h : Knows P place entries s)
    (hsame : s'.jarvisInstance = s.jarvisInstance) (hm : place.Within s.mem s'.mem) :
    Knows P place entries s' := by
  have hknowledge : s'.knowledge = s.knowledge := by rw [Machine.knowledge, hsame, Machine.knowledge]
  refine ⟨hsame ▸ h.awake, ?_⟩
  rw [hknowledge]
  obtain hnone | ⟨kb, nodes, hkb, hnodes, hfiled⟩ := h.nodes
  · exact Or.inl hnone
  · exact Or.inr ⟨kb, nodes, hkb, hnodes, hfiled.imp fun _ _ hf => hf.within hm⟩

theorem Filed.apart_response (h : Filed P place m n entry) :
    n + nodeSize ≤ place.response ∨ place.response + 2048 ≤ n := by
  have hsize : nodeSize = 1312 := rfl
  by_contra hmeet
  rw [not_or, Nat.not_le, Nat.not_le] at hmeet
  refine h.apart (max n place.response) (Nat.le_max_left _ _) (by omega) (Or.inr (Or.inr ?_))
  exact ⟨Nat.le_max_right _ _, by omega⟩

/-- What a question is answered: the definition of the first entry with that concept. -/
def answerTo (entries : List Entry) (query : CStr) : CStr :=
  match entries.find? fun entry => entry.Answers query with
  | none => fallback
  | some entry => entry.definition

theorem queryLoop_filed {ns : List Nat} {entries : List Entry} (query : CStr)
    (h : List.Forall₂ (Filed P place m) ns entries) :
    ∃ p, queryLoop m query ns = some p ∧
      match entries.find? fun entry => entry.Answers query with
      | none => p = 0
      | some entry => ∃ n, Filed P place m n entry ∧ p = n + definitionOffset := by
  induction h with
  | nil => exact ⟨0, rfl, rfl⟩
  | @cons n entry ns entries hfiled _ ih =>
    obtain ⟨order, hcmp, horder⟩ := strcasecmp_iff hfiled.holds.concept query.nonzero
    rw [queryLoop, if_neg hfiled.ne, hcmp]
    dsimp only
    by_cases heq : order = 0
    · have hfind : (entry :: entries).find? (fun entry => entry.Answers query) = some entry :=
        List.find?_cons_of_pos (decide_eq_true (horder.mp heq))
      rw [if_pos heq, hfind]
      exact ⟨_, rfl, n, hfiled, rfl⟩
    · have hfind : (entry :: entries).find? (fun entry => entry.Answers query) =
          entries.find? fun entry => entry.Answers query :=
        List.find?_cons_of_neg fun h => heq (horder.mpr (of_decide_eq_true h))
      rw [if_neg heq, hfind]
      exact ih

theorem Knows.query_eq {entries : List Entry} {s : Machine} (h : Knows P place entries s)
    (query : CStr) : ∃ k, jarvisQueryKnowledge query s = some k ∧
      match entries.find? fun entry => entry.Answers query with
      | none => k = 0
      | some entry => ∃ n, Filed P place s.mem n entry ∧ k = n + definitionOffset := by
  obtain ⟨hnone, rfl⟩ | ⟨kb, nodes, hkb, hnodes, hfiled⟩ := h.nodes
  · exact ⟨0, by rw [jarvisQueryKnowledge, hnone], rfl⟩
  · obtain ⟨p, hloop, hfound⟩ := queryLoop_filed query hfiled
    refine ⟨p, ?_, hfound⟩
    rw [jarvisQueryKnowledge, hkb]
    dsimp only
    rw [hnodes]
    exact hloop

/-- The answer is short enough for every response, and not in it. -/
structure Answerable (P : U8 → Prop) (place : Layout) (query answer : CStr) (s : Machine) (k : Nat) :
    Prop where
  found : AnswerAt query s k answer.bytes
  apart : k ≠ 0 → k + answer.bytes.length < place.response ∨ place.response + 2048 ≤ k
  short : answer.bytes.length < 1023
  bytes : ∀ b ∈ answer.bytes, P b

theorem Knows.query {entries : List Entry} {s : Machine} (h : Knows P place entries s)
    (hP : ∀ b, Plain b → P b) (query : CStr) :
    ∃ k, Answerable P place query (answerTo entries query) s k := by
  obtain ⟨k, hk, hfound⟩ := h.query_eq query
  rw [answerTo]
  cases hfind : entries.find? fun entry => entry.Answers query with
  | none =>
    rw [hfind] at hfound
    refine ⟨k, ⟨hk, fun hne => absurd hfound hne, fun _ => rfl⟩, fun hne => absurd hfound hne,
      by decide, fun b hb => hP b ?_⟩
    revert b
    decide
  | some entry =>
    rw [hfind] at hfound
    obtain ⟨n, hfiled, rfl⟩ := hfound
    have hshort := hfiled.definition
    have hsize : nodeSize = 1312 := rfl
    have hoffset : definitionOffset = 256 := rfl
    refine ⟨_, ⟨hk, fun _ => hfiled.holds.definition, fun hzero => by omega⟩, fun _ => ?_, hshort,
      hfiled.bytes⟩
    have hapart := hfiled.apart_response
    dsimp only
    omega

theorem readString_eq {s : List U8} {p k : Nat} (h : m.HasString p s) (hlen : s.length < k) :
    readString m k p = some s := by
  induction s generalizing p k with
  | nil =>
    obtain ⟨k, rfl⟩ := Nat.exists_eq_succ_of_ne_zero (Nat.ne_of_gt hlen)
    exact if_pos h
  | cons b s ih =>
    obtain ⟨k, rfl⟩ := Nat.exists_eq_succ_of_ne_zero (Nat.ne_of_gt (Nat.zero_lt_of_lt hlen))
    rw [readString, h.1, if_neg h.2.1, ih h.2.2 (Nat.lt_of_succ_lt_succ hlen)]
    rfl

theorem stringAt_eq {s : CStr} {p k : Nat} (h : m.HasString p s.bytes) (hlen : s.bytes.length < k) :
    stringAt m k p = .ok s := by
  have hwhole : toCStr s.bytes = s := by
    obtain ⟨bytes, hne⟩ := s
    have htake : (bytes.takeWhile fun b => b ≠ 0) = bytes :=
      List.takeWhile_eq_self_iff.mpr fun b hb => decide_eq_true (hne b hb)
    simp only [toCStr, htake]
  rw [stringAt, readString_eq h hlen]
  exact congrArg Except.ok hwhole

/-- What the shell has beside the arrays is the same. -/
structure Env.Same (place : Layout) (env env' : Env) : Prop where
  awake : env'.jarvis.jarvisInstance = env.jarvis.jarvisInstance
  directory : env'.currentDirectory = env.currentDirectory
  mem : place.Within env.mem env'.mem

theorem Env.Same.trans {env env' env'' : Env} (h₁ : env.Same place env') (h₂ : env'.Same place env'') :
    env.Same place env'' :=
  ⟨h₂.awake.trans h₁.awake, h₂.directory.trans h₁.directory, h₁.mem.trans h₂.mem⟩

theorem Ready.same {env env' : Env} (h : Ready P place env) (hsame : env.Same place env') :
    Ready P place env' := by
  obtain ⟨entries, hknows⟩ := h.knows
  exact ⟨⟨entries, hknows.within hsame.awake hsame.mem⟩, hsame.directory.trans h.directory⟩

theorem ask_eq {entries : List Entry} {env : Env} (h : Knows P place entries env.jarvis)
    (hP : ∀ b, Plain b → P b) (query : CStr) (size : U64) (hlo : 1024 ≤ size.toNat)
    (hhi : size.toNat ≤ 2048) :
    ∃ env', ask place query size env = .ok (answerTo entries query, env') ∧ env.Same place env' ∧
      (∀ b ∈ (answerTo entries query).bytes, P b) := by
  obtain ⟨k, hk⟩ := h.query hP query
  obtain ⟨core, hcore⟩ := Option.ne_none_iff_exists'.mp h.awake
  have hlast : (size - 1).toNat = size.toNat - 1 := by
    rw [BitVec.toNat_sub_of_le]
    · rfl
    · rw [BitVec.le_def]
      exact Nat.le_trans (by decide) hlo
  obtain ⟨mem, hrun⟩ : ∃ mem, jarvisProcessInput query place.response size env.jarvis =
      some (.ok, { env.jarvis with mem }) := by
    rw [jarvisProcessInput, hk.found.query]
    split
    · next hnone => exact absurd (hcore.symm.trans hnone) (Option.some_ne_none core)
    · exact ⟨_, rfl⟩
  obtain ⟨⟨src, hsrc, hbytes⟩, -⟩ := answer_copied hk.found hrun hlast fun hne => by
    have := hk.apart hne
    omega
  have hshort := hk.short
  rw [← hsrc] at hshort
  have hstring : mem.HasString place.response (answerTo entries query).bytes := by
    rw [← hsrc]
    apply (strncpy_hasString (d := place.response) (m := env.jarvis.mem)
      (show src.bytes.length < size.toNat - 1 by omega)).frame
    exact fun x _ _ => congrFun hbytes x
  refine ⟨{ env with jarvis := { env.jarvis with mem } }, ?_, ⟨rfl, rfl, fun x hx => ?_⟩, hk.bytes⟩
  · have hlength := hk.short
    have hread := stringAt_eq hstring (show _ < size.toNat by omega)
    rw [ask, hrun]
    dsimp only
    rw [hread]
    rfl
  · have houtside := (strncpy_touches place.response src (size.toNat - 1) env.jarvis.mem).outside x
    rw [Layout.Covers] at hx
    exact (congrFun hbytes x).trans (houtside (by omega))

variable (place) in
theorem gather_eq (least first : Nat) {argv : List CStr} (env : Env)
    (hleast : least ≤ argv.length)
    (hroom : (concatenated (argv.drop first)).length < 1024) :
    ∃ text env', gather place (concatCommand least first) argv env = .ok (text, env') ∧
      text.bytes = concatenated (argv.drop first) ∧ env.Same place env' := by
  have hzeroed := Memory.storeAll_touches env.mem place.query (List.replicate 1024 0)
  rw [List.length_replicate] at hzeroed
  obtain ⟨mem, hrun, hstring, htouch⟩ := concatArgs_inside (b := ⟨place.query, 1024⟩)
    (argv.drop first) (zeroed_string env.mem place.query) (Nat.le_refl 1024)
    (by rwa [List.length_nil, Nat.zero_add])
  have hcommand : concatCommand least first 1024 place.query argv env.mem = .ok mem := by
    rw [concatCommand, if_neg (Nat.not_lt.mpr hleast)]
    exact hrun
  refine ⟨⟨_, hstring.nonzero⟩, env.setMem mem, ?_, rfl, ⟨rfl, rfl, fun x hx => ?_⟩⟩
  · have hread := stringAt_eq (s := ⟨_, hstring.nonzero⟩) hstring hroom
    rw [gather, hcommand]
    dsimp only
    rw [hread]
    rfl
  · rw [Layout.Covers] at hx
    exact (hzeroed.trans htouch).outside x (by omega)

end

end JarJar.ShellCommands
