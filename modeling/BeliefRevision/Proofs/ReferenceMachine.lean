import BeliefRevision.Proofs.Representation
import BeliefRevision.Proofs.Revision

/-!
# A reference machine

Belief revision as it is meant, without clauses, numbers of names, searches and limits: beliefs are a
list, entailment is about all valuations, and a contraction is any step to a best remainder, of which
there is only one. A machine carries out instructions and answers questions.

* `Beliefs`, `Beliefs.Contracted`, `Beliefs.Runs` — the machine
* `Contracted.unique`, `Runs.unique` — it can go in one way only
* `Session.Represents` — operations that succeed do what the machine does
-/

namespace BeliefRevision

/-! ## Beliefs -/

/-- Beliefs with their priorities in order of arrival, no formula twice. -/
structure Beliefs where
  list : List (Formula × Nat)
  distinct : (list.map Prod.fst).Nodup

namespace Beliefs

@[ext] theorem ext {b c : Beliefs} (h : b.list = c.list) : b = c := by
  cases b
  cases c
  simp_all

/-- No beliefs. -/
def empty : Beliefs := ⟨[], .nil⟩

def formulas (b : Beliefs) : List Formula := b.list.map Prod.fst

/-- The formula comes to the end, unless it is there already. -/
def expand (b : Beliefs) (φ : Formula) (priority : Nat) : Beliefs :=
  if h : φ ∈ b.formulas then b
  else
    { list := b.list ++ [(φ, priority)]
      distinct := by
        rw [List.map_append, List.nodup_append]
        refine ⟨b.distinct, by simp, fun ψ hψ χ hχ hsame => h ?_⟩
        obtain rfl := List.mem_singleton.mp hχ
        exact hsame ▸ hψ }

/-! ## Contraction -/

/-- The beliefs at the positions. -/
def pick (b : Beliefs) (positions : List Nat) : List (Formula × Nat) :=
  positions.filterMap (b.list[·]?)

/-- The sum of the priorities at the positions. -/
def weight (b : Beliefs) (positions : List Nat) : Nat :=
  ((b.pick positions).map Prod.snd).foldl (· + ·) 0

/-- More beliefs are better. Of as many, those with the greater sum of priorities are better, and of
equal sums, those whose positions come first in lexicographic order. -/
def Better (b : Beliefs) (positions other : List Nat) : Prop :=
  other.length < positions.length ∨ other.length = positions.length ∧
    (b.weight other < b.weight positions ∨
      b.weight other = b.weight positions ∧ positions < other)

/-- The beliefs at the positions do not entail the formula, and are better than all others that do not
entail it. -/
structure Best (b : Beliefs) (φ : Formula) (positions : List Nat) : Prop where
  selection : IsSelection b.list.length positions
  fails : ¬ Entails ((b.pick positions).map Prod.fst) φ
  better : ∀ other, IsSelection b.list.length other → ¬ Entails ((b.pick other).map Prod.fst) φ →
    other = positions ∨ b.Better positions other

/-- What is left of beliefs that are contracted by the formula: all of them, if they do not entail it
or everything does, and otherwise the best of them that do not entail it. -/
inductive Contracted (b : Beliefs) (φ : Formula) : Beliefs → Prop where
  | notEntailed (hall : ¬ Entails b.formulas φ) : Contracted b φ b
  | tautology (hnone : Entails [] φ) : Contracted b φ b
  | best {c : Beliefs} {positions : List Nat} (hall : Entails b.formulas φ)
      (hnone : ¬ Entails [] φ) (hbest : b.Best φ positions) (hlist : c.list = b.pick positions) :
      Contracted b φ c

theorem Better.asymm {b : Beliefs} {positions other : List Nat} (h : b.Better positions other) :
    ¬ b.Better other positions := by
  unfold Better at *
  rintro (hlonger | ⟨hlength, hweight | ⟨hweight, hlater⟩⟩)
  · omega
  · omega
  · rcases h with hlonger | ⟨_, hheavier | ⟨_, hearlier⟩⟩
    · omega
    · omega
    · exact List.lt_asymm hearlier hlater

theorem Best.unique {b : Beliefs} {φ : Formula} {positions other : List Nat}
    (h : b.Best φ positions) (h' : b.Best φ other) : positions = other := by
  rcases h'.better positions h.selection h.fails with hsame | hbetter
  · exact hsame
  rcases h.better other h'.selection h'.fails with hsame | hbetter'
  · exact hsame.symm
  exact absurd hbetter hbetter'.asymm

/-- **There is one way to contract.** -/
theorem Contracted.unique {b c d : Beliefs} {φ : Formula} (h : b.Contracted φ c)
    (h' : b.Contracted φ d) : c = d := by
  cases h with
  | notEntailed hall =>
    cases h' with
    | notEntailed | tautology => rfl
    | best hentailed => exact absurd hentailed hall
  | tautology hnone =>
    cases h' with
    | notEntailed | tautology => rfl
    | best _ hfails => exact absurd hnone hfails
  | best hentailed hfails hbest hlist =>
    cases h' with
    | notEntailed hall => exact absurd hentailed hall
    | tautology hnone => exact absurd hnone hfails
    | best _ _ hbest' hlist' =>
      obtain rfl := hbest.unique hbest'
      exact ext (hlist.trans hlist'.symm)

end Beliefs

/-! ## Instructions -/

/-- What the machine can be told to do. -/
inductive Instruction where
  | expand (φ : Formula) (priority : Nat)
  | entails (φ : Formula)
  | contract (φ : Formula)
  /-- Contracts by the negation and expands by the formula. -/
  | revise (φ : Formula) (priority : Nat)
deriving DecidableEq

namespace Beliefs

/-- One instruction, what it answers, and the beliefs after it. -/
inductive Executes (b : Beliefs) : Instruction → List Bool → Beliefs → Prop where
  | expand (φ : Formula) (priority : Nat) : Executes b (.expand φ priority) [] (b.expand φ priority)
  | entailed {φ : Formula} (h : Entails b.formulas φ) : Executes b (.entails φ) [true] b
  | notEntailed {φ : Formula} (h : ¬ Entails b.formulas φ) : Executes b (.entails φ) [false] b
  | contract {φ : Formula} {c : Beliefs} (h : b.Contracted φ c) : Executes b (.contract φ) [] c
  | revise {φ : Formula} {c : Beliefs} (priority : Nat) (h : b.Contracted (.not φ) c) :
      Executes b (.revise φ priority) [] (c.expand φ priority)

/-- Instructions one after the other, all answers, and the beliefs in the end. -/
inductive Runs : Beliefs → List Instruction → List Bool → Beliefs → Prop where
  | nil (b : Beliefs) : Runs b [] [] b
  | cons {b c d : Beliefs} {instruction : Instruction} {rest : List Instruction}
      {answers more : List Bool} (h : b.Executes instruction answers c)
      (hrest : Runs c rest more d) : Runs b (instruction :: rest) (answers ++ more) d

variable {b c d : Beliefs}

theorem Executes.unique {instruction : Instruction} {answers others : List Bool}
    (h : b.Executes instruction answers c) (h' : b.Executes instruction others d) :
    answers = others ∧ c = d := by
  cases h with
  | expand => cases h'; exact ⟨rfl, rfl⟩
  | entailed hentailed =>
    cases h' with
    | entailed => exact ⟨rfl, rfl⟩
    | notEntailed hnot => exact absurd hentailed hnot
  | notEntailed hnot =>
    cases h' with
    | entailed hentailed => exact absurd hentailed hnot
    | notEntailed => exact ⟨rfl, rfl⟩
  | contract hcontracted =>
    cases h' with
    | contract hcontracted' => exact ⟨rfl, hcontracted.unique hcontracted'⟩
  | revise _ hcontracted =>
    cases h' with
    | revise _ hcontracted' => exact ⟨rfl, by rw [hcontracted.unique hcontracted']⟩

/-- **A program has one outcome.** -/
theorem Runs.unique {program : List Instruction} {answers others : List Bool}
    (h : b.Runs program answers c) (h' : b.Runs program others d) : answers = others ∧ c = d := by
  induction h generalizing others with
  | nil =>
    cases h'
    exact ⟨rfl, rfl⟩
  | cons hfirst _ ih =>
    cases h' with
    | cons hfirst' hrest' =>
      obtain ⟨rfl, rfl⟩ := hfirst.unique hfirst'
      obtain ⟨rfl, rfl⟩ := ih hrest'
      exact ⟨rfl, rfl⟩

theorem Runs.append {program more : List Instruction} {answers others : List Bool}
    (h : b.Runs program answers c) (h' : c.Runs more others d) :
    b.Runs (program ++ more) (answers ++ others) d := by
  induction h with
  | nil => exact h'
  | cons hfirst _ ih =>
    rw [List.cons_append, List.append_assoc]
    exact .cons hfirst (ih h')

end Beliefs

/-! ## Sessions -/

/-- The session has these beliefs. -/
def Session.Represents (s : Session) (b : Beliefs) : Prop :=
  s.base.entries.map Entry.belief = b.list

namespace Session.Represents

variable {s t : Session} {b : Beliefs} {φ : Formula}

theorem formulas (h : s.Represents b) : s.base.formulas = b.formulas := by
  rw [Beliefs.formulas, ← h, List.map_map]
  rfl

theorem entriesAt (h : s.Represents b) (positions : List Nat) :
    (entriesAt s.base.entries positions).map Entry.belief = b.pick positions := by
  rw [BeliefRevision.entriesAt, Beliefs.pick, ← h, List.map_filterMap]
  simp only [List.getElem?_map]

theorem formulasAt (h : s.Represents b) (positions : List Nat) :
    (BeliefRevision.entriesAt s.base.entries positions).map Entry.formula =
      (b.pick positions).map Prod.fst := by
  rw [← h.entriesAt, List.map_map]
  rfl

theorem prioritySum (h : s.Represents b) (positions : List Nat) :
    prioritySum (BeliefRevision.entriesAt s.base.entries positions) = b.weight positions := by
  rw [Beliefs.weight, ← h.entriesAt, List.map_map, List.foldl_map]
  rfl

theorem best (h : s.Represents b) {kept : List Nat}
    (hbest : IsBestRemainder s.base.entries φ kept) : b.Best φ kept := by
  have hlength : b.list.length = s.base.entries.length := by rw [← h, List.length_map]
  refine ⟨hlength ▸ hbest.selection, h.formulasAt kept ▸ hbest.not_entails, ?_⟩
  intro other hselection hfails
  have hpreferred := hbest.preferred other (hlength ▸ hselection) (h.formulasAt other ▸ hfails)
  unfold Preferred at hpreferred
  rwa [h.prioritySum, h.prioritySum] at hpreferred

theorem expandWith (h : s.Represents b) {priority : Nat} {expansion : Expansion}
    (hrun : Operation.expandWith φ priority s = (.ok expansion, t)) :
    t.Represents (b.expand φ priority) := by
  unfold Beliefs.expand
  cases Operation.expandWith_run hrun with
  | duplicate _ hmem =>
    rw [dif_pos (h.formulas ▸ hmem)]
    exact h
  | @added clauses w _ hnew =>
    rw [dif_neg (h.formulas ▸ hnew)]
    show (s.base.entries ++ [(⟨φ, priority, clauses⟩ : Entry)]).map Entry.belief = _
    rw [List.map_append, h]
    rfl

theorem contract (h : s.Represents b) (hs : s.Reachable) {outcome : Contraction}
    (hrun : Operation.contract φ s = (.ok outcome, t)) :
    ∃ c, b.Contracted φ c ∧ t.Represents c := by
  have hresult := hs.contract_result s.base.tally s.events hrun
  generalize hentries : t.base.entries = entries at hresult
  have hsame (hkept : t.base.entries = s.base.entries) : t.Represents b := by
    unfold Represents
    rw [hkept]
    exact h
  cases hresult with
  | notEntailed hall => exact ⟨b, .notEntailed (h.formulas ▸ hall), hsame hentries⟩
  | tautology hnone => exact ⟨b, .tautology hnone, hsame hentries⟩
  | @contracted _ kept hall hnone hbest =>
    have hdistinct : ((b.pick kept).map Prod.fst).Nodup := by
      rw [← h.formulasAt]
      exact hs.tidy.distinct.sublist ((entriesAt_sublist hbest.selection).map Entry.formula)
    refine ⟨⟨b.pick kept, hdistinct⟩, .best (h.formulas ▸ hall) hnone (h.best hbest) rfl, ?_⟩
    unfold Represents
    rw [hentries]
    exact h.entriesAt kept

theorem revise (h : s.Represents b) (hs : s.Reachable) {priority : Nat} {outcome : Revision}
    (hrun : Operation.revise φ priority s = (.ok outcome, t)) :
    ∃ c, b.Contracted (.not φ) c ∧ t.Represents (c.expand φ priority) := by
  obtain ⟨u, v, hcontract, hexpand, rfl⟩ := Operation.revise_eq_ok hrun
  obtain ⟨c, hcontracted, hu⟩ := h.contract hs hcontract
  have hv : v.Represents (c.expand φ priority) := hu.expandWith hexpand
  exact ⟨c, hcontracted, hv⟩

theorem entails (h : s.Represents b) (hs : s.Reachable) {answer : Bool}
    (hrun : ((Operation.entails φ).perform s).1 = .ok answer) :
    b.Executes (.entails φ) [answer] b := by
  obtain ⟨negated, w, hnegated, hanswer⟩ := Operation.entails_eq_ok hrun
  have hright : answer = true ↔ Entails b.formulas φ := by
    rw [← h.formulas]
    exact hs.entailment_iff (fun _ => id) hnegated hanswer
  cases answer with
  | true => exact .entailed (hright.mp rfl)
  | false => exact .notEntailed fun hentailed => by simpa using hright.mpr hentailed

end Session.Represents

end BeliefRevision
