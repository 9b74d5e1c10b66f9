import BeliefRevision.Base.Entailment
import BeliefRevision.Proofs.Computation
import BeliefRevision.Proofs.Conversion
import BeliefRevision.Proofs.Decision

/-!
# Steps of a session

What the elementary steps of an operation do to a session, and the two that answer something. A
conversion teaches the vocabulary names and an entailment check is counted; neither changes the
beliefs, the settings or the events.

* `clausesOf_bind`, `entailedBy_bind` — operations that begin with a conversion or a check
* `Settings.entailment_iff` — the answer of a check is right if the clauses express the formulas
-/

namespace BeliefRevision

/-! ## Changes of a session -/

namespace Session

/-- The session with other counts. -/
def withTally (s : Session) (tally : Tally) : Session := { s with base := { s.base with tally } }

/-- The session with another vocabulary. -/
def withVocabulary (s : Session) (vocabulary : Vocabulary) : Session :=
  { s with base := { s.base with vocabulary } }

/-- The session with other beliefs. -/
def withEntries (s : Session) (entries : List Entry) : Session :=
  { s with base := { s.base with entries } }

/-- The session with other settings. -/
def withSettings (s : Session) (settings : Settings) : Session :=
  { s with base := { s.base with settings } }

/-- The session after one more event. -/
def send (s : Session) (event : Event) : Session := { s with events := s.events ++ [event] }

/-- The session after the events about the work since `before`. -/
def sendWork (s : Session) (before : Tally) : Session :=
  (s.send (.passes (s.base.tally.passes - before.passes))).send
    (.resolvents (s.base.tally.resolvents - before.resolvents))

variable (s : Session) (tally : Tally) (vocabulary : Vocabulary) (event : Event)

@[simp] theorem withTally_withTally (other : Tally) :
    (s.withTally tally).withTally other = s.withTally other := rfl

@[simp] theorem settings_withTally : (s.withTally tally).base.settings = s.base.settings := rfl

@[simp] theorem entries_withTally : (s.withTally tally).base.entries = s.base.entries := rfl

@[simp] theorem settings_withVocabulary :
    (s.withVocabulary vocabulary).base.settings = s.base.settings := rfl

@[simp] theorem entries_withVocabulary :
    (s.withVocabulary vocabulary).base.entries = s.base.entries := rfl

@[simp] theorem base_send : (s.send event).base = s.base := rfl

@[simp] theorem base_sendWork (before : Tally) : (s.sendWork before).base = s.base := rfl

end Session

/-! ## Elementary steps -/

namespace Operation

variable {α : Type}

theorem base_bind (f : Base → Operation α) (s : Session) :
    ((base >>= f) s) = f s.base s := rfl

theorem modifyTally_bind (change : Tally → Tally) (f : Unit → Operation α) (s : Session) :
    ((modifyTally change >>= f) s) = f () (s.withTally (change s.base.tally)) := rfl

end Operation

/-! ## Conversions and checks -/

/-- The answer to whether beliefs entail a goal, of whose negation the clauses are `negatedGoal`. -/
def Settings.entailment (settings : Settings) (entries : List Entry) (negatedGoal : ClauseSet) :
    Except Error Bool :=
  isUnsatisfiable settings.clauseLimit.value settings.tautologyElimination.value
    (negatedGoal ∪ ClauseSet.unions (entries.map Entry.clauses)).toList

/-- A check looks at the clauses of the negated goal and at those of the beliefs. -/
theorem mem_checked {entries : List Entry} {negatedGoal : ClauseSet} {c : Clause} :
    c ∈ (negatedGoal ∪ ClauseSet.unions (entries.map Entry.clauses)).toList ↔
      c ∈ negatedGoal ∨ ∃ entry ∈ entries, c ∈ entry.clauses := by
  rw [ClauseSet.mem_toList, ClauseSet.mem_union, ClauseSet.mem_unions]
  simp only [List.mem_map, exists_exists_and_eq_and]

/-- Checks of the same clauses have the same answer, or the same error. -/
theorem Settings.entailment_congr {settings : Settings} {entries others : List Entry}
    {negatedGoal otherGoal : ClauseSet}
    (h : ∀ c, (c ∈ negatedGoal ∨ ∃ entry ∈ entries, c ∈ entry.clauses) ↔
      c ∈ otherGoal ∨ ∃ entry ∈ others, c ∈ entry.clauses) :
    settings.entailment entries negatedGoal = settings.entailment others otherGoal := by
  have hsame : negatedGoal ∪ ClauseSet.unions (entries.map Entry.clauses) =
      otherGoal ∪ ClauseSet.unions (others.map Entry.clauses) := by
    refine Std.ExtTreeSet.ext_mem fun c => ?_
    rw [← ClauseSet.mem_toList, ← ClauseSet.mem_toList, mem_checked, mem_checked, h c]
  rw [entailment, entailment, hsame]

namespace Operation

variable {α : Type}

theorem clausesOf_run (φ : Formula) (s : Session) :
    clausesOf φ s =
      ((φ.clauses s.base.settings.clauseLimit.value s.base.vocabulary).1,
        s.withVocabulary (φ.clauses s.base.settings.clauseLimit.value s.base.vocabulary).2) := rfl

theorem clausesOf_bind (φ : Formula) (f : ClauseSet → Operation α) (s : Session) :
    ((clausesOf φ >>= f) s) =
      match φ.clauses s.base.settings.clauseLimit.value s.base.vocabulary with
      | (.ok clauses, w) => f clauses (s.withVocabulary w)
      | (.error error, w) => (.error error, s.withVocabulary w) := by
  have hrun := clausesOf_run φ s
  rcases hclauses : φ.clauses s.base.settings.clauseLimit.value s.base.vocabulary
    with ⟨error | clauses, w⟩
  · rw [hclauses] at hrun
    exact Computation.bind_of_error hrun
  · rw [hclauses] at hrun
    exact Computation.bind_of_ok hrun

theorem entailedBy_run (entries : List Entry) (negatedGoal : ClauseSet) (s : Session) :
    ∃ tally, entailedBy entries negatedGoal s =
      (s.base.settings.entailment entries negatedGoal, s.withTally tally) := by
  rw [Settings.entailment, isUnsatisfiable_eq, entailedBy, modifyTally_bind, base_bind]
  dsimp only [Session.withTally]
  rcases Saturation.saturate _ with ⟨verdict | verdict, saturation⟩
  · exact ⟨_, rfl⟩
  · exact ⟨_, rfl⟩

theorem entailedBy_bind (entries : List Entry) (negatedGoal : ClauseSet)
    (f : Bool → Operation α) (s : Session) :
    ∃ tally, ((entailedBy entries negatedGoal >>= f) s) =
      match s.base.settings.entailment entries negatedGoal with
      | .ok entailed => f entailed (s.withTally tally)
      | .error error => (.error error, s.withTally tally) := by
  obtain ⟨tally, hrun⟩ := entailedBy_run entries negatedGoal s
  refine ⟨tally, ?_⟩
  cases hanswer : s.base.settings.entailment entries negatedGoal with
  | error error =>
    rw [hanswer] at hrun
    exact Computation.bind_of_error hrun
  | ok entailed =>
    rw [hanswer] at hrun
    exact Computation.bind_of_ok hrun

/-- The operation, successful or not, does nothing to a session but count. -/
def OnlyCounts (operation : Operation α) : Prop :=
  ∀ s : Session, ∃ tally, (operation s).2 = s.withTally tally

theorem onlyCounts_entailedBy (entries : List Entry) (negatedGoal : ClauseSet) :
    OnlyCounts (entailedBy entries negatedGoal) := by
  intro s
  obtain ⟨tally, hrun⟩ := entailedBy_run entries negatedGoal s
  exact ⟨tally, congrArg Prod.snd hrun⟩

end Operation

/-! ## Right answers -/

/-- Values of the names make a list of formulas hold exactly if the values of their numbers make the
clauses of all of them hold. -/
theorem satisfiable_iff_consistent {v : Vocabulary} {pairs : List (ClauseSet × Formula)}
    (hpairs : ∀ pair ∈ pairs, v.Expresses pair.1 pair.2) {clauses : List Clause}
    (hclauses : ∀ c, c ∈ clauses ↔ ∃ pair ∈ pairs, c ∈ pair.1) :
    Satisfiable clauses ↔ Consistent (pairs.map Prod.snd) := by
  have hholds (u : Nat → Bool) (values : String → Bool)
      (hu : ∀ name ∈ v.names, u (v.number name) = values name) :
      (∀ c ∈ clauses, c.Holds u) ↔ ∀ φ ∈ pairs.map Prod.snd, φ.Holds values := by
    rw [List.forall_mem_map]
    constructor
    · intro h pair hpair
      refine ((hpairs pair hpair).holds_iff u values hu).mp fun c hc => ?_
      exact h c ((hclauses c).mpr ⟨pair, hpair, hc⟩)
    · intro h c hc
      obtain ⟨pair, hpair, hc⟩ := (hclauses c).mp hc
      exact ((hpairs pair hpair).holds_iff u values hu).mpr (h pair hpair) c hc
  constructor
  · rintro ⟨u, hu⟩
    exact ⟨fun name => u (v.number name), (hholds u _ fun _ _ => rfl).mp hu⟩
  · rintro ⟨values, hvalues⟩
    exact ⟨v.valuation values,
      (hholds _ values fun _ hname => Vocabulary.valuation_number hname).mpr hvalues⟩

/-- **The answer of a check is right.** -/
theorem Settings.entailment_iff {settings : Settings} {entries : List Entry}
    {negatedGoal : ClauseSet} {v : Vocabulary} {χ : Formula} {b : Bool}
    (hentries : ∀ entry ∈ entries, v.Expresses entry.clauses entry.formula)
    (hgoal : v.Expresses negatedGoal χ) (h : settings.entailment entries negatedGoal = .ok b) :
    b = true ↔ ¬ Consistent (χ :: entries.map Entry.formula) := by
  let pairs := (negatedGoal, χ) :: entries.map fun entry => (entry.clauses, entry.formula)
  have hpairs : ∀ pair ∈ pairs, v.Expresses pair.1 pair.2 := by
    refine List.forall_mem_cons.mpr ⟨hgoal, ?_⟩
    rw [List.forall_mem_map]
    exact hentries
  have hclauses (c : Clause) :
      c ∈ (negatedGoal ∪ ClauseSet.unions (entries.map Entry.clauses)).toList ↔
        ∃ pair ∈ pairs, c ∈ pair.1 := by
    rw [mem_checked]
    simp [pairs]
  have hcanonical : ∀ c ∈ (negatedGoal ∪ ClauseSet.unions (entries.map Entry.clauses)).toList,
      c.Canonical := by
    intro c hc
    obtain ⟨pair, hpair, hc⟩ := (hclauses c).mp hc
    exact (hpairs pair hpair).canonical c hc
  have hformulas : pairs.map Prod.snd = χ :: entries.map Entry.formula := by
    simp [pairs]
  rw [isUnsatisfiable_iff hcanonical h, satisfiable_iff_consistent hpairs hclauses, hformulas]

end BeliefRevision
