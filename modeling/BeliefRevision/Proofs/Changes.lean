import BeliefRevision.Base.Expansion
import BeliefRevision.Proofs.Search

/-!
# Expansions and contractions

Each of the two operations that change beliefs has a few ways to go, listed here with what it answers
and what it leaves behind. Both fail before any belief is changed.

* `expandWith_run`, `contract_run` — there are no other ways
* `contract_answer` — which way a contraction goes, as a function of the settings and the beliefs
-/

namespace BeliefRevision

/-! ## Expansions -/

/-- The ways an expansion can go: what it answers, and the session afterwards. -/
inductive ExpansionRun (φ : Formula) (priority : Nat) (s : Session) :
    Except Error Expansion → Session → Prop where
  | invalidPriority (hpriority : ¬ Parameter.defaultPriority.Admits priority) :
      ExpansionRun φ priority s (.error .invalidPriority) s
  | duplicate (hpriority : Parameter.defaultPriority.Admits priority)
      (hmem : φ ∈ s.base.formulas) :
      ExpansionRun φ priority s (.ok .duplicate) (s.send (.duplicate φ))
  | failed {error : Error} {w : Vocabulary} (hpriority : Parameter.defaultPriority.Admits priority)
      (hnew : φ ∉ s.base.formulas)
      (hclauses : φ.clauses s.base.settings.clauseLimit.value s.base.vocabulary = (.error error, w)) :
      ExpansionRun φ priority s (.error error) (s.withVocabulary w)
  | added {clauses : ClauseSet} {w : Vocabulary}
      (hpriority : Parameter.defaultPriority.Admits priority) (hnew : φ ∉ s.base.formulas)
      (hclauses : φ.clauses s.base.settings.clauseLimit.value s.base.vocabulary = (.ok clauses, w)) :
      ExpansionRun φ priority s (.ok .added)
        (((s.withVocabulary w).withEntries (s.base.entries ++ [⟨φ, priority, clauses⟩])).send
          (.added φ priority))

namespace Operation

/-- **An expansion goes in one of these ways.** -/
theorem expandWith_run {φ : Formula} {priority : Nat} {s t : Session}
    {result : Except Error Expansion} (h : expandWith φ priority s = (result, t)) :
    ExpansionRun φ priority s result t := by
  unfold expandWith at h
  by_cases hpriority : Parameter.defaultPriority.Admits priority
  · rw [if_pos hpriority, base_bind] at h
    by_cases hmem : s.base.contains φ
    · rw [if_pos hmem] at h
      cases h
      exact .duplicate hpriority (Base.contains_iff.mp hmem)
    · have hnew : φ ∉ s.base.formulas := fun hφ => hmem (Base.contains_iff.mpr hφ)
      rw [if_neg hmem, clausesOf_bind] at h
      rcases hclauses : φ.clauses s.base.settings.clauseLimit.value s.base.vocabulary
        with ⟨error | clauses, w⟩
      · rw [hclauses] at h
        cases h
        exact .failed hpriority hnew hclauses
      · rw [hclauses] at h
        cases h
        exact .added hpriority hnew hclauses
  · rw [if_neg hpriority] at h
    cases h
    exact .invalidPriority hpriority

end Operation

/-! ## Contractions -/

/-- The ways a contraction can go: what it answers, and the session afterwards. -/
inductive ContractionRun (target : Formula) (s : Session) :
    Except Error Contraction → Session → Prop where
  | failed {error : Error} {w : Vocabulary} {tally : Tally}
      (hlearned : ((Formula.not target).clauses s.base.settings.clauseLimit.value
        s.base.vocabulary).2 = w) :
      ContractionRun target s (.error error) ((s.withVocabulary w).withTally tally)
  | notEntailed {negated : ClauseSet} {w : Vocabulary} {tally : Tally}
      (hnegated : (Formula.not target).clauses s.base.settings.clauseLimit.value
        s.base.vocabulary = (.ok negated, w))
      (hall : s.base.settings.entailment s.base.entries negated = .ok false) :
      ContractionRun target s (.ok .notEntailed)
        ((((s.withVocabulary w).withTally tally).send (.contractionRejected target)).sendWork
          s.base.tally)
  | tautology {negated : ClauseSet} {w : Vocabulary} {tally : Tally}
      (hnegated : (Formula.not target).clauses s.base.settings.clauseLimit.value
        s.base.vocabulary = (.ok negated, w))
      (hall : s.base.settings.entailment s.base.entries negated = .ok true)
      (hnone : s.base.settings.entailment [] negated = .ok true) :
      ContractionRun target s (.ok .tautology)
        ((((s.withVocabulary w).withTally tally).send (.contractionRejected target)).sendWork
          s.base.tally)
  | contracted {negated : ClauseSet} {w : Vocabulary} {tally : Tally} {search : Search}
      {kept : List Nat} {remainder : List Entry}
      (hnegated : (Formula.not target).clauses s.base.settings.clauseLimit.value
        s.base.vocabulary = (.ok negated, w))
      (hall : s.base.settings.entailment s.base.entries negated = .ok true)
      (hnone : s.base.settings.entailment [] negated = .ok false)
      (hlimit : s.base.entries.length ≤ s.base.settings.contractionLimit.value)
      (hsearch : Search.descend s.base.settings s.base.entries negated s.base.entries.length {} =
        .ok search)
      (hkept : kept = (search.best.map Prod.fst).getD [])
      (hremainder : remainder = entriesAt s.base.entries kept) :
      ContractionRun target s
        (.ok (.contracted ((entriesAt s.base.entries
          ((List.range s.base.entries.length).filter (!kept.contains ·))).map Entry.formula)))
        ((((((s.withVocabulary w).withTally tally).withEntries remainder).send
          (.contracted target (remainder.map Entry.formula))).send
            (.subsets search.examined)).sendWork s.base.tally |>.send .timed)

namespace Operation

/-- **A contraction goes in one of these ways.** -/
theorem contract_run {target : Formula} {s t : Session} {result : Except Error Contraction}
    (h : contract target s = (result, t)) : ContractionRun target s result t := by
  rw [contract, base_bind, clausesOf_bind] at h
  rcases hnegated : (Formula.not target).clauses s.base.settings.clauseLimit.value
    s.base.vocabulary with ⟨error | negated, w⟩
  · rw [hnegated] at h
    cases h
    exact .failed (congrArg Prod.snd hnegated)
  have hlearned := congrArg Prod.snd hnegated
  rw [hnegated] at h
  dsimp only at h
  rw [base_bind, Session.entries_withVocabulary] at h
  -- all the beliefs, then none of them, then the selections in between
  obtain ⟨tally, hcheck⟩ := entailedBy_bind s.base.entries negated _ (s.withVocabulary w)
  rw [hcheck, Session.settings_withVocabulary] at h
  rcases hall : s.base.settings.entailment s.base.entries negated with error | _ | _
  · rw [hall] at h
    cases h
    exact .failed hlearned
  · rw [hall] at h
    cases h
    exact .notEntailed hnegated hall
  rw [hall] at h
  dsimp only at h
  rw [if_pos rfl] at h
  obtain ⟨tally', hcheck'⟩ := entailedBy_bind [] negated _ ((s.withVocabulary w).withTally tally)
  rw [hcheck', Session.settings_withTally, Session.settings_withVocabulary,
    Session.withTally_withTally] at h
  rcases hnone : s.base.settings.entailment [] negated with error | _ | _
  · rw [hnone] at h
    cases h
    exact .failed hlearned
  · rw [hnone] at h
    dsimp only at h
    rw [if_neg (by decide), base_bind, Session.settings_withTally,
      Session.settings_withVocabulary] at h
    by_cases hlimit : s.base.settings.contractionLimit.value < s.base.entries.length
    · rw [if_pos hlimit] at h
      cases h
      exact .failed hlearned
    · obtain ⟨tally'', hsearch⟩ := searchBelow_bind s.base.entries negated s.base.entries.length {}
        _ ((s.withVocabulary w).withTally tally')
      rw [if_neg hlimit, hsearch, Session.settings_withTally,
        Session.settings_withVocabulary] at h
      cases hfound : Search.descend s.base.settings s.base.entries negated s.base.entries.length
        {} with
      | error error =>
        rw [hfound] at h
        cases h
        exact .failed hlearned
      | ok search =>
        rw [hfound] at h
        cases h
        exact .contracted hnegated hall hnone (Nat.not_lt.mp hlimit) hfound rfl rfl
  · rw [hnone] at h
    cases h
    exact .tautology hnegated hall hnone

end Operation

/-- The answer of a contraction by a formula of whose negation the clauses are `negatedGoal`. -/
def Settings.contraction (settings : Settings) (entries : List Entry) (negatedGoal : ClauseSet) :
    Except Error Contraction := do
  if ← settings.entailment entries negatedGoal then
    if ← settings.entailment [] negatedGoal then .ok .tautology
    else if settings.contractionLimit.value < entries.length then .error .contractionLimit
    else
      let search ← Search.descend settings entries negatedGoal entries.length {}
      let kept := (search.best.map Prod.fst).getD []
      let givenUp := (List.range entries.length).filter (!kept.contains ·)
      .ok (.contracted ((entriesAt entries givenUp).map Entry.formula))
  else .ok .notEntailed

section

variable {settings : Settings} {entries : List Entry} {negatedGoal : ClauseSet}

theorem Settings.contraction_notEntailed (hall : settings.entailment entries negatedGoal = .ok false) :
    settings.contraction entries negatedGoal = .ok .notEntailed := by
  rw [contraction, hall]
  rfl

theorem Settings.contraction_tautology (hall : settings.entailment entries negatedGoal = .ok true)
    (hnone : settings.entailment [] negatedGoal = .ok true) :
    settings.contraction entries negatedGoal = .ok .tautology := by
  rw [contraction, hall, hnone]
  rfl

theorem Settings.contraction_contracted {search : Search}
    (hall : settings.entailment entries negatedGoal = .ok true)
    (hnone : settings.entailment [] negatedGoal = .ok false)
    (hlimit : entries.length ≤ settings.contractionLimit.value)
    (hsearch : Search.descend settings entries negatedGoal entries.length {} = .ok search) :
    ∃ removed, settings.contraction entries negatedGoal = .ok (.contracted removed) := by
  rw [contraction, hall, hnone, hsearch]
  exact ⟨_, if_neg (Nat.not_lt.mpr hlimit)⟩

end

/-- **The answer of a contraction** does not depend on what was counted or sent before. -/
theorem Operation.contract_answer {target : Formula} {s : Session} {negated : ClauseSet}
    {w : Vocabulary}
    (hnegated : (Formula.not target).clauses s.base.settings.clauseLimit.value s.base.vocabulary =
      (.ok negated, w)) :
    (contract target s).1 = s.base.settings.contraction s.base.entries negated := by
  rw [contract, base_bind, clausesOf_bind, hnegated]
  dsimp only
  rw [base_bind, Session.entries_withVocabulary]
  obtain ⟨tally, hcheck⟩ := entailedBy_bind s.base.entries negated _ (s.withVocabulary w)
  rw [hcheck, Session.settings_withVocabulary, Settings.contraction]
  rcases s.base.settings.entailment s.base.entries negated with error | _ | _
  · rfl
  · rfl
  dsimp only
  rw [if_pos rfl]
  obtain ⟨tally', hcheck'⟩ := entailedBy_bind [] negated _ ((s.withVocabulary w).withTally tally)
  rw [hcheck', Session.settings_withTally, Session.settings_withVocabulary]
  rcases s.base.settings.entailment [] negated with error | _ | _
  · rfl
  · dsimp only
    rw [if_neg (by decide), base_bind, Session.withTally_withTally, Session.settings_withTally,
      Session.settings_withVocabulary]
    by_cases hlimit : s.base.settings.contractionLimit.value < s.base.entries.length
    · rw [if_pos hlimit]
      exact (if_pos hlimit).symm
    · obtain ⟨tally'', hrun⟩ := searchBelow_bind s.base.entries negated s.base.entries.length {}
        _ ((s.withVocabulary w).withTally tally')
      rw [if_neg hlimit, hrun, Session.settings_withTally, Session.settings_withVocabulary]
      refine Eq.trans ?_ (if_neg hlimit).symm
      cases Search.descend s.base.settings s.base.entries negated s.base.entries.length {} with
      | error error => rfl
      | ok search => rfl
  · rfl

end BeliefRevision
