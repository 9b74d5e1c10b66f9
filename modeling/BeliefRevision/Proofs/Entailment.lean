import BeliefRevision.Proofs.Reachable

/-!
# Entailment is decided right

Whatever was done to a base before, an answer about entailment or consistency is the classical one.
The clauses of the beliefs may come from different times: each expresses its belief in the vocabulary
of the question.

* `Reachable.entailment_iff` — the answer of a check for some of the beliefs
* `answers_are_classical` — the answers of the two questions
-/

namespace BeliefRevision

/-- **A check for some of the beliefs is right.** -/
theorem Session.Reachable.entailment_iff {s : Session} (h : s.Reachable) {φ : Formula}
    {entries : List Entry} (hentries : ∀ entry ∈ entries, entry ∈ s.base.entries) {limit : Nat}
    {negated : ClauseSet} {w : Vocabulary} {b : Bool} {settings : Settings}
    (hnegated : (Formula.not φ).clauses limit s.base.vocabulary = (.ok negated, w))
    (hanswer : settings.entailment entries negated = .ok b) :
    b = true ↔ Entails (entries.map Entry.formula) φ := by
  have hgrow := (Formula.not φ).clauses_grow limit s.base.vocabulary
  rw [hnegated] at hgrow
  have hexpress : ∀ entry ∈ entries, w.Expresses entry.clauses entry.formula :=
    fun entry hentry => ((h.recorded entry (hentries entry hentry)).later hgrow).expresses
  rw [Settings.entailment_iff hexpress (Formula.clauses_express hnegated) hanswer,
    ← not_entails_iff, Classical.not_not]

namespace Operation

/-- A question leaves the beliefs alone. Its answer is that of a check, after a conversion that
succeeds. -/
theorem entails_run {φ : Formula} {s t : Session} {result : Except Error Bool}
    (h : (entails φ).perform s = (result, t)) :
    t.base.entries = s.base.entries ∧ ∀ b, result = .ok b →
      ∃ negated w, (Formula.not φ).clauses s.base.settings.clauseLimit.value s.base.vocabulary =
        (.ok negated, w) ∧ s.base.settings.entailment s.base.entries negated = .ok b := by
  rw [perform, entails, base_bind, clausesOf_bind] at h
  rcases hnegated : (Formula.not φ).clauses s.base.settings.clauseLimit.value s.base.vocabulary
    with ⟨error | negated, w⟩
  · rw [hnegated] at h
    cases h
    exact ⟨rfl, fun _ hanswer => by cases hanswer⟩
  · rw [hnegated] at h
    dsimp only at h
    rw [base_bind] at h
    obtain ⟨tally, hcheck⟩ := entailedBy_bind s.base.entries negated _ (s.withVocabulary w)
    rw [Session.entries_withVocabulary, hcheck, Session.settings_withVocabulary] at h
    cases hanswer : s.base.settings.entailment s.base.entries negated with
    | error error =>
      rw [hanswer] at h
      cases h
      exact ⟨rfl, fun _ hanswer => by cases hanswer⟩
    | ok entailed =>
      rw [hanswer] at h
      cases h
      refine ⟨rfl, fun b hb => ⟨negated, w, rfl, ?_⟩⟩
      cases hb
      exact hanswer

theorem entails_eq_ok {φ : Formula} {s : Session} {b : Bool}
    (h : ((entails φ).perform s).1 = .ok b) :
    ∃ negated w, (Formula.not φ).clauses s.base.settings.clauseLimit.value s.base.vocabulary =
      (.ok negated, w) ∧ s.base.settings.entailment s.base.entries negated = .ok b :=
  (entails_run (Prod.ext h rfl)).2 b rfl

/-- Where the clauses are to be had, the answer is that of the check. -/
theorem entails_answer {φ : Formula} {s : Session} {negated : ClauseSet} {w : Vocabulary}
    (hnegated : (Formula.not φ).clauses s.base.settings.clauseLimit.value s.base.vocabulary =
      (.ok negated, w)) :
    ((entails φ).perform s).1 = s.base.settings.entailment s.base.entries negated := by
  rw [perform, entails, base_bind, clausesOf_bind, hnegated]
  dsimp only
  rw [base_bind]
  obtain ⟨tally, hcheck⟩ := entailedBy_bind s.base.entries negated _ (s.withVocabulary w)
  rw [Session.entries_withVocabulary, hcheck, Session.settings_withVocabulary]
  cases s.base.settings.entailment s.base.entries negated with
  | error error => rfl
  | ok entailed => rfl

theorem isConsistent_answer (s : Session) :
    (isConsistent.perform s).1 = (s.base.settings.entailment s.base.entries ∅).map (!·) := by
  rw [perform, isConsistent, base_bind, base_bind]
  obtain ⟨tally, hcheck⟩ := entailedBy_bind s.base.entries ∅ _ s
  rw [hcheck]
  cases s.base.settings.entailment s.base.entries ∅ with
  | error error => rfl
  | ok inconsistent => rfl

theorem isConsistent_eq_ok {s : Session} {b : Bool} (h : (isConsistent.perform s).1 = .ok b) :
    s.base.settings.entailment s.base.entries ∅ = .ok (!b) := by
  rw [isConsistent_answer] at h
  cases hanswer : s.base.settings.entailment s.base.entries ∅ with
  | error error =>
    rw [hanswer] at h
    cases h
  | ok inconsistent =>
    rw [hanswer] at h
    cases h
    rw [Bool.not_not]

end Operation

/-- **Answers about entailment and consistency are the classical ones**, in every session that comes
about from an empty base. -/
theorem answers_are_classical {s : Session} (h : s.Reachable) :
    (∀ φ b, ((Operation.entails φ).perform s).1 = .ok b →
        (b = true ↔ Entails s.base.formulas φ)) ∧
      ∀ b, (Operation.isConsistent.perform s).1 = .ok b →
        (b = true ↔ Consistent s.base.formulas) := by
  constructor
  · intro φ b hb
    obtain ⟨negated, w, hnegated, hanswer⟩ := Operation.entails_eq_ok hb
    exact h.entailment_iff (fun _ => id) hnegated hanswer
  · intro b hb
    have hanswer := Operation.isConsistent_eq_ok hb
    have hexpress : ∀ entry ∈ s.base.entries,
        s.base.vocabulary.Expresses entry.clauses entry.formula :=
      fun entry hentry => (h.recorded entry hentry).expresses
    have hright : (!b) = true ↔ ¬ Consistent s.base.formulas := by
      rw [← consistent_top]
      exact Settings.entailment_iff hexpress s.base.vocabulary.expresses_empty hanswer
    cases b
    · simpa using hright
    · simpa using hright

/-- With a call that fails, a name that no belief has and a change of the settings in between. -/
theorem answers_are_classical_modus_ponens :
    let p : Formula := .atom "p"
    let q : Formula := .atom "q"
    let s := Session.afterAll {} [.expandWith (.binary .implies p q) 2, .expandWith p 0,
      .clausesOf (.atom "r"), .configure (.tautologyElimination false), .expand p]
    s.Reachable ∧ ((Operation.entails q).perform s).1 = .ok true ∧ Entails s.base.formulas q ∧
      (Operation.isConsistent.perform s).1 = .ok true ∧ Consistent s.base.formulas := by
  intro p q s
  have hreachable : s.Reachable := (Session.Reachable.start {}).afterAll _
  have hentails : ((Operation.entails q).perform s).1 = .ok true := by decide +kernel
  have hconsistent : (Operation.isConsistent.perform s).1 = .ok true := by decide +kernel
  obtain ⟨hfirst, hsecond⟩ := answers_are_classical hreachable
  exact ⟨hreachable, hentails, (hfirst q true hentails).mp rfl, hconsistent,
    (hsecond true hconsistent).mp rfl⟩

end BeliefRevision
