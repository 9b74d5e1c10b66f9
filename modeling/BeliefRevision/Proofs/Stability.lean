import BeliefRevision.Proofs.Agreement
import BeliefRevision.Proofs.Atomicity
import BeliefRevision.Proofs.Revision

/-!
# Contractions and revisions done twice

A contraction or a revision that has succeeded can be repeated at once. It finds nothing to do, and no
limit stands in its way, though a limit may well forbid other questions to the same base.

This does not follow from what the answers mean. A check needs as much room as its clauses take, so the
repeated one has to look at clauses that a check of the first time has looked at, or at some of them.
Three things see to that. The names are known, so the conversion gives the same clauses again; `¬¬φ` and
`φ` have the same clauses, so the belief that a revision adds brings no new ones to the check for `¬φ`;
and what a search keeps is a selection that it has looked at.

* `Session.DoneWith` — what the checks for a formula answer from now on
* `doneWith_of_contract`, `DoneWith.expandWith` — it comes about by a contraction, and the expansion of a
  revision keeps it
* `DoneWith.contract_again`, `DoneWith.revise_again`, `DoneWith.entails`, `DoneWith.isConsistent` — what follows
  for each operation
* `contraction_and_revision_are_stable` — all of it
-/

namespace BeliefRevision

/-- What a contraction answers right after the same contraction gave this answer. -/
def Contraction.again (outcome : Contraction) : Contraction :=
  if outcome = .tautology then .tautology else .notEntailed

/-- The checks that a contraction by the target makes have the answers that they had in the end when it
came to this outcome. -/
structure Session.DoneWith (s : Session) (target : Formula) (outcome : Contraction)
    (negated : ClauseSet) : Prop where
  clauses : (Formula.not target).clauses s.base.settings.clauseLimit.value s.base.vocabulary =
    (.ok negated, s.base.vocabulary)
  refused : outcome ≠ .tautology → s.base.settings.entailment s.base.entries negated = .ok false
  valid : outcome = .tautology → s.base.settings.entailment s.base.entries negated = .ok true ∧
    s.base.settings.entailment [] negated = .ok true

section

variable {s t : Session} {target φ : Formula} {outcome : Contraction} {negated : ClauseSet}

/-- **After a contraction** its checks have these answers. -/
theorem Operation.doneWith_of_contract (h : (contract target).perform s = (.ok outcome, t)) :
    ∃ negated, t.DoneWith target outcome negated := by
  rw [perform] at h
  cases contract_run h with
  | @notEntailed negated w tally hnegated hall =>
    exact ⟨negated, Formula.clauses_rerun hnegated List.prefix_rfl, fun _ => hall, by simp⟩
  | @tautology negated w tally hnegated hall hnone =>
    exact ⟨negated, Formula.clauses_rerun hnegated List.prefix_rfl, fun hne => absurd rfl hne,
      fun _ => ⟨hall, hnone⟩⟩
  | @contracted negated w tally search kept remainder hnegated hall hnone hlimit hsearch hkept
      hremainder =>
    refine ⟨negated, Formula.clauses_rerun hnegated List.prefix_rfl, fun _ => ?_, by simp⟩
    show s.base.settings.entailment remainder negated = .ok false
    subst hkept hremainder
    cases hbest : search.best with
    | none => exact hnone
    | some pair => exact Search.descend_refused hsearch pair hbest

namespace Session.DoneWith

/-- Only beliefs and settings count, as long as no name is lost. -/
theorem later (h : s.DoneWith target outcome negated) (hsteps : s.Steps t)
    (hentries : t.base.entries = s.base.entries) : t.DoneWith target outcome negated := by
  refine ⟨?_, ?_, ?_⟩
  · rw [hsteps.settings]
    exact Formula.clauses_rerun h.clauses hsteps.grow
  · rw [hsteps.settings, hentries]
    exact h.refused
  · rw [hsteps.settings, hentries]
    exact h.valid

theorem contraction_eq (h : s.DoneWith target outcome negated) :
    s.base.settings.contraction s.base.entries negated = .ok outcome.again := by
  by_cases houtcome : outcome = .tautology
  · obtain ⟨hall, hnone⟩ := h.valid houtcome
    rw [Contraction.again, if_pos houtcome]
    exact Settings.contraction_tautology hall hnone
  · rw [Contraction.again, if_neg houtcome]
    exact Settings.contraction_notEntailed (h.refused houtcome)

/-- **The contraction can be repeated**, and changes nothing. -/
theorem contract_again (h : s.DoneWith target outcome negated) :
    ∃ u, (Operation.contract target).perform s = (.ok outcome.again, u) ∧
      u.base.entries = s.base.entries ∧ u.DoneWith target outcome negated := by
  obtain ⟨u, hrun⟩ : ∃ u, Operation.contract target s = (.ok outcome.again, u) :=
    ⟨_, Prod.ext ((Operation.contract_answer h.clauses).trans h.contraction_eq) rfl⟩
  have hentries : u.base.entries = s.base.entries := by
    have hagain : ∀ removed, outcome.again ≠ .contracted removed := by
      intro removed
      unfold Contraction.again
      split <;> simp
    generalize outcome.again = answer at hrun hagain
    cases Operation.contract_run hrun with
    | notEntailed | tautology => rfl
    | contracted => exact absurd rfl (hagain _)
  have hrun' : (Operation.contract target).perform s = (.ok outcome.again, u) := by
    rw [Operation.perform, hrun]
  exact ⟨u, hrun', hentries, h.later ((Operation.proceeds_contract target).steps hrun') hentries⟩

theorem entails (h : s.DoneWith target outcome negated) (houtcome : outcome ≠ .tautology) :
    ∃ u, (Operation.entails target).perform s = (.ok false, u) ∧
      u.base.entries = s.base.entries ∧ u.DoneWith target outcome negated := by
  obtain ⟨u, hrun⟩ : ∃ u, (Operation.entails target).perform s = (.ok false, u) :=
    ⟨_, Prod.ext ((Operation.entails_answer h.clauses).trans (h.refused houtcome)) rfl⟩
  have hentries := (Operation.entails_run hrun).1
  exact ⟨u, hrun, hentries, h.later ((Operation.proceeds_entails target).steps hrun) hentries⟩

/-- The clauses of the beliefs alone are some of those of the check. -/
theorem isConsistent (h : s.DoneWith target outcome negated) (houtcome : outcome ≠ .tautology) :
    (Operation.isConsistent.perform s).1 = .ok true := by
  have hbeliefs : s.base.settings.entailment s.base.entries ∅ = .ok false := by
    refine Settings.entailment_of_subset (h.refused houtcome) fun c hc => .inr ?_
    exact hc.resolve_left Std.ExtTreeSet.not_mem_empty
  rw [Operation.isConsistent_answer, hbeliefs]
  rfl

/-- **To believe `φ` brings no clauses to the check for `¬φ`** that were not there before. -/
theorem expandWith (h : s.DoneWith (.not φ) outcome negated) {priority : Nat} {expansion : Expansion}
    (hrun : Operation.expandWith φ priority s = (.ok expansion, t)) :
    t.DoneWith (.not φ) outcome negated := by
  cases Operation.expandWith_run hrun with
  | duplicate => exact ⟨h.clauses, h.refused, h.valid⟩
  | @added clauses w hpriority hnew hclauses =>
    have hknown := h.clauses
    rw [Formula.clauses_not_not, hclauses] at hknown
    cases hknown
    have hcheck : s.base.settings.entailment (s.base.entries ++ [⟨φ, priority, negated⟩]) negated =
        s.base.settings.entailment s.base.entries negated := by
      refine Settings.entailment_congr fun c => ?_
      simp only [List.mem_append, List.mem_singleton]
      grind
    exact ⟨h.clauses, fun hne => hcheck.trans (h.refused hne),
      fun hvalid => ⟨hcheck.trans (h.valid hvalid).1, (h.valid hvalid).2⟩⟩

end Session.DoneWith

/-- **After a revision** the checks for the negation of the formula have these answers, too, and the
formula is believed. -/
theorem Operation.doneWith_of_revise {priority : Nat} {revision : Revision}
    (h : (revise φ priority).perform s = (.ok revision, t)) :
    φ ∈ t.base.formulas ∧ ∃ negated, t.DoneWith (.not φ) revision.contraction negated := by
  rw [perform] at h
  obtain ⟨u, v, hcontract, hexpand, rfl⟩ := revise_eq_ok h
  obtain ⟨negated, hu⟩ := doneWith_of_contract (by rw [perform, hcontract])
  have hv := hu.expandWith hexpand
  exact ⟨(expandWith_eq_ok hexpand).1, negated, hv.clauses, hv.refused, hv.valid⟩

/-- **The revision can be repeated** with any priority, and changes nothing. -/
theorem Session.DoneWith.revise_again (h : s.DoneWith (.not φ) outcome negated)
    (hmem : φ ∈ s.base.formulas) {priority : Nat}
    (hpriority : Parameter.defaultPriority.Admits priority) :
    ∃ u, (Operation.revise φ priority).perform s = (.ok ⟨outcome.again, .duplicate⟩, u) ∧
      u.base.entries = s.base.entries := by
  obtain ⟨u, hcontract, hentries, _⟩ := h.contract_again
  rw [Operation.perform] at hcontract
  have hmem' : u.base.contains φ = true := by
    rw [Base.contains, hentries]
    exact Base.contains_iff.mpr hmem
  have hexpand : Operation.expandWith φ priority u = (.ok .duplicate, u.send (.duplicate φ)) := by
    rw [Operation.expandWith, if_pos hpriority, Operation.base_bind, if_pos hmem']
    rfl
  refine ⟨(u.send (.duplicate φ)).send (.revised φ), ?_, hentries⟩
  rw [Operation.perform, Operation.revise_of_contract hpriority hcontract hexpand]

end

/-! ## Stability -/

/-- **Contraction and revision are stable and cannot fail when they are repeated.** A contraction that
gave up beliefs leaves a base that is found not to entail the formula, by a question as well as by another
contraction, in whatever order they come. A revision that succeeded can be repeated with any
admissible priority: the contraction in it finds what it found before, if the formula cannot hold, and
otherwise nothing to give up, the expansion finds the formula, and the beliefs stay as they are. Unless the
formula cannot hold, the base is found consistent. -/
theorem contraction_and_revision_are_stable (s : Session) (φ : Formula) :
    (∀ removed t, (Operation.contract φ).perform s = (.ok (.contracted removed), t) →
      (∃ u, (Operation.entails φ).perform t = (.ok false, u) ∧ u.base.entries = t.base.entries ∧
        ∃ v, (Operation.contract φ).perform u = (.ok .notEntailed, v) ∧
          v.base.entries = t.base.entries) ∧
      ∃ u, (Operation.contract φ).perform t = (.ok .notEntailed, u) ∧ u.base.entries = t.base.entries) ∧
    ∀ p revision t, (Operation.revise φ p).perform s = (.ok revision, t) →
      (∀ q, Parameter.defaultPriority.Admits q →
        ∃ u, (Operation.revise φ q).perform t =
            (.ok ⟨if revision.contraction = .tautology then .tautology else .notEntailed,
              .duplicate⟩, u) ∧
          u.base.entries = t.base.entries) ∧
      (revision.contraction ≠ .tautology → (Operation.isConsistent.perform t).1 = .ok true) := by
  constructor
  · intro removed t hrun
    obtain ⟨negated, ht⟩ := Operation.doneWith_of_contract hrun
    obtain ⟨u, hentails, hentries, hu⟩ := ht.entails (by simp)
    obtain ⟨v, hcontract, hentries', _⟩ := hu.contract_again
    obtain ⟨w, hcontract', hentries'', _⟩ := ht.contract_again
    exact ⟨⟨u, hentails, hentries, v, hcontract, hentries'.trans hentries⟩, w, hcontract', hentries''⟩
  · intro p revision t hrun
    obtain ⟨hmem, negated, ht⟩ := Operation.doneWith_of_revise hrun
    exact ⟨fun q hpriority => ht.revise_again hmem hpriority, ht.isConsistent⟩

/-- With `p` and `p → q` and no more room than a contraction by `q` needs. After a revision by `¬q` the base
is consistent and another one has nothing to give up; after one by `⊥` it is not. -/
theorem contraction_and_revision_are_stable_of_modus_ponens :
    let p : Formula := .atom "p"
    let q : Formula := .atom "q"
    let s := Session.afterAll {} [.expandWith p 2, .expandWith (.binary .implies p q) 2,
      .configure (.clauseLimit 5), .configure (.contractionLimit 2)]
    (∃ t u v, (Operation.contract q).perform s = (.ok (.contracted [.binary .implies p q]), t) ∧
        (Operation.entails q).perform t = (.ok false, u) ∧
        (Operation.contract q).perform t = (.ok .notEntailed, v)) ∧
      (∃ t u, (Operation.revise (.not q) 3).perform s =
          (.ok ⟨.contracted [.binary .implies p q], .added⟩, t) ∧
        (Operation.revise (.not q) 5).perform t = (.ok ⟨.notEntailed, .duplicate⟩, u) ∧
        u.base.entries = t.base.entries ∧ (Operation.isConsistent.perform t).1 = .ok true) ∧
      ∃ t u, (Operation.revise (.constant false) 3).perform s = (.ok ⟨.tautology, .added⟩, t) ∧
        (Operation.revise (.constant false) 5).perform t = (.ok ⟨.tautology, .duplicate⟩, u) ∧
        u.base.entries = t.base.entries := by
  intro p q s
  have hgives : ((Operation.contract q).perform s).1 = .ok (.contracted [.binary .implies p q]) := by
    decide +kernel
  have hrevises : ((Operation.revise (.not q) 3).perform s).1 =
      .ok ⟨.contracted [.binary .implies p q], .added⟩ := by decide +kernel
  have hfalse : ((Operation.revise (.constant false) 3).perform s).1 = .ok ⟨.tautology, .added⟩ := by
    decide +kernel
  have hpriority : Parameter.defaultPriority.Admits 5 := by decide
  clear_value s
  refine ⟨?_, ?_, ?_⟩
  · obtain ⟨hcontract, _⟩ := contraction_and_revision_are_stable s q
    obtain ⟨⟨u, hentails, _⟩, v, hagain, _⟩ := hcontract _ _ (Prod.ext hgives rfl)
    exact ⟨_, u, v, Prod.ext hgives rfl, hentails, hagain⟩
  · obtain ⟨_, hrevise⟩ := contraction_and_revision_are_stable s (.not q)
    obtain ⟨hagain, hconsistent⟩ := hrevise 3 _ _ (Prod.ext hrevises rfl)
    obtain ⟨u, hrun, hentries⟩ := hagain 5 hpriority
    exact ⟨_, u, Prod.ext hrevises rfl, hrun, hentries, hconsistent (by simp)⟩
  · obtain ⟨_, hrevise⟩ := contraction_and_revision_are_stable s (.constant false)
    obtain ⟨hagain, _⟩ := hrevise 3 _ _ (Prod.ext hfalse rfl)
    obtain ⟨u, hrun, hentries⟩ := hagain 5 hpriority
    exact ⟨_, u, Prod.ext hfalse rfl, hrun, hentries⟩

end BeliefRevision
