import BeliefRevision.Proofs.Atomicity
import BeliefRevision.Proofs.Interruption

/-!
# Why queries fail

A query that gives no answer has run into a limit: a conversion or a saturation with too many clauses,
or a contraction of too many beliefs. Only where a priority is given there is another cause, and a
priority that is admitted is none.

* `Error.IsLimit`, `Operation.Limited` — the causes, and operations that have no others
* `limited_entails`, `limited_contract`, `limited_revise` — the queries
-/

namespace BeliefRevision

/-- The error is one of the limits. -/
def Error.IsLimit : Error → Prop
  | .contractionLimit | .conversionLimit | .saturationLimit => True
  | _ => False

/-- A conversion fails for the number of clauses only. -/
theorem Formula.eq_conversionLimit {φ : Formula} {limit : Nat} {v w : Vocabulary} {error : Error}
    (h : φ.clauses limit v = (.error error, w)) : error = .conversionLimit :=
  NormalForm.eq_conversionLimit h

namespace Operation

variable {α β : Type}

/-- When the operation fails, a limit is the cause. -/
def Limited (operation : Operation α) : Prop :=
  ∀ s error t, operation s = (.error error, t) → error.IsLimit

theorem Certain.limited {x : Operation α} (hx : Certain x) : Limited x := by
  intro s error t h
  obtain ⟨a, ha⟩ := hx s
  rw [h] at ha
  cases ha

theorem limited_throw {error : Error} (herror : error.IsLimit) :
    Limited (throw error : Operation α) := by
  intro s error' t h
  cases h
  exact herror

theorem limited_bind {x : Operation α} {f : α → Operation β} (hx : Limited x)
    (hf : ∀ a, Limited (f a)) : Limited (x >>= f) := by
  intro s error t h
  rcases hrun : x s with ⟨error' | a, u⟩
  · rw [Computation.bind_of_error hrun] at h
    cases h
    exact hx s error t hrun
  · rw [Computation.bind_of_ok hrun] at h
    exact hf a u error t h

theorem limited_base : Limited base := Certain.limited fun s => ⟨s.base, rfl⟩

theorem limited_clausesOf (φ : Formula) : Limited (clausesOf φ) := by
  intro s error t h
  rw [clausesOf_run] at h
  rw [Formula.eq_conversionLimit (Prod.ext (Prod.mk.inj h).1 rfl)]
  trivial

theorem limited_entailedBy (entries : List Entry) (negatedGoal : ClauseSet) :
    Limited (entailedBy entries negatedGoal) := by
  unfold entailedBy
  refine limited_bind (certain_modifyBase _).limited fun _ => ?_
  refine limited_bind limited_base fun b => ?_
  dsimp only
  rcases hrun : (Saturation.start b.settings.clauseLimit.value b.settings.tautologyElimination.value
    (negatedGoal ∪ ClauseSet.unions (entries.map Entry.clauses)).toList).saturate
    with ⟨error | verdict, t⟩
  · obtain rfl := Saturation.eq_saturationLimit hrun
    exact limited_throw trivial
  · exact (certain_bind (certain_modifyBase _) fun _ => certain_pure _).limited

/-! ## Searches -/

section

variable (entries : List Entry) (negatedGoal : ClauseSet)

theorem limited_searchAmong (items : Enumeration (List Nat)) (search : Search) :
    Limited (searchAmong entries negatedGoal items search) := by
  induction items generalizing search with
  | done => exact (certain_pure search).limited
  | item positions rest ih =>
    exact limited_bind (limited_entailedBy _ _) fun entailed => ih () _

theorem limited_searchBelow (size : Nat) (search : Search) :
    Limited (searchBelow entries negatedGoal size search) := by
  induction size generalizing search with
  | zero => exact (certain_pure search).limited
  | succ size ih =>
    refine limited_bind (limited_searchAmong _ _ _ _) fun search => ?_
    split
    · exact (certain_pure search).limited
    · exact ih search

end

/-! ## The operations -/

theorem limited_entails (φ : Formula) : Limited (entails φ) := by
  refine limited_bind limited_base fun before => ?_
  refine limited_bind (limited_clausesOf _) fun negated => ?_
  refine limited_bind limited_base fun base => ?_
  refine limited_bind (limited_entailedBy _ _) fun entailed => Certain.limited ?_
  refine certain_bind (certain_emitWork _) fun _ => ?_
  exact certain_bind (certain_emit _) fun _ => certain_pure _

theorem limited_contract (φ : Formula) : Limited (contract φ) := by
  refine limited_bind limited_base fun before => ?_
  refine limited_bind (limited_clausesOf _) fun negated => ?_
  refine limited_bind limited_base fun base => ?_
  refine limited_bind (limited_entailedBy _ _) fun entailed => ?_
  split
  · refine limited_bind (limited_entailedBy _ _) fun valid => ?_
    split
    · exact (certain_rejectContraction _ _ _).limited
    · refine limited_bind limited_base fun base' => ?_
      split
      · exact limited_throw trivial
      · refine limited_bind (limited_searchBelow _ _ _ _) fun search => Certain.limited ?_
        refine certain_bind (certain_modifyBase _) fun _ => ?_
        refine certain_bind (certain_modifyBase _) fun _ => ?_
        refine certain_bind (certain_emit _) fun _ => ?_
        refine certain_bind (certain_emit _) fun _ => ?_
        refine certain_bind (certain_emitWork _) fun _ => ?_
        exact certain_bind (certain_emit _) fun _ => certain_pure _
  · exact (certain_rejectContraction _ _ _).limited

theorem limited_expandWith (φ : Formula) {priority : Nat}
    (hpriority : Parameter.defaultPriority.Admits priority) : Limited (expandWith φ priority) := by
  intro s error t h
  cases expandWith_run h with
  | invalidPriority hnot => exact absurd hpriority hnot
  | failed _ _ hclauses =>
    rw [Formula.eq_conversionLimit hclauses]
    trivial

theorem limited_revise (φ : Formula) {priority : Nat}
    (hpriority : Parameter.defaultPriority.Admits priority) : Limited (revise φ priority) := by
  unfold revise
  rw [if_pos hpriority]
  refine limited_bind (limited_contract _) fun contraction => ?_
  refine limited_bind (limited_expandWith φ hpriority) fun expansion => Certain.limited ?_
  exact certain_bind (certain_emit _) fun _ => certain_pure _

end Operation

end BeliefRevision
