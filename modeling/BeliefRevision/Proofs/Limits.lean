import BeliefRevision.Base.Remainders
import BeliefRevision.Base.Revision
import BeliefRevision.Proofs.Reachable
import BeliefRevision.Proofs.Room

/-!
# Limits withhold answers and do not change them

An operation that answers under the limits of a base gives the same answer under higher ones, and does
the same on the way: the beliefs, the vocabulary, the counts and the events afterwards agree. So a
limit is never the reason for an answer, only for the lack of one.

Two runs of one operation are compared, on sessions that differ in the limits only. The comparison
is closed under doing one thing after the other, and every place at which a limit is read is one of
three: a conversion, a saturation, and the test on the number of beliefs.

* `RepeatedBy` — the comparison of two runs
* `repeatedBy_clausesOf`, `repeatedBy_entailedBy`, `repeatedBy_underLimit` — the three places
* `limits_only_withhold_answers` — all operations that read a limit
-/

namespace BeliefRevision

/-- The second settings are the first with limits that are at least as high. -/
structure Settings.RelaxesTo (settings relaxed : Settings) : Prop where
  defaultPriority : relaxed.defaultPriority = settings.defaultPriority
  tautologyElimination : relaxed.tautologyElimination = settings.tautologyElimination
  clauseLimit : settings.clauseLimit.value ≤ relaxed.clauseLimit.value
  contractionLimit : settings.contractionLimit.value ≤ relaxed.contractionLimit.value

/-- A saturation that answers does the same under relaxed settings, but for the limit. -/
theorem Settings.RelaxesTo.saturate {settings relaxed : Settings} (h : settings.RelaxesTo relaxed)
    {given : List Clause} {verdict : Verdict} {t : Saturation}
    (hrun : (Saturation.start settings.clauseLimit.value settings.tautologyElimination.value
      given).saturate = (.ok verdict, t)) :
    ∃ more, (Saturation.start relaxed.clauseLimit.value relaxed.tautologyElimination.value
      given).saturate = (.ok verdict, t.widen more) := by
  obtain ⟨more, hlimit⟩ := Nat.exists_eq_add_of_le h.clauseLimit
  refine ⟨more, ?_⟩
  rw [hlimit, h.tautologyElimination]
  exact Saturation.saturate_widen hrun more

namespace Operation

/-! ## Two runs -/

section

variable {α β : Type}

/-- Where the first operation answers, the second one, under relaxed settings, gives the same answer
and leaves the same behind. -/
def RepeatedBy (first second : Operation α) : Prop :=
  ∀ s relaxed a t, s.base.settings.RelaxesTo relaxed → first s = (.ok a, t) →
    t.base.settings = s.base.settings ∧
      second (s.withSettings relaxed) = (.ok a, t.withSettings relaxed)

theorem repeatedBy_pure (a : α) : RepeatedBy (pure a) (pure a) := by
  intro s relaxed b t _ hrun
  cases hrun
  exact ⟨rfl, rfl⟩

/-- Nothing is asked of an operation when the other one fails. -/
theorem repeatedBy_throw (error : Error) (second : Operation α) : RepeatedBy (throw error) second := by
  intro s relaxed a t _ hrun
  cases hrun

theorem repeatedBy_bind {x y : Operation α} {f g : α → Operation β} (hxy : RepeatedBy x y)
    (hfg : ∀ a, RepeatedBy (f a) (g a)) : RepeatedBy (x >>= f) (y >>= g) := by
  intro s relaxed b u hrelax hrun
  obtain ⟨a, t, hfirst, hthen⟩ := Computation.bind_eq_ok hrun
  obtain ⟨hsettings, hfirst'⟩ := hxy s relaxed a t hrelax hfirst
  rw [← hsettings] at hrelax
  obtain ⟨hsettings', hthen'⟩ := hfg a t relaxed b u hrelax hthen
  refine ⟨hsettings'.trans hsettings, ?_⟩
  rw [Computation.bind_of_ok hfirst', hthen']

/-- What reads the base reads the same in both runs, but for the settings. -/
theorem repeatedBy_base_bind {f g : Base → Operation β}
    (hfg : ∀ (b : Base) (relaxed : Settings), b.settings.RelaxesTo relaxed →
      RepeatedBy (f b) (g { b with settings := relaxed })) :
    RepeatedBy (base >>= f) (base >>= g) :=
  fun s relaxed b t hrelax hrun => hfg s.base relaxed hrelax s relaxed b t hrelax hrun

theorem repeatedBy_emit (event : Event) : RepeatedBy (emit event) (emit event) := by
  intro s relaxed a t _ hrun
  cases hrun
  exact ⟨rfl, rfl⟩

/-- A change that neither reads the settings nor makes others. -/
theorem repeatedBy_modifyBase {change : Base → Base}
    (hkeeps : ∀ b, (change b).settings = b.settings)
    (hblind : ∀ (b : Base) (relaxed : Settings),
      change { b with settings := relaxed } = { change b with settings := relaxed }) :
    RepeatedBy (modifyBase change) (modifyBase change) := by
  intro s relaxed a t _ hrun
  cases hrun
  refine ⟨hkeeps s.base, ?_⟩
  show (_, { s.withSettings relaxed with base := change { s.base with settings := relaxed } }) = _
  rw [hblind]
  rfl

theorem repeatedBy_modifyTally (change : Tally → Tally) :
    RepeatedBy (modifyTally change) (modifyTally change) :=
  repeatedBy_modifyBase (fun _ => rfl) fun _ _ => rfl

theorem repeatedBy_emitWork (before : Tally) : RepeatedBy (emitWork before) (emitWork before) :=
  repeatedBy_base_bind fun _ _ _ => repeatedBy_bind (repeatedBy_emit _) fun _ => repeatedBy_emit _

end

/-! ## Where limits are read -/

theorem repeatedBy_clausesOf (φ : Formula) : RepeatedBy (clausesOf φ) (clausesOf φ) := by
  intro s relaxed clauses t hrelax hrun
  rw [clausesOf_run] at hrun
  rcases hconvert : φ.clauses s.base.settings.clauseLimit.value s.base.vocabulary
    with ⟨answer, w⟩
  rw [hconvert] at hrun
  cases hrun
  refine ⟨rfl, ?_⟩
  have hagain : φ.clauses (s.withSettings relaxed).base.settings.clauseLimit.value
      (s.withSettings relaxed).base.vocabulary = (.ok clauses, w) :=
    Formula.clauses_of_limit_le hconvert hrelax.clauseLimit
  rw [clausesOf_run, hagain]
  rfl

theorem repeatedBy_entailedBy (entries : List Entry) (negatedGoal : ClauseSet) :
    RepeatedBy (entailedBy entries negatedGoal) (entailedBy entries negatedGoal) := by
  unfold entailedBy
  refine repeatedBy_bind (repeatedBy_modifyTally _) fun _ => ?_
  refine repeatedBy_base_bind fun b relaxed hrelax => ?_
  dsimp only
  rcases hrun : (Saturation.start b.settings.clauseLimit.value b.settings.tautologyElimination.value
    (negatedGoal ∪ ClauseSet.unions (entries.map Entry.clauses)).toList).saturate
    with ⟨error | verdict, t⟩
  · exact repeatedBy_throw error _
  · -- the wider saturation has made the same passes and found the same resolvents
    obtain ⟨more, hwide⟩ := hrelax.saturate hrun
    rw [hwide]
    exact repeatedBy_bind (repeatedBy_modifyTally _) fun _ => repeatedBy_pure _

/-- The test on the number of beliefs: what it lets through, the relaxed one does, too. -/
theorem repeatedBy_underLimit {α : Type} {settings relaxed : Settings} {count : Nat}
    {x y : Operation α} (hrelax : settings.RelaxesTo relaxed) (hxy : RepeatedBy x y) :
    RepeatedBy (if settings.contractionLimit.value < count then throw .contractionLimit else x)
      (if relaxed.contractionLimit.value < count then throw .contractionLimit else y) := by
  by_cases hlimit : settings.contractionLimit.value < count
  · rw [if_pos hlimit]
    exact repeatedBy_throw _ _
  · have hlimit' : ¬ relaxed.contractionLimit.value < count :=
      fun hbeyond => hlimit (Nat.lt_of_le_of_lt hrelax.contractionLimit hbeyond)
    rw [if_neg hlimit, if_neg hlimit']
    exact hxy

/-! ## Searches -/

section

variable (entries : List Entry) (negatedGoal : ClauseSet)

theorem repeatedBy_searchAmong (items : Enumeration (List Nat)) (search : Search) :
    RepeatedBy (searchAmong entries negatedGoal items search)
      (searchAmong entries negatedGoal items search) := by
  induction items generalizing search with
  | done => exact repeatedBy_pure search
  | item positions rest ih =>
    exact repeatedBy_bind (repeatedBy_entailedBy _ _) fun entailed => ih () _

theorem repeatedBy_searchBelow (size : Nat) (search : Search) :
    RepeatedBy (searchBelow entries negatedGoal size search)
      (searchBelow entries negatedGoal size search) := by
  induction size generalizing search with
  | zero => exact repeatedBy_pure search
  | succ size ih =>
    refine repeatedBy_bind (repeatedBy_searchAmong _ _ _ _) fun search => ?_
    split
    · exact repeatedBy_pure search
    · exact ih search

theorem repeatedBy_remaindersAmong (items : Enumeration (List Nat)) (found : List (List Nat)) :
    RepeatedBy (remaindersAmong entries negatedGoal items found)
      (remaindersAmong entries negatedGoal items found) := by
  induction items generalizing found with
  | done => exact repeatedBy_pure found
  | item positions rest ih =>
    rw [remaindersAmong]
    split
    · exact ih () found
    · refine repeatedBy_bind (repeatedBy_modifyTally _) fun _ => ?_
      exact repeatedBy_bind (repeatedBy_entailedBy _ _) fun entailed => ih () _

end

/-! ## The operations -/

theorem repeatedBy_expandWith (φ : Formula) (priority : Nat) :
    RepeatedBy (expandWith φ priority) (expandWith φ priority) := by
  unfold expandWith
  split
  · refine repeatedBy_base_bind fun b relaxed _ => ?_
    show RepeatedBy (if b.contains φ then _ else _) (if b.contains φ then _ else _)
    split
    · exact repeatedBy_bind (repeatedBy_emit _) fun _ => repeatedBy_pure _
    · refine repeatedBy_bind (repeatedBy_clausesOf φ) fun clauses => ?_
      refine repeatedBy_bind (repeatedBy_modifyBase (fun _ => rfl) fun _ _ => rfl) fun _ => ?_
      exact repeatedBy_bind (repeatedBy_emit _) fun _ => repeatedBy_pure _
  · exact repeatedBy_throw _ _

theorem repeatedBy_entails (φ : Formula) : RepeatedBy (entails φ) (entails φ) := by
  refine repeatedBy_base_bind fun before _ _ => ?_
  refine repeatedBy_bind (repeatedBy_clausesOf (.not φ)) fun negated => ?_
  refine repeatedBy_base_bind fun b _ _ => ?_
  refine repeatedBy_bind (repeatedBy_entailedBy _ _) fun entailed => ?_
  refine repeatedBy_bind (repeatedBy_emitWork _) fun _ => ?_
  exact repeatedBy_bind (repeatedBy_emit _) fun _ => repeatedBy_pure _

theorem repeatedBy_isConsistent : RepeatedBy isConsistent isConsistent := by
  refine repeatedBy_base_bind fun before _ _ => ?_
  refine repeatedBy_base_bind fun b _ _ => ?_
  refine repeatedBy_bind (repeatedBy_entailedBy _ _) fun inconsistent => ?_
  exact repeatedBy_bind (repeatedBy_emitWork _) fun _ => repeatedBy_pure _

theorem repeatedBy_rejectContraction (target : Formula) (before : Tally) (outcome : Contraction) :
    RepeatedBy (rejectContraction target before outcome)
      (rejectContraction target before outcome) := by
  refine repeatedBy_bind (repeatedBy_emit _) fun _ => ?_
  exact repeatedBy_bind (repeatedBy_emitWork _) fun _ => repeatedBy_pure _

theorem repeatedBy_contract (φ : Formula) : RepeatedBy (contract φ) (contract φ) := by
  refine repeatedBy_base_bind fun before _ _ => ?_
  refine repeatedBy_bind (repeatedBy_clausesOf (.not φ)) fun negated => ?_
  refine repeatedBy_base_bind fun b _ _ => ?_
  refine repeatedBy_bind (repeatedBy_entailedBy _ _) fun entailed => ?_
  split
  · refine repeatedBy_bind (repeatedBy_entailedBy _ _) fun valid => ?_
    split
    · exact repeatedBy_rejectContraction _ _ _
    · refine repeatedBy_base_bind fun b' relaxed hrelax => ?_
      refine repeatedBy_underLimit hrelax ?_
      refine repeatedBy_bind (repeatedBy_searchBelow _ _ _ _) fun search => ?_
      refine repeatedBy_bind (repeatedBy_modifyTally _) fun _ => ?_
      refine repeatedBy_bind (repeatedBy_modifyBase (fun _ => rfl) fun _ _ => rfl) fun _ => ?_
      refine repeatedBy_bind (repeatedBy_emit _) fun _ => ?_
      refine repeatedBy_bind (repeatedBy_emit _) fun _ => ?_
      refine repeatedBy_bind (repeatedBy_emitWork _) fun _ => ?_
      exact repeatedBy_bind (repeatedBy_emit _) fun _ => repeatedBy_pure _
  · exact repeatedBy_rejectContraction _ _ _

theorem repeatedBy_remainders (φ : Formula) : RepeatedBy (remainders φ) (remainders φ) := by
  refine repeatedBy_base_bind fun before _ _ => ?_
  refine repeatedBy_bind (repeatedBy_clausesOf (.not φ)) fun negated => ?_
  refine repeatedBy_base_bind fun b _ _ => ?_
  refine repeatedBy_base_bind fun b' relaxed hrelax => ?_
  refine repeatedBy_underLimit hrelax ?_
  refine repeatedBy_bind (repeatedBy_remaindersAmong _ _ _ _) fun found => ?_
  exact repeatedBy_bind (repeatedBy_emitWork _) fun _ => repeatedBy_pure _

theorem repeatedBy_revise (φ : Formula) (priority : Nat) :
    RepeatedBy (revise φ priority) (revise φ priority) := by
  unfold revise
  split
  · refine repeatedBy_bind (repeatedBy_contract (.not φ)) fun contraction => ?_
    refine repeatedBy_bind (repeatedBy_expandWith φ priority) fun expansion => ?_
    exact repeatedBy_bind (repeatedBy_emit _) fun _ => repeatedBy_pure _
  · exact repeatedBy_throw _ _

/-- An answer of the operation stays the answer when limits are raised, and what the operation leaves
behind stays the same: the beliefs, the vocabulary, the counts and the events. -/
def IndifferentToLimits {α : Type} (operation : Operation α) : Prop :=
  ∀ s relaxed a t, s.base.settings.RelaxesTo relaxed → operation.perform s = (.ok a, t) →
    operation.perform (s.withSettings relaxed) = (.ok a, t.withSettings relaxed)

theorem RepeatedBy.indifferent {α : Type} {operation : Operation α}
    (h : RepeatedBy operation operation) : IndifferentToLimits operation :=
  fun s relaxed a t hrelax hrun => (h s relaxed a t hrelax hrun).2

/-- **Limits decide whether there is an answer, and never which.** -/
theorem limits_only_withhold_answers (φ : Formula) (priority : Nat) :
    IndifferentToLimits (expandWith φ priority) ∧ IndifferentToLimits (entails φ) ∧
      IndifferentToLimits isConsistent ∧ IndifferentToLimits (clausesOf φ) ∧
      IndifferentToLimits (contract φ) ∧ IndifferentToLimits (remainders φ) ∧
      IndifferentToLimits (revise φ priority) :=
  ⟨(repeatedBy_expandWith φ priority).indifferent, (repeatedBy_entails φ).indifferent,
    repeatedBy_isConsistent.indifferent, (repeatedBy_clausesOf φ).indifferent,
    (repeatedBy_contract φ).indifferent, (repeatedBy_remainders φ).indifferent,
    (repeatedBy_revise φ priority).indifferent⟩

/-- A contraction of `p` and `p → q` by `q` needs room for five clauses and for two beliefs. With that
it answers as it does without a limit that matters. -/
theorem limits_only_withhold_answers_of_modus_ponens :
    let p : Formula := .atom "p"
    let q : Formula := .atom "q"
    let s := Session.afterAll {} [.expandWith p 2, .expandWith (.binary .implies p q) 2,
      .configure (.clauseLimit 5), .configure (.contractionLimit 2)]
    let tight := s.afterAll [.configure (.clauseLimit 4)]
    s.Reachable ∧ s.base.settings.RelaxesTo {} ∧
      ((contract q).perform tight).1 = .error .saturationLimit ∧
      ∃ t, (contract q).perform s = (.ok (.contracted [.binary .implies p q]), t) ∧
        (contract q).perform (s.withSettings {}) =
          (.ok (.contracted [.binary .implies p q]), t.withSettings {}) := by
  intro p q s tight
  have hreachable : s.Reachable := (Session.Reachable.start {}).afterAll _
  have hpriority : s.base.settings.defaultPriority.value = 1 := by decide +kernel
  have helimination : s.base.settings.tautologyElimination.value = true := by decide +kernel
  have hclauses : s.base.settings.clauseLimit.value = 5 := by decide +kernel
  have hbeliefs : s.base.settings.contractionLimit.value = 2 := by decide +kernel
  have htight : ((contract q).perform tight).1 = .error .saturationLimit := by decide +kernel
  have hanswer : ((contract q).perform s).1 = .ok (.contracted [.binary .implies p q]) := by
    decide +kernel
  clear_value s
  have hrelax : s.base.settings.RelaxesTo {} :=
    ⟨Setting.ext hpriority.symm, Setting.ext helimination.symm, by simp [hclauses],
      by simp [hbeliefs]⟩
  obtain ⟨_, _, _, _, hcontract, _⟩ := limits_only_withhold_answers q 1
  have hrun : (contract q).perform s =
      (.ok (.contracted [.binary .implies p q]), ((contract q).perform s).2) := Prod.ext hanswer rfl
  exact ⟨hreachable, hrelax, htight, _, hrun, hcontract s {} _ _ hrelax hrun⟩

end Operation

end BeliefRevision
