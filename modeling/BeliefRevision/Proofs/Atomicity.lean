import BeliefRevision.Proofs.Names
import BeliefRevision.Proofs.Reachable

/-!
# Operations that fail change nothing

An operation that fails leaves the beliefs, the settings and the events as they were; at most the
vocabulary has learned names. The reason is an order that the operations keep to: everything that can
fail comes first and only counts work and converts formulas, and what comes after it cannot fail.

A revision seems to break the order, since it expands a base that was contracted before. But to
contract by `¬φ` is to convert `¬¬φ`, whose clauses are those of `φ`, so that the expansion by `φ` finds
its conversion done.

* `Quiet`, `Certain`, `Atomic` — operations of the first part, of the second, and of both
* `atomic_bind` — the order of the two parts
* `expandWith_of_contract` — the second half of a revision cannot fail
* `failing_operations_are_atomic` — all of it
-/

namespace BeliefRevision

/-- The second session is the first, but for the counts and for some of the names, which it has learned
at the end of its vocabulary. -/
structure Session.LeftAlone (names : List String) (s t : Session) : Prop where
  entries : t.base.entries = s.base.entries
  settings : t.base.settings = s.base.settings
  events : t.events = s.events
  vocabulary : ∃ learned, t.base.vocabulary.names = s.base.vocabulary.names ++ learned ∧
    ∀ name ∈ learned, name ∈ names

namespace Session.LeftAlone

variable {names : List String} {s t u : Session}

theorem refl (names : List String) (s : Session) : s.LeftAlone names s :=
  ⟨rfl, rfl, rfl, [], (List.append_nil _).symm, by simp⟩

theorem withTally (names : List String) (s : Session) (tally : Tally) :
    s.LeftAlone names (s.withTally tally) :=
  ⟨rfl, rfl, rfl, [], (List.append_nil _).symm, by simp⟩

theorem trans (hst : s.LeftAlone names t) (htu : t.LeftAlone names u) : s.LeftAlone names u where
  entries := htu.entries.trans hst.entries
  settings := htu.settings.trans hst.settings
  events := htu.events.trans hst.events
  vocabulary := by
    obtain ⟨first, hfirst, hmem⟩ := hst.vocabulary
    obtain ⟨second, hsecond, hmem'⟩ := htu.vocabulary
    refine ⟨first ++ second, by rw [hsecond, hfirst, List.append_assoc], ?_⟩
    exact List.forall_mem_append.mpr ⟨hmem, hmem'⟩

end Session.LeftAlone

namespace Operation

variable {α β : Type} {names : List String}

/-! ## What comes first -/

/-- The operation, successful or not, leaves a session alone. -/
def Quiet (names : List String) (operation : Operation α) : Prop :=
  ∀ s : Session, s.LeftAlone names (operation s).2

/-- The operation does not fail. -/
def Certain (operation : Operation α) : Prop := ∀ s : Session, ∃ a, (operation s).1 = .ok a

/-- The operation leaves a session alone when it fails. -/
def Atomic (names : List String) (operation : Operation α) : Prop :=
  ∀ s error t, operation.perform s = (.error error, t) → s.LeftAlone names t

theorem Quiet.atomic {x : Operation α} (hx : Quiet names x) : Atomic names x := by
  intro s error t h
  have hleft := hx s
  rwa [show x s = (.error error, t) from h] at hleft

theorem Certain.atomic {x : Operation α} (hx : Certain x) : Atomic names x := by
  intro s error t h
  obtain ⟨a, ha⟩ := hx s
  rw [show x s = (.error error, t) from h] at ha
  cases ha

/-- What leaves a session alone may stand in front. -/
theorem atomic_bind {x : Operation α} {f : α → Operation β} (hx : Quiet names x)
    (hf : ∀ a, Atomic names (f a)) : Atomic names (x >>= f) := by
  intro s error t h
  have hleft := hx s
  rcases hrun : x s with ⟨error' | a, u⟩
  · rw [hrun] at hleft
    rw [perform, Computation.bind_of_error hrun] at h
    cases h
    exact hleft
  · rw [hrun] at hleft
    rw [perform, Computation.bind_of_ok hrun] at h
    exact hleft.trans (hf a u error t h)

theorem quiet_throw (error : Error) : Quiet names (throw error : Operation α) :=
  fun s => .refl names s

theorem quiet_base : Quiet names base := fun s => .refl names s

theorem quiet_clausesOf (φ : Formula) : Quiet φ.names (clausesOf φ) :=
  fun s => ⟨rfl, rfl, rfl, φ.clauses_learn _ s.base.vocabulary⟩

theorem OnlyCounts.quiet {x : Operation α} (hx : OnlyCounts x) : Quiet names x := by
  intro s
  obtain ⟨tally, hcounted⟩ := hx s
  rw [hcounted]
  exact .withTally names s tally

/-! ## What comes after it -/

theorem certain_pure (a : α) : Certain (pure a) := fun _ => ⟨a, rfl⟩

theorem certain_bind {x : Operation α} {f : α → Operation β} (hx : Certain x)
    (hf : ∀ a, Certain (f a)) : Certain (x >>= f) := by
  intro s
  obtain ⟨a, ha⟩ := hx s
  obtain ⟨b, hb⟩ := hf a (x s).2
  refine ⟨b, ?_⟩
  rwa [Computation.bind_of_ok (Prod.ext ha rfl)]

theorem certain_emit (event : Event) : Certain (emit event) := fun _ => ⟨(), rfl⟩

theorem certain_modifyBase (change : Base → Base) : Certain (modifyBase change) :=
  fun _ => ⟨(), rfl⟩

theorem certain_emitWork (before : Tally) : Certain (emitWork before) := fun _ => ⟨(), rfl⟩

theorem certain_rejectContraction (target : Formula) (before : Tally) (outcome : Contraction) :
    Certain (rejectContraction target before outcome) := fun _ => ⟨outcome, rfl⟩

/-! ## The operations -/

theorem atomic_expandWith (φ : Formula) (priority : Nat) : Atomic φ.names (expandWith φ priority) := by
  unfold expandWith
  split
  · refine atomic_bind quiet_base fun base => ?_
    split
    · exact (certain_bind (certain_emit _) fun _ => certain_pure _).atomic
    · refine atomic_bind (quiet_clausesOf φ) fun clauses => Certain.atomic ?_
      refine certain_bind (certain_modifyBase _) fun _ => ?_
      exact certain_bind (certain_emit _) fun _ => certain_pure _
  · exact (quiet_throw _).atomic

theorem atomic_expand (φ : Formula) : Atomic φ.names (expand φ) :=
  atomic_bind quiet_base fun _ => atomic_expandWith φ _

theorem atomic_entails (φ : Formula) : Atomic φ.names (entails φ) := by
  refine atomic_bind quiet_base fun before => ?_
  refine atomic_bind (quiet_clausesOf (.not φ)) fun negated => ?_
  refine atomic_bind quiet_base fun base => ?_
  refine atomic_bind (onlyCounts_entailedBy _ _).quiet fun entailed => Certain.atomic ?_
  refine certain_bind (certain_emitWork _) fun _ => ?_
  exact certain_bind (certain_emit _) fun _ => certain_pure _

theorem atomic_isConsistent : Atomic [] isConsistent := by
  refine atomic_bind quiet_base fun before => ?_
  refine atomic_bind quiet_base fun base => ?_
  refine atomic_bind (onlyCounts_entailedBy _ _).quiet fun inconsistent => Certain.atomic ?_
  exact certain_bind (certain_emitWork _) fun _ => certain_pure _

theorem atomic_contract (φ : Formula) : Atomic φ.names (contract φ) := by
  refine atomic_bind quiet_base fun before => ?_
  refine atomic_bind (quiet_clausesOf (.not φ)) fun negated => ?_
  refine atomic_bind quiet_base fun base => ?_
  refine atomic_bind (onlyCounts_entailedBy _ _).quiet fun entailed => ?_
  split
  · refine atomic_bind (onlyCounts_entailedBy _ _).quiet fun valid => ?_
    split
    · exact (certain_rejectContraction _ _ _).atomic
    · refine atomic_bind quiet_base fun base' => ?_
      split
      · exact (quiet_throw _).atomic
      · refine atomic_bind (onlyCounts_searchBelow _ _ _ _).quiet fun search => Certain.atomic ?_
        refine certain_bind (certain_modifyBase _) fun _ => ?_
        refine certain_bind (certain_modifyBase _) fun _ => ?_
        refine certain_bind (certain_emit _) fun _ => ?_
        refine certain_bind (certain_emit _) fun _ => ?_
        refine certain_bind (certain_emitWork _) fun _ => ?_
        exact certain_bind (certain_emit _) fun _ => certain_pure _
  · exact (certain_rejectContraction _ _ _).atomic

theorem atomic_remainders (φ : Formula) : Atomic φ.names (remainders φ) := by
  refine atomic_bind quiet_base fun before => ?_
  refine atomic_bind (quiet_clausesOf (.not φ)) fun negated => ?_
  refine atomic_bind quiet_base fun base => ?_
  refine atomic_bind quiet_base fun base' => ?_
  split
  · exact (quiet_throw _).atomic
  · refine atomic_bind (onlyCounts_remaindersAmong _ _ _ _).quiet fun found => Certain.atomic ?_
    exact certain_bind (certain_emitWork _) fun _ => certain_pure _

/-! ## Revision -/

/-- A contraction that succeeds has converted the negation of its target. -/
theorem contract_converts {φ : Formula} {s t : Session} {outcome : Contraction}
    (h : contract φ s = (.ok outcome, t)) :
    ∃ negated, (Formula.not φ).clauses s.base.settings.clauseLimit.value s.base.vocabulary =
      (.ok negated, t.base.vocabulary) := by
  cases contract_run h with
  | notEntailed hnegated | tautology hnegated | contracted hnegated => exact ⟨_, hnegated⟩

/-- An expansion by a formula that was converted before succeeds. -/
theorem expandWith_of_clauses {φ : Formula} {priority : Nat} {s : Session} {clauses : ClauseSet}
    (hpriority : Parameter.defaultPriority.Admits priority)
    (hclauses : φ.clauses s.base.settings.clauseLimit.value s.base.vocabulary =
      (.ok clauses, s.base.vocabulary)) :
    ∃ expansion t, expandWith φ priority s = (.ok expansion, t) := by
  rcases h : expandWith φ priority s with ⟨result, t⟩
  cases expandWith_run h with
  | invalidPriority hnot => exact absurd hpriority hnot
  | duplicate => exact ⟨_, _, rfl⟩
  | failed _ _ hfailed =>
    rw [hclauses] at hfailed
    cases hfailed
  | added => exact ⟨_, _, rfl⟩

/-- **After a contraction by the negation of a formula, the expansion by the formula succeeds.** -/
theorem expandWith_of_contract {φ : Formula} {priority : Nat} {s t : Session}
    {outcome : Contraction} (hpriority : Parameter.defaultPriority.Admits priority)
    (h : contract (.not φ) s = (.ok outcome, t)) :
    ∃ expansion u, expandWith φ priority t = (.ok expansion, u) := by
  obtain ⟨clauses, hclauses⟩ := contract_converts h
  rw [Formula.clauses_not_not] at hclauses
  have hsettings : t.base.settings = s.base.settings := by
    have hsteps := proceeds_contract (.not φ) s
    rw [h] at hsteps
    exact Session.Steps.settings hsteps
  have hagain := Formula.clauses_rerun hclauses List.prefix_rfl
  rw [← hsettings] at hagain
  exact expandWith_of_clauses hpriority hagain

theorem revise_of_contract {φ : Formula} {priority : Nat} {s t u : Session} {outcome : Contraction}
    {expansion : Expansion} (hpriority : Parameter.defaultPriority.Admits priority)
    (hcontract : contract (.not φ) s = (.ok outcome, t))
    (hexpand : expandWith φ priority t = (.ok expansion, u)) :
    revise φ priority s = (.ok ⟨outcome, expansion⟩, u.send (.revised φ)) := by
  unfold revise
  rw [if_pos hpriority, Computation.bind_of_ok hcontract, Computation.bind_of_ok hexpand]
  rfl

theorem atomic_revise (φ : Formula) (priority : Nat) : Atomic φ.names (revise φ priority) := by
  intro s error t h
  by_cases hpriority : Parameter.defaultPriority.Admits priority
  · rcases hcontract : contract (.not φ) s with ⟨error' | outcome, u⟩
    · rw [perform, revise, if_pos hpriority, Computation.bind_of_error hcontract] at h
      cases h
      refine atomic_contract (.not φ) s error t ?_
      rw [perform, hcontract]
    · obtain ⟨expansion, v, hexpand⟩ := expandWith_of_contract hpriority hcontract
      rw [perform, revise_of_contract hpriority hcontract hexpand] at h
      cases h
  · rw [perform, revise, if_neg hpriority] at h
    cases h
    exact .refl _ s

/-- **Operations that fail are atomic on the beliefs.** They leave the beliefs, the settings and the
events as they were, and the vocabulary has at most learned names of the formula in question. In
particular a revision does not fail once its contraction has succeeded. -/
theorem failing_operations_are_atomic (φ : Formula) (priority : Nat) :
    Atomic φ.names (expand φ) ∧ Atomic φ.names (expandWith φ priority) ∧
      Atomic φ.names (entails φ) ∧ Atomic [] isConsistent ∧ Atomic φ.names (clausesOf φ) ∧
      Atomic φ.names (contract φ) ∧ Atomic φ.names (remainders φ) ∧
      Atomic φ.names (revise φ priority) ∧
      ∀ s outcome t, (contract (.not φ)).perform s = (.ok outcome, t) →
        Parameter.defaultPriority.Admits priority →
          ∃ expansion u, (expandWith φ priority).perform t = (.ok expansion, u) ∧
            (revise φ priority).perform s = (.ok ⟨outcome, expansion⟩, u.send (.revised φ)) := by
  refine ⟨atomic_expand φ, atomic_expandWith φ priority, atomic_entails φ, atomic_isConsistent,
    (quiet_clausesOf φ).atomic, atomic_contract φ, atomic_remainders φ, atomic_revise φ priority, ?_⟩
  intro s outcome t hcontract hpriority
  rw [perform] at hcontract
  obtain ⟨expansion, u, hexpand⟩ := expandWith_of_contract hpriority hcontract
  refine ⟨expansion, u, ?_⟩
  constructor
  · rw [perform, hexpand]
  · rw [perform, revise_of_contract hpriority hcontract hexpand]

/-- With a limit of one clause a revision by `p ∧ q` fails, after its conversion has learned `q`. -/
theorem failing_operations_are_atomic_for_conjunction :
    let p : Formula := .atom "p"
    let φ : Formula := .binary .and p (.atom "q")
    let s := Session.afterAll {} [.expand p, .configure (.clauseLimit 1)]
    ∃ t, (revise φ 3).perform s = (.error .conversionLimit, t) ∧ s.LeftAlone φ.names t ∧
      s.base.vocabulary.names = ["p"] ∧ t.base.vocabulary.names = ["p", "q"] := by
  intro p φ s
  have hanswer : ((revise φ 3).perform s).1 = .error .conversionLimit := by decide +kernel
  have hlearned : ((revise φ 3).perform s).2.base.vocabulary.names = ["p", "q"] := by
    decide +kernel
  have hbefore : s.base.vocabulary.names = ["p"] := by decide +kernel
  obtain ⟨_, _, _, _, _, _, _, hrevise, _⟩ := failing_operations_are_atomic φ 3
  rcases hrun : (revise φ 3).perform s with ⟨result, t⟩
  rw [hrun] at hanswer hlearned
  subst hanswer
  exact ⟨t, rfl, hrevise s .conversionLimit t hrun, hbefore, hlearned⟩

end Operation

end BeliefRevision
