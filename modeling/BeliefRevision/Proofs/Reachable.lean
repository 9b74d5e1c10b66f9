import BeliefRevision.Proofs.Steps

/-!
# Reachable sessions

The sessions that come about from an empty base by any operations in any order, whether they succeed
or fail. The vocabulary of a base never loses a name and never renumbers one, so the clauses that
were stored with a belief stay the clauses of its formula.

* `Evolves` — what every operation keeps to
* `Reachable.recorded` — the stored clauses are those that a conversion would give now
-/

namespace BeliefRevision

/-! ## Recorded beliefs -/

/-- A conversion of the formula, within some limit, gives the clauses stored with it and meets no new
name. -/
def Entry.Recorded (v : Vocabulary) (entry : Entry) : Prop :=
  ∃ limit, entry.formula.clauses limit v = (.ok entry.clauses, v)

theorem Entry.Recorded.later {v w : Vocabulary} {entry : Entry} (h : entry.Recorded v)
    (hgrow : v.names <+: w.names) : entry.Recorded w := by
  obtain ⟨limit, hclauses⟩ := h
  exact ⟨limit, Formula.clauses_rerun hclauses hgrow⟩

theorem Entry.Recorded.expresses {v : Vocabulary} {entry : Entry} (h : entry.Recorded v) :
    v.Expresses entry.clauses entry.formula := by
  obtain ⟨limit, hclauses⟩ := h
  exact Formula.clauses_express hclauses

/-- Names are only added, at the end, and every new belief is recorded. -/
structure Base.Evolves (before after : Base) : Prop where
  vocabulary : before.vocabulary.names <+: after.vocabulary.names
  entries : ∀ entry ∈ after.entries,
    entry ∈ before.entries ∨ entry.Recorded after.vocabulary

/-! ## Operations keep to it -/

namespace Session

theorem Steps.evolves {s t : Session} (h : s.Steps t) : s.base.Evolves t.base :=
  ⟨h.grow, fun _ hentry => (h.recorded hentry).imp_right fun hclauses => ⟨_, hclauses⟩⟩

end Session

namespace Operation

/-- The operation, successful or not, lets the base evolve. -/
def Evolves {α : Type} (operation : Operation α) : Prop :=
  ∀ s : Session, s.base.Evolves (operation s).2.base

/-- A change of the settings changes nothing else. -/
theorem configure_run (change : Settings.Change) (s : Session) :
    ∃ settings, ((configure change) s).2 = s.withSettings settings := by
  unfold configure
  rw [base_bind]
  cases s.base.settings.change? change with
  | none => exact ⟨s.base.settings, rfl⟩
  | some settings => exact ⟨settings, rfl⟩

end Operation

/-! ## Reachable sessions -/

/-- What can be asked of a base. -/
inductive Action where
  | expand (φ : Formula)
  | expandWith (φ : Formula) (priority : Nat)
  | remove (φ : Formula)
  | contract (φ : Formula)
  | revise (φ : Formula) (priority : Nat)
  | readBeliefs (file : List UInt8)
  | entails (φ : Formula)
  | isConsistent
  | remainders (φ : Formula)
  | clausesOf (φ : Formula)
  | configure (change : Settings.Change)

/-- The operation that an action stands for, without its answer. -/
def Action.operation : Action → Operation Unit
  | .expand φ => Operation.forget (Operation.expand φ)
  | .expandWith φ priority => Operation.forget (Operation.expandWith φ priority)
  | .remove φ => Operation.forget (Operation.remove φ)
  | .contract φ => Operation.forget (Operation.contract φ)
  | .revise φ priority => Operation.forget (Operation.revise φ priority)
  | .readBeliefs file => Operation.forget (Operation.readBeliefs file)
  | .entails φ => Operation.forget (Operation.entails φ)
  | .isConsistent => Operation.forget Operation.isConsistent
  | .remainders φ => Operation.forget (Operation.remainders φ)
  | .clausesOf φ => Operation.forget (Operation.clausesOf φ)
  | .configure change => Operation.forget (Operation.configure change)

/-- The session after an action, whether it succeeds or fails. -/
def Action.after (action : Action) (s : Session) : Session := (action.operation.perform s).2

/-- A session that comes about from one with an empty base. -/
inductive Session.Reachable : Session → Prop where
  | start (settings : Settings) : Reachable { base := { settings } }
  | step {s : Session} (h : Reachable s) (action : Action) : Reachable (action.after s)

/-- An action goes in steps or changes the settings. -/
theorem Action.steps_or_settings (action : Action) (s : Session) :
    s.Steps (action.after s) ∨ ∃ settings, action.after s = s.withSettings settings := by
  have hsteps {α : Type} {operation : Operation α} (h : operation.Proceeds) :
      s.Steps ((Operation.forget operation) s).2 := Operation.proceeds_forget h s
  cases action with
  | expand φ => exact .inl (hsteps (Operation.proceeds_expand φ))
  | expandWith φ priority => exact .inl (hsteps (Operation.proceeds_expandWith φ priority))
  | remove φ => exact .inl (hsteps (Operation.proceeds_remove φ))
  | contract φ => exact .inl (hsteps (Operation.proceeds_contract φ))
  | revise φ priority => exact .inl (hsteps (Operation.proceeds_revise φ priority))
  | readBeliefs file => exact .inl (hsteps (Operation.proceeds_readBeliefs file))
  | entails φ => exact .inl (hsteps (Operation.proceeds_entails φ))
  | isConsistent => exact .inl (hsteps Operation.proceeds_isConsistent)
  | remainders φ => exact .inl (hsteps (Operation.proceeds_remainders φ))
  | clausesOf φ => exact .inl (hsteps (Operation.proceeds_clausesOf φ))
  | configure change =>
    obtain ⟨settings, hrun⟩ := Operation.configure_run change s
    refine .inr ⟨settings, ?_⟩
    rw [← hrun]
    exact Operation.forget_session (Operation.configure change) s

theorem Action.evolves (action : Action) : Operation.Evolves action.operation := by
  intro s
  rcases action.steps_or_settings s with hsteps | ⟨settings, hsettings⟩
  · exact hsteps.evolves
  · show s.base.Evolves (action.after s).base
    rw [hsettings]
    exact ⟨List.prefix_rfl, fun _ => .inl⟩

/-- The session after some actions, one after the other. -/
def Session.afterAll (s : Session) (actions : List Action) : Session :=
  actions.foldl (fun s action => action.after s) s

theorem Session.Reachable.afterAll {s : Session} (h : s.Reachable) (actions : List Action) :
    (s.afterAll actions).Reachable := by
  induction actions generalizing s with
  | nil => exact h
  | cons action actions ih => exact ih (h.step action)

/-- The operation of an action, successful or not, leads to a reachable session. -/
theorem Session.Reachable.perform {α : Type} {s t : Session} (h : s.Reachable) (action : Action)
    {operation : Operation α} (haction : action.operation = Operation.forget operation)
    {outcome : Except Error α} (hrun : operation.perform s = (outcome, t)) : t.Reachable := by
  have hafter : action.after s = t := by
    rw [Action.after, haction, Operation.perform, Operation.forget_session]
    exact congrArg Prod.snd hrun
  exact hafter ▸ h.step action

/-- **In a reachable session every belief is stored with its clauses.** -/
theorem Session.Reachable.recorded {s : Session} (h : s.Reachable) :
    ∀ entry ∈ s.base.entries, entry.Recorded s.base.vocabulary := by
  induction h with
  | start settings => simp
  | @step s _ action ih =>
    have hstep := action.evolves s
    intro entry hentry
    rcases hstep.entries entry hentry with hold | hnew
    · exact (ih entry hold).later hstep.vocabulary
    · exact hnew

end BeliefRevision
