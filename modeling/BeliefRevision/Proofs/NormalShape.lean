import BeliefRevision.Proofs.Conversion
import BeliefRevision.Proofs.Traversal

/-!
# The shape of normal forms

Each rewriting step of a conversion gets rid of some connectives, and what is left is what the next one is
made for. That is more than a matter of form. The steps can be made by traversals with stacks, and these
have visits that break down when a formula or its operands are not what they expect. With the shapes shown
here and the operands in their places none of them ever does.

* `Uses`, `IsNegationNormal` — shapes, told by the subformulas
* `not_uses_withoutIff`, `not_uses_withoutImplies`, `isNegationNormal_negationNormal` — the results of the
  steps
* `negationNormal_eq_self_iff` — formulas that are left as they are
* `Traversal.clauses` — a conversion by traversals, with all that it could run into
* `Traversal.normalClauses_eq`, `Traversal.isNegationNormal_of_normalClauses` — formulas in normal form,
  and no others, are converted without a breakdown
* `normal_forms_have_their_shape` — all of it
-/

namespace BeliefRevision

/-! ## Shapes -/

namespace Formula

/-- The subformulas, operands before the formula that they belong to. -/
def subformulas : Formula → List Formula
  | .constant value => [.constant value]
  | .atom name => [.atom name]
  | .not operand => operand.subformulas ++ [.not operand]
  | .binary c left right => left.subformulas ++ right.subformulas ++ [.binary c left right]

/-- The connective occurs. -/
def Uses (φ : Formula) (c : Connective) : Prop :=
  ∃ left right, .binary c left right ∈ φ.subformulas

/-- Neither implication nor biconditional occurs, and only atoms are negated. -/
structure IsNegationNormal (φ : Formula) : Prop where
  without_implies : ¬ φ.Uses .implies
  without_iff : ¬ φ.Uses .iff
  negated_atom : ∀ operand, .not operand ∈ φ.subformulas → ∃ name, operand = .atom name

variable {φ left right operand : Formula} {c d : Connective} {value : Bool} {name : String}

@[simp] theorem not_uses_constant : ¬ (Formula.constant value).Uses c := by
  simp [Uses, subformulas]

@[simp] theorem not_uses_atom : ¬ (Formula.atom name).Uses c := by
  simp [Uses, subformulas]

@[simp] theorem uses_not : (Formula.not operand).Uses c ↔ operand.Uses c := by
  simp [Uses, subformulas]

@[simp] theorem uses_binary :
    (Formula.binary d left right).Uses c ↔ c = d ∨ left.Uses c ∨ right.Uses c := by
  simp only [Uses, subformulas, List.mem_append, List.mem_singleton, binary.injEq]
  constructor
  · rintro ⟨l, r, (h | h) | ⟨rfl, _, _⟩⟩
    · exact .inr (.inl ⟨l, r, h⟩)
    · exact .inr (.inr ⟨l, r, h⟩)
    · exact .inl rfl
  · rintro (rfl | ⟨l, r, h⟩ | ⟨l, r, h⟩)
    · exact ⟨left, right, .inr ⟨rfl, rfl, rfl⟩⟩
    · exact ⟨l, r, .inl (.inl h)⟩
    · exact ⟨l, r, .inl (.inr h)⟩

theorem isNegationNormal_constant : (Formula.constant value).IsNegationNormal :=
  ⟨not_uses_constant, not_uses_constant, by simp [subformulas]⟩

theorem isNegationNormal_atom : (Formula.atom name).IsNegationNormal :=
  ⟨not_uses_atom, not_uses_atom, by simp [subformulas]⟩

theorem isNegationNormal_not :
    (Formula.not operand).IsNegationNormal ↔ ∃ name, operand = .atom name := by
  constructor
  · intro h
    exact h.negated_atom operand (by simp [subformulas])
  · rintro ⟨name, rfl⟩
    exact ⟨by simp, by simp, by simp [subformulas]⟩

theorem isNegationNormal_binary :
    (Formula.binary c left right).IsNegationNormal ↔
      (c = .and ∨ c = .or) ∧ left.IsNegationNormal ∧ right.IsNegationNormal := by
  constructor
  · rintro ⟨himplies, hiff, hatom⟩
    rw [uses_binary, not_or, not_or] at himplies hiff
    simp only [subformulas, List.mem_append, or_imp, forall_and] at hatom
    refine ⟨?_, ⟨himplies.2.1, hiff.2.1, hatom.1.1⟩, ⟨himplies.2.2, hiff.2.2, hatom.1.2⟩⟩
    cases c with
    | and => exact .inl rfl
    | or => exact .inr rfl
    | implies => exact absurd rfl himplies.1
    | iff => exact absurd rfl hiff.1
  · rintro ⟨hc, hleft, hright⟩
    refine ⟨?_, ?_, ?_⟩
    · rw [uses_binary, not_or, not_or]
      exact ⟨by rcases hc with rfl | rfl <;> simp, hleft.without_implies, hright.without_implies⟩
    · rw [uses_binary, not_or, not_or]
      exact ⟨by rcases hc with rfl | rfl <;> simp, hleft.without_iff, hright.without_iff⟩
    · intro operand hoperand
      simp only [subformulas, List.mem_append, List.mem_singleton, reduceCtorEq, or_false] at hoperand
      exact hoperand.elim (hleft.negated_atom operand) (hright.negated_atom operand)

/-! ## What the steps leave -/

theorem not_uses_withoutIff (φ : Formula) : ¬ φ.withoutIff.Uses .iff := by
  induction φ with
  | constant | atom => simp [withoutIff]
  | not operand ih => simpa [withoutIff] using ih
  | binary c left right ihl ihr => cases c <;> simp [withoutIff, Connective.applyWithoutIff, ihl, ihr]

theorem not_uses_withoutImplies (φ : Formula) :
    ¬ φ.withoutImplies.Uses .implies ∧ ¬ φ.withoutImplies.Uses .iff := by
  induction φ with
  | constant | atom => simp [withoutImplies]
  | not operand ih => simpa [withoutImplies] using ih
  | binary c left right ihl ihr =>
    cases c <;> simp [withoutImplies, Connective.applyWithoutImplies, ihl, ihr]

theorem isNegationNormal_toFormula (ψ : NormalForm) : ψ.toFormula.IsNegationNormal := by
  induction ψ with
  | constant value => exact isNegationNormal_constant
  | literal name polarity =>
    cases polarity with
    | true => exact isNegationNormal_atom
    | false => exact isNegationNormal_not.mpr ⟨name, rfl⟩
  | and left right ihl ihr => exact isNegationNormal_binary.mpr ⟨.inl rfl, ihl, ihr⟩
  | or left right ihl ihr => exact isNegationNormal_binary.mpr ⟨.inr rfl, ihl, ihr⟩

theorem isNegationNormal_negationNormal (φ : Formula) : φ.negationNormal.IsNegationNormal :=
  isNegationNormal_toFormula _

/-- A formula in normal form is its own normal form. -/
theorem IsNegationNormal.negationNormal_eq (h : φ.IsNegationNormal) : φ.negationNormal = φ := by
  induction φ with
  | constant value => simp [negationNormal, normalForm, NormalForm.toFormula]
  | atom name => rfl
  | not operand ih =>
    obtain ⟨name, rfl⟩ := isNegationNormal_not.mp h
    rfl
  | binary c left right ihl ihr =>
    obtain ⟨hc, hleft, hright⟩ := isNegationNormal_binary.mp h
    have hl : (left.normalForm true).toFormula = left := ihl hleft
    have hr : (right.normalForm true).toFormula = right := ihr hright
    rcases hc with rfl | rfl <;> simp [negationNormal, normalForm, NormalForm.toFormula, hl, hr]

/-- **Exactly the formulas in normal form are left as they are.** -/
theorem negationNormal_eq_self_iff : φ.negationNormal = φ ↔ φ.IsNegationNormal :=
  ⟨fun h => h ▸ isNegationNormal_negationNormal φ, IsNegationNormal.negationNormal_eq⟩

end Formula

/-! ## Conversion by traversals -/

namespace Traversal

/-- The formula with its operands replaced, where they are as many as its connective takes. -/
def reassemble (φ : Formula) (operands : Operands Formula) : Except Breakdown Formula :=
  (φ.rebuild operands).mapError fun _ => .operandMismatch

/-- The formula, put together again from its subformulas. -/
def copy (φ : Formula) : Except Breakdown Formula := traverse reassemble [.enter φ] []

/-- Writes a biconditional as two implications. -/
def visitIff : Formula → Operands Formula → Except Breakdown Formula
  | .binary .iff _ _, .two left right => do
    let there := .binary .implies (← copy left) (← copy right)
    pure (.binary .and there (.binary .implies right left))
  | φ, operands => reassemble φ operands

/-- Writes an implication as a disjunction, and a biconditional as two of them. -/
def visitImplies : Formula → Operands Formula → Except Breakdown Formula
  | .binary .implies _ _, .two left right => pure (.binary .or (.not left) right)
  | .binary .iff _ _, .two left right => do
    let there := .binary .or (.not (← copy left)) (← copy right)
    pure (.binary .and there (.binary .or (.not right) left))
  | φ, operands => reassemble φ operands

/-- The normal forms of a formula and of its negation, from those of its operands. -/
def visitPolarities :
    Formula → Operands (Formula × Formula) → Except Breakdown (Formula × Formula)
  | .constant value, _ => pure (.constant value, .constant !value)
  | .atom name, _ => do
    pure (← copy (.atom name), .not (← copy (.atom name)))
  | _, .one (positive, negative) => pure (negative, positive)
  | .binary .and _ _, .two (lp, ln) (rp, rn) => pure (.binary .and lp rp, .binary .or ln rn)
  | .binary .or _ _, .two (lp, ln) (rp, rn) => pure (.binary .or lp rp, .binary .and ln rn)
  | .binary .implies _ _, .two (lp, ln) (rp, rn) => pure (.binary .or ln rp, .binary .and lp rn)
  | _, .two (lp, ln) (rp, rn) => do
    let positive :=
      .binary .and (.binary .or (← copy ln) (← copy rp)) (.binary .or (← copy rn) (← copy lp))
    pure (positive, .binary .or (.binary .and lp rn) (.binary .and ln rp))
  | _, .none => throw .withoutOperands

/-- The clause of a literal. -/
def literalClause (name : String) (polarity : Bool) : Conversion ClauseSet := do
  let atom ← Conversion.intern name
  pure {[⟨atom, polarity⟩]}

/-- The clauses of a formula in negation normal form, from those of its operands. -/
def visitNormal (limit : Nat) :
    Formula → Operands ClauseSet → ExceptT Breakdown Conversion ClauseSet
  | .constant true, _ => pure ∅
  | .constant false, _ => pure {[]}
  | .atom name, _ => ExceptT.lift (literalClause name true)
  | .not (.atom name), _ => ExceptT.lift (literalClause name false)
  | .binary .and _ _, .two left right =>
    ExceptT.lift (Conversion.orLimit (ClauseSet.within limit (left ∪ right)))
  | .binary .or _ _, .two left right =>
    ExceptT.lift (Conversion.orLimit (ClauseSet.productWithin limit left right))
  | _, _ => throw .notNormal

/-- The formula with every biconditional written as two implications. -/
def withoutIff (φ : Formula) : Except Breakdown Formula := traverse visitIff [.enter φ] []

/-- The formula with every implication written as a disjunction. -/
def withoutImplies (φ : Formula) : Except Breakdown Formula := traverse visitImplies [.enter φ] []

/-- The formula in negation normal form. -/
def negationNormal (φ : Formula) : Except Breakdown Formula :=
  Prod.fst <$> traverse visitPolarities [.enter φ] []

/-- The clauses of a formula that is in negation normal form. -/
def normalClauses (limit : Nat) (φ : Formula) : ExceptT Breakdown Conversion ClauseSet :=
  traverse (visitNormal limit) [.enter φ] []

/-- The clauses of a formula, by way of its normal form. -/
def distribute (limit : Nat) (φ : Formula) : ExceptT Breakdown Conversion ClauseSet := do
  normalClauses limit (← MonadExcept.ofExcept (negationNormal φ))

/-- The clauses of a formula, step by step. -/
def clauses (limit : Nat) (φ : Formula) : ExceptT Breakdown Conversion ClauseSet := do
  let withoutIff ← MonadExcept.ofExcept (withoutIff φ)
  let withoutImplies ← MonadExcept.ofExcept (withoutImplies withoutIff)
  normalClauses limit (← MonadExcept.ofExcept (negationNormal withoutImplies))

/-! ## The steps by traversals -/

theorem copy_eq (φ : Formula) : copy φ = .ok φ := by
  refine traverse_eq_pure (f := id) (fun φ => ?_) φ
  cases φ <;> rfl

theorem withoutIff_eq (φ : Formula) : withoutIff φ = .ok φ.withoutIff := by
  refine traverse_eq_pure (fun φ => ?_) φ
  cases φ with
  | constant | atom | not => rfl
  | binary c left right =>
    cases c with
    | and | or | implies => rfl
    | iff =>
      rw [Formula.found, visitIff, copy_eq, copy_eq]
      rfl

theorem withoutImplies_eq (φ : Formula) : withoutImplies φ = .ok φ.withoutImplies := by
  refine traverse_eq_pure (fun φ => ?_) φ
  cases φ with
  | constant | atom | not => rfl
  | binary c left right =>
    cases c with
    | and | or | implies => rfl
    | iff =>
      rw [Formula.found, visitImplies, copy_eq, copy_eq]
      rfl

/-- **Both normal forms are found at once.** -/
theorem polarities_eq (φ : Formula) : traverse visitPolarities [.enter φ] [] =
    .ok ((φ.normalForm true).toFormula, (φ.normalForm false).toFormula) := by
  refine traverse_eq_pure
    (f := fun φ => ((φ.normalForm true).toFormula, (φ.normalForm false).toFormula)) (fun φ => ?_) φ
  cases φ with
  | constant value => cases value <;> rfl
  | atom name =>
    rw [Formula.found, visitPolarities, copy_eq]
    rfl
  | not operand => rfl
  | binary c left right =>
    cases c with
    | and | or | implies => rfl
    | iff =>
      simp only [Formula.found, visitPolarities, copy_eq]
      rfl

theorem negationNormal_eq (φ : Formula) : negationNormal φ = .ok φ.negationNormal := by
  rw [negationNormal, polarities_eq]
  rfl

/-- The atom of a negated name is met first. It is interned there, and nothing is left to intern when the
negation is. -/
theorem literalClause_again (name : String) :
    (literalClause name true >>= fun _ => literalClause name false) = literalClause name false := by
  have hrun : ∀ (polarity : Bool) (v : Vocabulary), literalClause name polarity v =
      (.ok {[⟨(v.intern name).2.number name, polarity⟩]}, (v.intern name).2) :=
    fun _ v => Computation.bind_of_ok (NormalForm.intern_run v name)
  funext v
  have hmem : name ∈ (v.intern name).2.names := Vocabulary.mem_intern.mpr (.inr rfl)
  rw [Computation.bind_of_ok (hrun true v), hrun, hrun, Vocabulary.intern_of_mem hmem]

/-- **A normal form is converted by a traversal**: each visit is given a formula of the right shape. -/
theorem normalClauses_eq (limit : Nat) (ψ : NormalForm) :
    normalClauses limit ψ.toFormula = ExceptT.lift (ψ.clauses limit) := by
  rw [normalClauses, traverse_eq_foldM]
  induction ψ with
  | constant value => cases value <;> rfl
  | literal name polarity =>
    cases polarity with
    | true => rfl
    | false =>
      show (ExceptT.lift (literalClause name true) >>= fun _ =>
        ExceptT.lift (literalClause name false)) = ExceptT.lift (literalClause name false)
      rw [← ExceptT.lift_bind, literalClause_again]
  | and left right ihl ihr | or left right ihl ihr =>
    rw [NormalForm.toFormula, Formula.foldM, ihl, ihr, NormalForm.clauses, ExceptT.lift_bind]
    refine congrArg _ (funext fun leftClauses => ?_)
    rw [ExceptT.lift_bind]
    rfl

/-- Where both of two conversions answer, the second one goes on from where the first one ended. -/
theorem bind_eq_answer {α β : Type} {x : ExceptT Breakdown Conversion α}
    {f : α → ExceptT Breakdown Conversion β} {b : β} {v w : Vocabulary}
    (h : (x >>= f) v = (.ok (.ok b), w)) :
    ∃ a u, x v = (.ok (.ok a), u) ∧ f a u = (.ok (.ok b), w) := by
  obtain ⟨outcome, u, hx, hf⟩ := Computation.bind_eq_ok (f := ExceptT.bindCont f) h
  cases outcome with
  | error breakdown => cases hf
  | ok a => exact ⟨a, u, hx, hf⟩

/-- **Nothing but formulas in normal form is converted by a traversal.** -/
theorem isNegationNormal_of_normalClauses {limit : Nat} {φ : Formula} {clauses : ClauseSet}
    {v w : Vocabulary} (h : normalClauses limit φ v = (.ok (.ok clauses), w)) :
    φ.IsNegationNormal := by
  rw [normalClauses, traverse_eq_foldM] at h
  induction φ generalizing v w clauses with
  | constant value => exact Formula.isNegationNormal_constant
  | atom name => exact Formula.isNegationNormal_atom
  | not operand ih =>
    obtain ⟨_, _, _, hvisit⟩ := bind_eq_answer h
    cases operand with
    | atom name => exact Formula.isNegationNormal_not.mpr ⟨name, rfl⟩
    | constant | not | binary => cases hvisit
  | binary c left right ihl ihr =>
    obtain ⟨_, _, hleft, h⟩ := bind_eq_answer h
    obtain ⟨_, _, hright, hvisit⟩ := bind_eq_answer h
    have hnormal (hc : c = .and ∨ c = .or) : (Formula.binary c left right).IsNegationNormal :=
      Formula.isNegationNormal_binary.mpr ⟨hc, ihl hleft, ihr hright⟩
    cases c with
    | and => exact hnormal (.inl rfl)
    | or => exact hnormal (.inr rfl)
    | implies | iff => cases hvisit

theorem distribute_eq (limit : Nat) (φ : Formula) :
    distribute limit φ = ExceptT.lift (φ.distribute limit) := by
  rw [distribute, negationNormal_eq]
  exact (pure_bind _ _).trans (normalClauses_eq limit (φ.normalForm true))

theorem clauses_eq (limit : Nat) (φ : Formula) :
    clauses limit φ = ExceptT.lift (φ.clauses limit) := by
  rw [clauses, withoutIff_eq]
  refine (pure_bind _ _).trans ?_
  rw [withoutImplies_eq]
  refine (pure_bind _ _).trans ?_
  rw [negationNormal_eq]
  exact (pure_bind _ _).trans (normalClauses_eq limit _)

end Traversal

/-- **The normal forms have the shapes that the next step is made for, and no conversion breaks down.** -/
theorem Formula.normal_forms_have_their_shape (φ : Formula) :
    ¬ φ.withoutIff.Uses .iff ∧
    (¬ φ.withoutImplies.Uses .implies ∧ ¬ φ.withoutImplies.Uses .iff) ∧
    φ.negationNormal.IsNegationNormal ∧
    (φ.IsNegationNormal → φ.negationNormal = φ) ∧
    (Formula.not (.not φ)).negationNormal = φ.negationNormal ∧
    Traversal.withoutIff φ = .ok φ.withoutIff ∧
    Traversal.withoutImplies φ = .ok φ.withoutImplies ∧
    Traversal.negationNormal φ = .ok φ.negationNormal ∧
    ∀ limit : Nat,
      Traversal.clauses limit φ = ExceptT.lift (φ.clauses limit) ∧
      Traversal.distribute limit φ = ExceptT.lift (φ.distribute limit) ∧
      ∀ (v : Vocabulary) (breakdown : Breakdown),
        (Traversal.clauses limit φ v).1 ≠ .ok (.error breakdown) ∧
        (Traversal.distribute limit φ v).1 ≠ .ok (.error breakdown) := by
  refine ⟨not_uses_withoutIff φ, not_uses_withoutImplies φ, isNegationNormal_negationNormal φ,
    negationNormal_eq_self_iff.mpr, rfl, Traversal.withoutIff_eq φ, Traversal.withoutImplies_eq φ,
    Traversal.negationNormal_eq φ, fun limit => ?_⟩
  have hclauses := Traversal.clauses_eq limit φ
  have hdistribute := Traversal.distribute_eq limit φ
  refine ⟨hclauses, hdistribute, fun v breakdown => ⟨?_, ?_⟩⟩
  · rw [hclauses]
    exact Computation.lift_ne_failure _ v breakdown
  · rw [hdistribute]
    exact Computation.lift_ne_failure _ v breakdown

end BeliefRevision
