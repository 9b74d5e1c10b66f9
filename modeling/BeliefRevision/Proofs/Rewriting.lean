import BeliefRevision.Formula.Elimination
import BeliefRevision.NormalForm
import BeliefRevision.Proofs.Truth

/-!
# Rewriting keeps values

Elimination of connectives and the normal form leave the value of a formula as it is on every partial
assignment, and leave it without a value where it had none. That needs more than the classical laws of the
connectives: a left operand without a value takes the value from the whole formula, so a law holds only
with the operands in the right order.

* `Connective.implies_eq`, `iff_eq`, `not_and`, … — the laws that do hold
* `value_withoutIff`, `value_withoutImplies`, `value_normalForm` — one rewriting step each
* `value_conversionForm` — all of them together, as they are made before a conversion
* `rewriting_keeps_values` — the same of the formulas that the steps write
-/

namespace BeliefRevision

/-! ## Laws of the connectives -/

namespace Connective

section

variable (x y : Option Bool)

theorem implies_eq : Connective.implies.value x y = Connective.or.value (x.map (!·)) y := by
  rcases x with _ | _ | _ <;> rfl

theorem iff_eq : Connective.iff.value x y =
    Connective.and.value (Connective.implies.value x y) (Connective.implies.value y x) := by
  rcases x with _ | _ | _ <;> rcases y with _ | _ | _ <;> rfl

theorem iff_eq_or : Connective.iff.value x y =
    Connective.and.value (Connective.or.value (x.map (!·)) y)
      (Connective.or.value (y.map (!·)) x) := by
  rw [iff_eq, implies_eq, implies_eq]

theorem not_and : (Connective.and.value x y).map (!·) =
    Connective.or.value (x.map (!·)) (y.map (!·)) := by
  rcases x with _ | _ | _ <;> rfl

theorem not_or : (Connective.or.value x y).map (!·) =
    Connective.and.value (x.map (!·)) (y.map (!·)) := by
  rcases x with _ | _ | _ <;> rfl

theorem not_implies : (Connective.implies.value x y).map (!·) =
    Connective.and.value x (y.map (!·)) := by
  rcases x with _ | _ | _ <;> rfl

/-- The second half begins with `¬x`, as the first one does with `x`. -/
theorem not_iff : (Connective.iff.value x y).map (!·) =
    Connective.or.value (Connective.and.value x (y.map (!·)))
      (Connective.and.value (x.map (!·)) y) := by
  rcases x with _ | _ | _ <;> rcases y with _ | _ | _ <;> rfl

end

variable (a : Assignment String)

theorem value_applyWithoutIff (c : Connective) (left right : Formula) :
    (c.applyWithoutIff left right).value a = c.value (left.value a) (right.value a) := by
  cases c with
  | and | or | implies => rfl
  | iff => exact (iff_eq _ _).symm

theorem value_applyWithoutImplies (c : Connective) (left right : Formula) :
    (c.applyWithoutImplies left right).value a = c.value (left.value a) (right.value a) := by
  cases c with
  | and | or => rfl
  | implies => exact (implies_eq _ _).symm
  | iff => exact (iff_eq_or _ _).symm

end Connective

namespace Formula

/-! ## Values -/

theorem value_withoutIff (a : Assignment String) (φ : Formula) :
    φ.withoutIff.value a = φ.value a := by
  induction φ with
  | constant | atom => rfl
  | not operand ih => simp only [withoutIff, value, ih]
  | binary c left right ihl ihr =>
    rw [withoutIff, Connective.value_applyWithoutIff, ihl, ihr, value]

theorem value_withoutImplies (a : Assignment String) (φ : Formula) :
    φ.withoutImplies.value a = φ.value a := by
  induction φ with
  | constant | atom => rfl
  | not operand ih => simp only [withoutImplies, value, ih]
  | binary c left right ihl ihr =>
    rw [withoutImplies, Connective.value_applyWithoutImplies, ihl, ihr, value]

/-- **With polarity `true` the normal form has the value of the formula, with polarity `false` that of
its negation.** -/
theorem value_normalForm (a : Assignment String) (φ : Formula) :
    (φ.normalForm true).toFormula.value a = φ.value a ∧
      (φ.normalForm false).toFormula.value a = (φ.value a).map (!·) := by
  induction φ with
  | constant value => cases value <;> exact ⟨rfl, rfl⟩
  | atom name => exact ⟨rfl, rfl⟩
  | not operand ih =>
    obtain ⟨hpositive, hnegative⟩ := ih
    refine ⟨hnegative, hpositive.trans ?_⟩
    rw [value, Option.map_map]
    simp [Function.comp_def]
  | binary c left right ihl ihr =>
    cases c with
    | and =>
      simp only [normalForm, NormalForm.toFormula, value, ihl, ihr, true_and]
      exact (Connective.not_and _ _).symm
    | or =>
      simp only [normalForm, NormalForm.toFormula, value, ihl, ihr, true_and]
      exact (Connective.not_or _ _).symm
    | implies =>
      simp only [normalForm, NormalForm.toFormula, value, ihl, ihr]
      exact ⟨(Connective.implies_eq _ _).symm, (Connective.not_implies _ _).symm⟩
    | iff =>
      simp only [normalForm, NormalForm.toFormula, value, ihl, ihr]
      exact ⟨(Connective.iff_eq_or _ _).symm, (Connective.not_iff _ _).symm⟩

/-! ## The form that is converted -/

/-- The normal form from which the clauses of a formula are read. -/
def conversionForm (φ : Formula) : NormalForm := φ.withoutIff.withoutImplies.normalForm true

theorem value_conversionForm (a : Assignment String) (φ : Formula) :
    φ.conversionForm.toFormula.value a = φ.value a := by
  rw [conversionForm, (value_normalForm a _).1, value_withoutImplies, value_withoutIff]

theorem holds_conversionForm {v : String → Bool} {φ : Formula} :
    φ.conversionForm.toFormula.Holds v ↔ φ.Holds v := by
  rw [Holds, value_conversionForm, Holds]

/-- **Every rewriting step keeps the value on every partial assignment**, and with it whether there is a
value at all: the elimination of biconditionals, that of implications, the negation normal form, and the
three of them in a row, which write the form that is converted. -/
theorem rewriting_keeps_values (φ : Formula) (a : Assignment String) :
    φ.withoutIff.value a = φ.value a ∧ φ.withoutImplies.value a = φ.value a ∧
      φ.negationNormal.value a = φ.value a ∧
      φ.withoutIff.withoutImplies.negationNormal.value a = φ.value a ∧
      φ.withoutIff.withoutImplies.negationNormal = φ.conversionForm.toFormula :=
  ⟨value_withoutIff a φ, value_withoutImplies a φ, (value_normalForm a φ).1, value_conversionForm a φ,
    rfl⟩

/-- With its operands exchanged, `¬p ∨ q` would not do for `p → q`. -/
example :
    let p : Formula := .atom "p"
    let q : Formula := .atom "q"
    let a : Assignment String := fun name => if name = "q" then some true else none
    (Formula.binary .implies p q).value a = none ∧
      (Formula.binary .or q (.not p)).value a = some true := by decide

end Formula

end BeliefRevision
