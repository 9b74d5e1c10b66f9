import BeliefRevision.Clause.Basic
import BeliefRevision.Formula.Basic

/-!
# Truth

The classical meaning of formulas and clauses, against which the procedures are measured. A function
to `Bool` gives every key a truth value. On such an assignment every formula and every clause has a
value, and one that is true is said to hold.

* `Entails` — a formula holds whenever all the premises hold
* `Satisfiable` — some valuation of the atoms makes every clause of a list hold
-/

namespace BeliefRevision

/-- The assignment that gives every key the value of a function. -/
def Assignment.total {κ : Type} (v : κ → Bool) : Assignment κ := fun key => some (v key)

/-! ## Formulas -/

namespace Formula

/-- The formula is true when the names have the given values. -/
def Holds (v : String → Bool) (φ : Formula) : Prop := φ.value (.total v) = some true

/-- A formula has a value when all names have one. -/
theorem exists_value (v : String → Bool) (φ : Formula) : ∃ b, φ.value (.total v) = some b := by
  induction φ with
  | constant value => exact ⟨value, rfl⟩
  | atom name => exact ⟨v name, rfl⟩
  | not operand ih =>
    obtain ⟨b, hb⟩ := ih
    exact ⟨!b, by rw [value, hb]; rfl⟩
  | binary c left right ihl ihr =>
    obtain ⟨l, hl⟩ := ihl
    obtain ⟨r, hr⟩ := ihr
    rw [value, hl, hr]
    cases c <;> cases l <;> simp [Connective.value]

/-- A negation holds exactly when its operand does not. -/
theorem holds_not {v : String → Bool} {φ : Formula} : (Formula.not φ).Holds v ↔ ¬ φ.Holds v := by
  obtain ⟨b, hb⟩ := exists_value v φ
  simp only [Holds, value, hb]
  cases b <;> simp

theorem holds_and {v : String → Bool} {left right : Formula} :
    (Formula.binary .and left right).Holds v ↔ left.Holds v ∧ right.Holds v := by
  obtain ⟨l, hl⟩ := exists_value v left
  obtain ⟨r, hr⟩ := exists_value v right
  simp only [Holds, value, hl, hr]
  cases l <;> simp [Connective.value]

theorem holds_or {v : String → Bool} {left right : Formula} :
    (Formula.binary .or left right).Holds v ↔ left.Holds v ∨ right.Holds v := by
  obtain ⟨l, hl⟩ := exists_value v left
  obtain ⟨r, hr⟩ := exists_value v right
  simp only [Holds, value, hl, hr]
  cases l <;> simp [Connective.value]

end Formula

/-- The formula holds whenever all the premises hold. -/
def Entails (premises : List Formula) (φ : Formula) : Prop :=
  ∀ v : String → Bool, (∀ ψ ∈ premises, ψ.Holds v) → φ.Holds v

/-- All the premises can hold together. -/
def Consistent (premises : List Formula) : Prop :=
  ∃ v : String → Bool, ∀ ψ ∈ premises, ψ.Holds v

/-- More premises entail more. -/
theorem Entails.mono {premises others : List Formula} {φ : Formula} (h : Entails premises φ)
    (hsub : ∀ ψ ∈ premises, ψ ∈ others) : Entails others φ :=
  fun v hv => h v fun ψ hψ => hv ψ (hsub ψ hψ)

/-- What does not follow can fail while all the premises hold. -/
theorem not_entails_iff {premises : List Formula} {φ : Formula} :
    ¬ Entails premises φ ↔ Consistent (.not φ :: premises) := by
  simp only [Entails, Consistent, List.forall_mem_cons, Formula.holds_not]
  constructor
  · intro h
    obtain ⟨v, hv⟩ := Classical.not_forall.mp h
    obtain ⟨hpremises, hφ⟩ := Classical.not_imp.mp hv
    exact ⟨v, hφ, hpremises⟩
  · rintro ⟨v, hφ, hpremises⟩ h
    exact hφ (h v hpremises)

/-- What cannot hold while all the premises do, is denied by them. -/
theorem entails_not_iff {premises : List Formula} {φ : Formula} :
    Entails premises (.not φ) ↔ ¬ Consistent (φ :: premises) := by
  simp only [Entails, Consistent, List.forall_mem_cons, Formula.holds_not, not_exists, not_and']

/-- Fewer formulas can hold if more can. -/
theorem Consistent.mono {premises others : List Formula} (h : Consistent others)
    (hsub : ∀ ψ ∈ premises, ψ ∈ others) : Consistent premises := by
  obtain ⟨v, hv⟩ := h
  exact ⟨v, fun ψ hψ => hv ψ (hsub ψ hψ)⟩

theorem consistent_singleton {φ : Formula} : Consistent [φ] ↔ ∃ v, φ.Holds v := by
  simp [Consistent]

theorem entails_nil_iff {φ : Formula} : Entails [] φ ↔ ∀ v, φ.Holds v := by
  simp [Entails]

theorem consistent_top {premises : List Formula} :
    Consistent (.constant true :: premises) ↔ Consistent premises := by
  have htop (v : String → Bool) : (Formula.constant true).Holds v := rfl
  simp only [Consistent, List.forall_mem_cons, htop, true_and]

/-! ## Clauses -/

namespace Clause

/-- The clause is true when the atoms have the given values. -/
def Holds (v : Nat → Bool) (clause : Clause) : Prop := clause.value (.total v) = some true

section

variable {clause : Clause} {assignment : Assignment Nat}

/-- A clause is true exactly if one of its literals is. -/
theorem value_eq_true_iff :
    clause.value assignment = some true ↔ ∃ l ∈ clause, assignment l.atom = some l.polarity := by
  induction clause with
  | nil => simp [value]
  | cons first rest ih =>
    simp only [value, List.mem_cons, exists_eq_or_imp, ← ih]
    cases hfirst : assignment first.atom with
    | none => simp
    | some b => by_cases hb : b = first.polarity <;> simp [hb]

/-- A clause is false exactly if all its literals are. -/
theorem value_eq_false_iff :
    clause.value assignment = some false ↔ ∀ l ∈ clause, assignment l.atom = some (!l.polarity) := by
  induction clause with
  | nil => simp [value]
  | cons first rest ih =>
    rw [value, List.forall_mem_cons, ← ih]
    cases hfirst : assignment first.atom with
    | none => simp
    | some b => cases b <;> cases first.polarity <;> simp

end

/-- A clause holds exactly if one of its literals is true. -/
theorem holds_iff {v : Nat → Bool} {clause : Clause} :
    clause.Holds v ↔ ∃ l ∈ clause, v l.atom = l.polarity := by
  simp [Holds, value_eq_true_iff, Assignment.total]

theorem not_holds_nil (v : Nat → Bool) : ¬ Holds v [] := by simp [holds_iff]

/-- A clause with some more literals holds when the clause does. -/
theorem Holds.mono {v : Nat → Bool} {clause other : Clause} (h : clause.Holds v)
    (hsub : ∀ l ∈ clause, l ∈ other) : other.Holds v := by
  obtain ⟨l, hl, htrue⟩ := holds_iff.mp h
  exact holds_iff.mpr ⟨l, hsub l hl, htrue⟩

/-- Whether a clause holds depends on the values of its own atoms only. -/
theorem holds_congr {v w : Nat → Bool} {clause : Clause}
    (h : ∀ l ∈ clause, v l.atom = w l.atom) : clause.Holds v ↔ clause.Holds w := by
  simp only [holds_iff]
  constructor
  · rintro ⟨l, hl, htrue⟩
    exact ⟨l, hl, by rw [← h l hl]; exact htrue⟩
  · rintro ⟨l, hl, htrue⟩
    exact ⟨l, hl, by rw [h l hl]; exact htrue⟩

end Clause

/-- Some values of the atoms make all the clauses hold. -/
def Satisfiable (clauses : List Clause) : Prop :=
  ∃ v : Nat → Bool, ∀ clause ∈ clauses, clause.Holds v

end BeliefRevision
