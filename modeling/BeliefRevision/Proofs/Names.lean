import BeliefRevision.Proofs.Conversion

/-!
# Names learned from a conversion

The rewriting in front of a conversion repeats parts of a formula, but brings in no name and drops
none. So the names that a vocabulary learns from a conversion are names of the formula.

* `mem_names_conversionForm` — the names that are read in a conversion
* `clauses_learn` — the names that are learned, whether or not the conversion succeeds
-/

namespace BeliefRevision

theorem Vocabulary.internAll_learn (v : Vocabulary) (names : List String) :
    ∃ learned, (v.internAll names).names = v.names ++ learned ∧ ∀ name ∈ learned, name ∈ names := by
  obtain ⟨learned, hlearned⟩ := v.prefix_internAll names
  refine ⟨learned, hlearned.symm, ?_⟩
  intro name hname
  have hmem : name ∈ (v.internAll names).names := hlearned ▸ List.mem_append_right _ hname
  rcases mem_internAll.mp hmem with hold | hnew
  · -- a name in front does not come again
    have hnodup : (v.names ++ learned).Nodup := hlearned ▸ (v.internAll names).nodup
    exact absurd rfl ((List.nodup_append.mp hnodup).2.2 name hold name hname)
  · exact hnew

namespace Connective

variable {c : Connective} {left right : Formula} {name : String}

theorem mem_names_applyWithoutIff :
    name ∈ (c.applyWithoutIff left right).names ↔ name ∈ left.names ∨ name ∈ right.names := by
  cases c with
  | and | or | implies => exact List.mem_append
  | iff =>
    simp only [applyWithoutIff, Formula.names, List.mem_append]
    exact ⟨fun h => h.elim id Or.symm, .inl⟩

theorem mem_names_applyWithoutImplies :
    name ∈ (c.applyWithoutImplies left right).names ↔ name ∈ left.names ∨ name ∈ right.names := by
  cases c with
  | and | or | implies => exact List.mem_append
  | iff =>
    simp only [applyWithoutImplies, Formula.names, List.mem_append]
    exact ⟨fun h => h.elim id Or.symm, .inl⟩

end Connective

namespace Formula

variable {φ : Formula} {name : String}

theorem mem_names_withoutIff : name ∈ φ.withoutIff.names ↔ name ∈ φ.names := by
  induction φ with
  | constant | atom => rfl
  | not operand ih => exact ih
  | binary c left right ihl ihr =>
    rw [withoutIff, Connective.mem_names_applyWithoutIff, ihl, ihr, names, List.mem_append]

theorem mem_names_withoutImplies : name ∈ φ.withoutImplies.names ↔ name ∈ φ.names := by
  induction φ with
  | constant | atom => rfl
  | not operand ih => exact ih
  | binary c left right ihl ihr =>
    rw [withoutImplies, Connective.mem_names_applyWithoutImplies, ihl, ihr, names, List.mem_append]

theorem mem_names_normalForm (polarity : Bool) :
    name ∈ (φ.normalForm polarity).names ↔ name ∈ φ.names := by
  induction φ generalizing polarity with
  | constant | atom => rfl
  | not operand ih => exact ih (!polarity)
  | binary c left right ihl ihr =>
    cases c <;> cases polarity <;>
      simp only [normalForm, NormalForm.names, names, List.mem_append, ihl, ihr]
    -- a biconditional has each operand twice
    · exact or_self_iff
    · exact ⟨fun h => h.elim id Or.symm, .inl⟩

theorem mem_names_conversionForm : name ∈ φ.conversionForm.names ↔ name ∈ φ.names := by
  rw [conversionForm, mem_names_normalForm, mem_names_withoutImplies, mem_names_withoutIff]

/-- A conversion learns names of the formula alone. -/
theorem clauses_learn (φ : Formula) (limit : Nat) (v : Vocabulary) :
    ∃ learned, (φ.clauses limit v).2.names = v.names ++ learned ∧
      ∀ name ∈ learned, name ∈ φ.names := by
  obtain ⟨read, hread, hlearned⟩ := φ.clauses_read limit v
  obtain ⟨learned, hnames, hmem⟩ := v.internAll_learn read
  refine ⟨learned, hlearned ▸ hnames, ?_⟩
  intro name hname
  exact mem_names_conversionForm.mp (hread.mem (hmem name hname))

end Formula

end BeliefRevision
