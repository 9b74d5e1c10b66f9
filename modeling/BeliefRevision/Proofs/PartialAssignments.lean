import BeliefRevision.Proofs.CanonicalClause

/-!
# What more information leaves as it is

A formula and a clause may have a value although not all of their atoms do. Such a value is final: it stays
whatever values the other atoms get. A formula may still be without a value that is settled, like `p ∨ q`
when only `q` is known to be true. A clause has a value as soon as it is settled, unless it is a tautology,
and is so the most that can be said.

* `Formula.truth` — the classical truth value
* `Formula.value_extend`, `Formula.value_eq_truth` — values stay, and are classical in the end
* `Clause.value_iff_of_total` — a clause has the values that all total assignments agree on
* `partial_values_are_final` — all of it
-/

namespace BeliefRevision

namespace Assignment

variable {κ : Type}

/-- The first assignment has all the values of the second one. -/
def Extends (v w : Assignment κ) : Prop := ∀ key b, w key = some b → v key = some b

/-- Where there is no value, any one may be added. -/
theorem extends_getD (w : Assignment κ) (others : κ → Bool) :
    (total fun key => (w key).getD (others key)).Extends w := by
  intro key b hb
  simp [total, hb]

/-- A key on which all total assignments with more values agree has its value already. -/
theorem eq_some_of_total {w : Assignment κ} {key : κ} {b : Bool}
    (h : ∀ u : κ → Bool, (total u).Extends w → u key = b) : w key = some b := by
  cases hvalue : w key with
  | none =>
    have hu := h _ (extends_getD w fun _ => !b)
    simp [hvalue] at hu
  | some value =>
    have hu := h _ (extends_getD w fun _ => b)
    simpa [hvalue] using hu

end Assignment

/-! ## Formulas -/

/-- The truth value of a connective. -/
def Connective.truth : Connective → Bool → Bool → Bool
  | .and, left, right => left && right
  | .or, left, right => left || right
  | .implies, left, right => !left || right
  | .iff, left, right => left == right

namespace Connective

theorem value_some (c : Connective) (left right : Bool) :
    c.value (some left) (some right) = some (c.truth left right) := by
  cases c <;> cases left <;> rfl

/-- A value that there is stays when the operands keep theirs. -/
theorem value_extend {c : Connective} {left right left' right' : Option Bool} {b : Bool}
    (hleft : ∀ l, left = some l → left' = some l) (hright : ∀ r, right = some r → right' = some r)
    (h : c.value left right = some b) : c.value left' right' = some b := by
  cases left with
  | none =>
    rw [value_none] at h
    cases h
  | some l =>
    rw [hleft l rfl]
    cases right with
    | none =>
      -- the left operand alone has settled the value
      cases c <;> cases l <;> first | exact h | cases h
    | some r =>
      rw [hright r rfl]
      exact h

end Connective

namespace Formula

/-- The classical truth value, when the names have the given values. -/
def truth (values : String → Bool) : Formula → Bool
  | .constant value => value
  | .atom name => values name
  | .not operand => !operand.truth values
  | .binary c left right => c.truth (left.truth values) (right.truth values)

/-- **A value stays when the atoms of the formula keep theirs.** -/
theorem value_extend {φ : Formula} {v w : Assignment String} {b : Bool}
    (hnames : ∀ name ∈ φ.names, ∀ value, v name = some value → w name = some value)
    (h : φ.value v = some b) : φ.value w = some b := by
  induction φ generalizing b with
  | constant value => exact h
  | atom name => exact hnames name (List.mem_singleton_self name) b h
  | not operand ih =>
    obtain ⟨inner, hinner, rfl⟩ := Option.map_eq_some_iff.mp h
    rw [value, ih hnames hinner]
    rfl
  | binary c left right ihl ihr =>
    obtain ⟨hleft, hright⟩ := List.forall_mem_append.mp hnames
    exact c.value_extend (fun _ => ihl hleft) (fun _ => ihr hright) h

/-- **When all atoms have a value, the value is the classical one.** -/
theorem value_eq_truth {φ : Formula} {v : Assignment String} {values : String → Bool}
    (hnames : ∀ name ∈ φ.names, v name = some (values name)) :
    φ.value v = some (φ.truth values) := by
  induction φ with
  | constant value => rfl
  | atom name => exact hnames name (List.mem_singleton_self name)
  | not operand ih =>
    rw [value, ih hnames]
    rfl
  | binary c left right ihl ihr =>
    obtain ⟨hleft, hright⟩ := List.forall_mem_append.mp hnames
    rw [value, ihl hleft, ihr hright, Connective.value_some, truth]

/-- To hold is to be true in the classical sense. -/
theorem holds_iff_truth {φ : Formula} {values : String → Bool} :
    φ.Holds values ↔ φ.truth values = true := by
  have hvalue : φ.value (.total values) = some (φ.truth values) := value_eq_truth fun _ _ => rfl
  rw [Holds, hvalue, Option.some_inj]

end Formula

/-! ## Clauses -/

namespace Clause

variable {clause : Clause} {w : Assignment Nat}

/-- **A clause has a value exactly if all total assignments with more information give it this value.** -/
theorem value_iff_of_total (hclashes : ¬ clause.Clashes) {b : Bool} :
    clause.value w = some b ↔
      ∀ u : Nat → Bool, (Assignment.total u).Extends w → clause.value (.total u) = some b := by
  constructor
  · intro h u hextends
    cases b with
    | true =>
      obtain ⟨l, hl, htrue⟩ := value_eq_true_iff.mp h
      exact value_eq_true_iff.mpr ⟨l, hl, hextends _ _ htrue⟩
    | false =>
      have hfalse := value_eq_false_iff.mp h
      exact value_eq_false_iff.mpr fun l hl => hextends _ _ (hfalse l hl)
  · intro h
    cases b with
    | false =>
      refine value_eq_false_iff.mpr fun l hl => Assignment.eq_some_of_total fun u hextends => ?_
      exact Option.some.inj (value_eq_false_iff.mp (h u hextends) l hl)
    | true =>
      -- the atoms without a value are given those that make their literals false
      have hextends := w.extends_getD fun atom => decide ((⟨atom, false⟩ : Literal) ∈ clause)
      obtain ⟨l, hl, htrue⟩ := value_eq_true_iff.mp (h _ hextends)
      refine value_eq_true_iff.mpr ⟨l, hl, ?_⟩
      cases hvalue : w l.atom with
      | some value => simpa [Assignment.total, hvalue] using htrue
      | none =>
        obtain ⟨atom, polarity⟩ := l
        cases polarity with
        | false => simp [Assignment.total, hvalue, hl] at htrue
        | true =>
          have hneg : (⟨atom, false⟩ : Literal) ∈ clause := by
            simpa [Assignment.total, hvalue] using htrue
          exact absurd ⟨_, hl, hneg⟩ hclashes

end Clause

/-! ## Both -/

/-- **What a partial assignment settles is final.** A value of a formula stays under any assignment that
keeps the values of its atoms, and when all its atoms have a value, its value is the classical one. A
canonical clause that is no tautology has a value exactly if all total assignments with more information
give it this value. -/
theorem partial_values_are_final :
    (∀ (φ : Formula) (v w : Assignment String) (b : Bool),
        (∀ name ∈ φ.atoms, ∀ value, v name = some value → w name = some value) →
          φ.value v = some b → φ.value w = some b) ∧
      (∀ (φ : Formula) (v : Assignment String) (values : String → Bool),
        (∀ name ∈ φ.atoms, v name = some (values name)) → φ.value v = some (φ.truth values)) ∧
      ∀ (clause : Clause) (w : Assignment Nat) (b : Bool),
        clause.Canonical → clause.isTautology = false →
          (clause.value w = some b ↔
            ∀ u : Nat → Bool, (Assignment.total u).Extends w → clause.value (.total u) = some b) := by
  refine ⟨fun φ v w b hatoms => ?_, fun φ v values hatoms => ?_, fun clause w b hcanonical htaut => ?_⟩
  · exact Formula.value_extend fun name hname => hatoms name (Formula.mem_atoms.mpr hname)
  · exact Formula.value_eq_truth fun name hname => hatoms name (Formula.mem_atoms.mpr hname)
  · exact Clause.value_iff_of_total ((Clause.not_clashes_iff hcanonical).mpr htaut)

/-- `p → q` is true when `p` is false, whatever `q` is, and has its classical value when both are known.
`¬p ∨ q` has no value as long as only `p` is known, and true, since `q` can still make it true or false. -/
theorem partial_values_are_final_of_implication :
    let φ : Formula := .binary .implies (.atom "p") (.atom "q")
    let v : Assignment String := fun name => if name = "p" then some false else none
    let clause : Clause := [⟨0, false⟩, ⟨1, true⟩]
    let w : Assignment Nat := fun atom => if atom = 0 then some true else none
    (∀ q : Bool, φ.value (fun name => if name = "p" then some false else some q) = some true) ∧
      φ.value (.total fun _ => true) = some (φ.truth fun _ => true) ∧
      φ.value v = some true ∧ clause.Canonical ∧ clause.isTautology = false ∧
      ∀ b : Bool, ¬ ∀ u : Nat → Bool, (Assignment.total u).Extends w → clause.value (.total u) = some b := by
  intro φ v clause w
  obtain ⟨hstays, hclassical, hclause⟩ := partial_values_are_final
  have hcanonical : clause.Canonical := by
    unfold Clause.Canonical
    decide
  have hnone : clause.value w = none := by decide
  refine ⟨fun q => hstays φ v _ true (fun name _ value hvalue => ?_) rfl,
    hclassical φ _ _ fun _ _ => rfl, rfl, hcanonical, rfl, fun b hall => ?_⟩
  · by_cases hname : name = "p"
    · simpa [v, hname] using hvalue
    · simp [v, hname] at hvalue
  · have hvalue := (hclause clause w b hcanonical rfl).mpr hall
    rw [hnone] at hvalue
    cases hvalue

end BeliefRevision
