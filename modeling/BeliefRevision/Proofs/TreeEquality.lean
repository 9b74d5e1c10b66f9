import BeliefRevision.Proofs.Representation

/-!
# Comparing formulas with a stack of pairs

Two formulas can be compared without recursion. Pairs of formulas that have yet to be compared wait on a
stack. Of the pair on top the roots are compared, and if they agree, the operands take the place of the pair,
each with its counterpart. The first two roots that differ end the comparison.

Nothing is kept of the pairs that agreed so far. The stack decides alone what is still open, since two
formulas are the same exactly if their roots agree and their operands are the same in pairs.

* `Formula.eq_iff_operandPairs?` — one step, by the constructors of both formulas
* `Formula.comparePairs_iff` — all steps, from any stack
* `Base.positionOf?_eq_some_iff` — with such comparisons a belief is found at its own position
* `comparison_finds_positions` — all of it, and what it means for membership and removal

## Termination

The operands of a formula have fewer nodes together than the formula itself, so the nodes of the left
formulas on the stack become fewer in each step.
-/

namespace BeliefRevision

namespace Formula

variable {φ ψ : Formula} {pairs pending : List (Formula × Formula)}

/-! ## One step -/

/-- The operands of two formulas in pairs, the left ones first, if the roots agree. -/
def operandPairs? : Formula → Formula → Option (List (Formula × Formula))
  | .constant value, .constant other => if value = other then some [] else none
  | .atom name, .atom other => if name = other then some [] else none
  | .not operand, .not other => some [(operand, other)]
  | .binary c left right, .binary d otherLeft otherRight =>
    if c = d then some [(left, otherLeft), (right, otherRight)] else none
  | _, _ => none

/-- **Formulas are the same if their roots agree and their operands are the same in pairs**, and only then. -/
theorem eq_iff_operandPairs? :
    φ = ψ ↔ ∃ pairs, φ.operandPairs? ψ = some pairs ∧ ∀ pair ∈ pairs, pair.1 = pair.2 := by
  cases φ with
  | constant value =>
    cases ψ with
    | constant other => simp [operandPairs?]
    | atom | not | binary => simp [operandPairs?]
  | atom name =>
    cases ψ with
    | atom other => simp [operandPairs?]
    | constant | not | binary => simp [operandPairs?]
  | not operand =>
    cases ψ with
    | not other => simp [operandPairs?]
    | constant | atom | binary => simp [operandPairs?]
  | binary c left right =>
    cases ψ with
    | binary d otherLeft otherRight =>
      by_cases hc : c = d
      · subst hc
        simp only [operandPairs?, if_true, Option.some.injEq, exists_eq_left', List.forall_mem_cons,
          List.not_mem_nil, IsEmpty.forall_iff, implies_true, and_true, binary.injEq, true_and]
      · simp [operandPairs?, hc]
    | constant | atom | not => simp [operandPairs?]

theorem eq_iff_of_operandPairs? (h : φ.operandPairs? ψ = some pairs) :
    φ = ψ ↔ ∀ pair ∈ pairs, pair.1 = pair.2 := by
  rw [eq_iff_operandPairs?, h]
  simp

theorem ne_of_operandPairs? (h : φ.operandPairs? ψ = none) : φ ≠ ψ := by
  rw [ne_eq, eq_iff_operandPairs?, h]
  simp

/-! ## All steps -/

/-- The number of nodes of the left formulas. -/
def leftNodes : List (Formula × Formula) → Nat
  | [] => 0
  | (φ, _) :: pending => φ.nodes + leftNodes pending

theorem leftNodes_append (pairs pending : List (Formula × Formula)) :
    leftNodes (pairs ++ pending) = leftNodes pairs + leftNodes pending := by
  induction pairs with
  | nil => simp [leftNodes]
  | cons pair pairs ih => simp [leftNodes, ih, Nat.add_assoc]

theorem leftNodes_lt (h : φ.operandPairs? ψ = some pairs) : leftNodes pairs < φ.nodes := by
  revert h
  fun_cases operandPairs? φ ψ with
  | case1 | case3 | case5 =>
    rintro ⟨⟩
    simp [leftNodes, nodes]
  | case6 =>
    rintro ⟨⟩
    simp only [leftNodes, nodes]
    omega
  | case2 | case4 | case7 | case8 => rintro ⟨⟩

/-- Whether the formulas of every pair on the stack are the same. -/
def comparePairs : List (Formula × Formula) → Bool
  | [] => true
  | (φ, ψ) :: pending =>
    match _h : φ.operandPairs? ψ with
    | some pairs => comparePairs (pairs ++ pending)
    | none => false
termination_by pending => leftNodes pending
decreasing_by
  have hlt := leftNodes_lt _h
  rw [leftNodes_append, leftNodes]
  omega

/-- Whether two formulas are the same, by a comparison that starts with them alone. -/
def sameTree (φ ψ : Formula) : Bool := comparePairs [(φ, ψ)]

/-- **A comparison ends with success exactly if the formulas of each pair are the same.** -/
theorem comparePairs_iff : comparePairs pending = true ↔ ∀ pair ∈ pending, pair.1 = pair.2 := by
  fun_induction comparePairs pending with
  | case1 => simp
  | case2 φ ψ pending pairs hpairs ih =>
    rw [ih, List.forall_mem_append, List.forall_mem_cons, eq_iff_of_operandPairs? hpairs]
  | case3 φ ψ pending hnone =>
    simp [ne_of_operandPairs? hnone]

theorem sameTree_iff : φ.sameTree ψ = true ↔ φ = ψ := by
  rw [sameTree, comparePairs_iff, List.forall_mem_singleton]

theorem sameTree_eq (φ ψ : Formula) : φ.sameTree ψ = (φ == ψ) := by
  rw [Bool.eq_iff_iff, sameTree_iff, beq_iff_eq]

end Formula

/-! ## Positions of beliefs -/

namespace Base

variable {base : Base} {φ : Formula} {position : Nat}

/-- The position of the first belief with a formula that compares as the same. -/
def positionOf? (base : Base) (φ : Formula) : Option Nat :=
  base.entries.findIdx? fun entry => entry.formula.sameTree φ

theorem positionOf?_eq_findIdx? (base : Base) (φ : Formula) :
    base.positionOf? φ = base.entries.findIdx? (·.formula == φ) := by
  simp only [positionOf?, Formula.sameTree_eq]

theorem positionOf?_eq_idxOf? (base : Base) (φ : Formula) :
    base.positionOf? φ = base.formulas.idxOf? φ := by
  rw [positionOf?_eq_findIdx?, formulas, List.idxOf?, List.findIdx?_map]
  rfl

/-- **Where beliefs are distinct, the position found is that of the formula.** -/
theorem positionOf?_eq_some_iff (hdistinct : base.formulas.Nodup) :
    base.positionOf? φ = some position ↔ base.formulas[position]? = some φ := by
  rw [positionOf?_eq_idxOf?]
  constructor
  · intro h
    obtain ⟨hlt, hget, _⟩ := List.idxOf?_eq_some_iff.mp h
    rw [List.getElem?_eq_getElem hlt, hget]
  · intro h
    obtain ⟨found, hfound⟩ := Option.isSome_iff_exists.mp
      (List.isSome_idxOf?.mpr (List.mem_of_getElem? h))
    obtain ⟨hlt, hget, _⟩ := List.idxOf?_eq_some_iff.mp hfound
    have hsame : base.formulas[found]? = base.formulas[position]? := by
      rw [List.getElem?_eq_getElem hlt, hget, h]
    rw [hfound, (List.getElem?_inj hlt hdistinct).mp hsame]

theorem positionOf?_eq_none_iff : base.positionOf? φ = none ↔ φ ∉ base.formulas := by
  rw [positionOf?_eq_idxOf?, List.idxOf?_eq_none_iff]

theorem contains_eq_isSome (base : Base) (φ : Formula) :
    base.contains φ = (base.positionOf? φ).isSome := by
  rw [Bool.eq_iff_iff, contains_iff, positionOf?_eq_idxOf?, List.isSome_idxOf?]

end Base

/-- A removal takes out the belief at the position found. -/
theorem Operation.remove_run (φ : Formula) (s : Session) :
    (remove φ).perform s = match s.base.positionOf? φ with
      | some position =>
        (.ok .removed, (s.withEntries (s.base.entries.eraseIdx position)).send (.removed φ))
      | none => (.ok .missing, s) := by
  unfold perform remove
  rw [base_bind, Base.contains_eq_isSome]
  cases hposition : s.base.positionOf? φ with
  | none => rfl
  | some position =>
    rw [Base.positionOf?_eq_findIdx?] at hposition
    have herase : s.base.entries.eraseP (·.formula == φ) = s.base.entries.eraseIdx position := by
      rw [List.eraseP_eq_eraseIdx, hposition]
    show (_, (s.withEntries _).send _) = (_, (s.withEntries _).send _)
    rw [herase]

/-- **Comparing with a stack of pairs decides whether two formulas are the same tree.** So in every base
that can come about a formula is found at the one position where it is believed, and at none if it is not.
To be believed is to have a position, and a removal takes out the belief at this position. -/
theorem comparison_finds_positions :
    (∀ φ ψ : Formula, φ.sameTree ψ = true ↔ φ = ψ) ∧
      ∀ s : Session, s.Reachable → ∀ φ : Formula,
        (∀ position, s.base.positionOf? φ = some position ↔
          s.base.formulas[position]? = some φ ∧
            ∀ other, s.base.formulas[other]? = some φ → other = position) ∧
        (s.base.positionOf? φ = none ↔ φ ∉ s.base.formulas) ∧
        s.base.contains φ = (s.base.positionOf? φ).isSome ∧
        (Operation.remove φ).perform s = match s.base.positionOf? φ with
          | some position =>
            (.ok .removed, (s.withEntries (s.base.entries.eraseIdx position)).send (.removed φ))
          | none => (.ok .missing, s) := by
  refine ⟨fun φ ψ => Formula.sameTree_iff, fun s hreachable φ => ⟨fun position => ?_,
    Base.positionOf?_eq_none_iff, s.base.contains_eq_isSome φ, Operation.remove_run φ s⟩⟩
  have hfound {i : Nat} : s.base.positionOf? φ = some i ↔ s.base.formulas[i]? = some φ :=
    Base.positionOf?_eq_some_iff hreachable.tidy.distinct
  constructor
  · intro h
    refine ⟨hfound.mp h, fun other hother => ?_⟩
    rw [← hfound, h, Option.some_inj] at hother
    exact hother.symm
  · rintro ⟨h, _⟩
    exact hfound.mpr h

/-- After `p` was added, taken out and added again behind `q ∧ p`, it is found behind it. The conjunction
with its operands in the other order is another formula and has no position. -/
theorem comparison_finds_positions_of_conjunctions :
    let p : Formula := .atom "p"
    let q : Formula := .atom "q"
    let s := Session.afterAll {}
      [.expand p, .expandWith (.binary .and q p) 3, .remove p, .expandWith p 2]
    s.Reachable ∧ s.base.positionOf? p = some 1 ∧
      s.base.positionOf? (.binary .and p q) = none ∧
      ¬ (Formula.binary .and p q).sameTree (.binary .and q p) = true ∧
      ((Operation.remove p).perform s).2.base.formulas = [.binary .and q p] := by
  intro p q s
  have hreachable : s.Reachable := (Session.Reachable.start {}).afterAll _
  have hformulas : s.base.formulas = [.binary .and q p, p] := by decide +kernel
  clear_value s
  obtain ⟨hsame, hpositions⟩ := comparison_finds_positions
  obtain ⟨hsome, _, _, hremove⟩ := hpositions s hreachable p
  obtain ⟨_, hnone, _, _⟩ := hpositions s hreachable (.binary .and p q)
  have hposition : s.base.positionOf? p = some 1 := by
    rw [hsome, hformulas]
    refine ⟨rfl, fun other hother => ?_⟩
    match other with
    | 0 => cases hother
    | 1 => rfl
    | other + 2 => cases hother
  refine ⟨hreachable, hposition, ?_, ?_, ?_⟩
  · rw [hnone, hformulas]
    decide
  · rw [hsame]
    decide
  · rw [hremove, hposition]
    show (s.base.entries.eraseIdx 1).map Entry.formula = _
    rw [← List.eraseIdx_map]
    show s.base.formulas.eraseIdx 1 = _
    rw [hformulas]
    rfl

end BeliefRevision
