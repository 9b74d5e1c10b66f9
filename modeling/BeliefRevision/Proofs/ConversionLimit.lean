import Mathlib.Data.Finset.Prod
import BeliefRevision.Proofs.Renumbering

/-!
# The limit of a conversion is exact

A conversion tests its limit while it puts clauses together: with each clause that a product brings, and
once for each union. It leaves out tautologies and comes upon some clauses more than once. None of this
shows in the end. Without a limit every normal form has a set of clauses, and a conversion gives up exactly
if one of the conjunctions and disjunctions in the form has too many.

* `NormalForm.unlimited` — the clauses by a recursion over the form, with no limit in it
* `mem_clauseSet_iff`, `size_clauseSet` — the clauses that a conversion collects are these
* `fits_iff` — the limit is a bound on all `compounds` of a form, and on nothing else
* `Formula.conversion_limit_is_exact` — what a conversion answers, in terms of these sets
-/

namespace BeliefRevision

namespace NormalForm

/-! ## Clauses without a limit -/

/-- The clauses of a normal form: none for `⊤`, the empty one for `⊥`, the unit of a literal, those of
either side of `∧`, and for `∨` the unions of a clause of either side that are no tautologies. -/
def unlimited (number : String → Nat) : NormalForm → Finset Clause
  | .constant true => ∅
  | .constant false => {[]}
  | .literal name polarity => {[⟨number name, polarity⟩]}
  | .and left right => left.unlimited number ∪ right.unlimited number
  | .or left right =>
    ((left.unlimited number ×ˢ right.unlimited number).image fun pair =>
      Clause.ofLiterals (pair.1 ++ pair.2)).filter fun clause => ¬ Clause.Clashes clause

/-- The conjunctions and disjunctions in a normal form. -/
def compounds : NormalForm → List NormalForm
  | .constant _ | .literal _ _ => []
  | .and left right => .and left right :: (left.compounds ++ right.compounds)
  | .or left right => .or left right :: (left.compounds ++ right.compounds)

variable {ψ : NormalForm} {limit : Nat} {number : String → Nat}

theorem mem_unlimited_or {left right : NormalForm} {c : Clause} :
    c ∈ (NormalForm.or left right).unlimited number ↔
      ∃ a ∈ left.unlimited number, ∃ b ∈ right.unlimited number,
        c = Clause.ofLiterals (a ++ b) ∧ ¬ c.Clashes := by
  rw [unlimited, Finset.mem_filter, Finset.mem_image]
  constructor
  · rintro ⟨⟨pair, hpair, rfl⟩, hclash⟩
    obtain ⟨ha, hb⟩ := Finset.mem_product.mp hpair
    exact ⟨pair.1, ha, pair.2, hb, rfl, hclash⟩
  · rintro ⟨a, ha, b, hb, rfl, hclash⟩
    exact ⟨⟨(a, b), Finset.mem_product.mpr ⟨ha, hb⟩, rfl⟩, hclash⟩

/-- **A conversion collects these clauses.** -/
theorem mem_clauseSet_iff {c : Clause} : c ∈ ψ.clauseSet number ↔ c ∈ ψ.unlimited number := by
  induction ψ generalizing c with
  | constant value =>
    cases value with
    | true => simp [clauseSet, unlimited]
    | false => rw [clauseSet, ClauseSet.mem_singleton, unlimited, Finset.mem_singleton]
  | literal name polarity =>
    rw [clauseSet, ClauseSet.mem_singleton, unlimited, Finset.mem_singleton]
  | and left right ihl ihr =>
    rw [clauseSet, ClauseSet.mem_union, unlimited, Finset.mem_union, ihl, ihr]
  | or left right ihl ihr =>
    rw [clauseSet, ClauseSet.mem_product, mem_unlimited_or]
    simp only [← ihl, ← ihr]
    -- the two sides differ in how the union is computed and a tautology is told
    refine exists_congr fun a => and_congr_right fun ha => exists_congr fun b =>
      and_congr_right fun hb => ?_
    have hcanonical := (clauseSet_canonical ha).merge (clauseSet_canonical hb)
    rw [← Clause.merge_eq_ofLiterals (clauseSet_canonical ha) (clauseSet_canonical hb)]
    refine and_congr_right fun hc => ?_
    rw [hc, Clause.not_clashes_iff hcanonical]

theorem size_clauseSet (ψ : NormalForm) (number : String → Nat) :
    (ψ.clauseSet number).size = (ψ.unlimited number).card := by
  have hsame : (ψ.clauseSet number).toList.toFinset = ψ.unlimited number := by
    ext c
    rw [List.mem_toFinset, ClauseSet.mem_toList, mem_clauseSet_iff]
  rw [← hsame, List.toFinset_card_of_nodup (ClauseSet.nodup_toList _),
    Std.ExtTreeSet.length_toList]

/-- **The limit is a bound on each conjunction and disjunction**, and on nothing else. -/
theorem fits_iff :
    ψ.Fits limit number ↔ ∀ node ∈ ψ.compounds, (node.unlimited number).card ≤ limit := by
  induction ψ with
  | constant | literal => simp [Fits, compounds]
  | and left right ihl ihr | or left right ihl ihr =>
    rw [Fits, compounds, List.forall_mem_cons, List.forall_mem_append, ihl, ihr, size_clauseSet]
    exact and_rotate.symm

/-- A form that fits has at most `limit` clauses itself, if one clause is allowed at all. -/
theorem Fits.card_le (h : ψ.Fits limit number) (hlimit : 1 ≤ limit) :
    (ψ.unlimited number).card ≤ limit := by
  cases ψ with
  | constant value =>
    cases value with
    | true => exact Nat.zero_le limit
    | false => exact hlimit
  | literal name polarity => exact hlimit
  | and left right | or left right => exact fits_iff.mp h _ List.mem_cons_self

end NormalForm

/-! ## Conversions -/

/-- **The limit of a conversion is exact.** The conversion of a formula fails, and then with the error of
the limit, exactly if some conjunction or disjunction in its normal form has more than `limit` clauses.
Otherwise it answers with all clauses of the normal form, and no others. Where the limit is not zero, these
are not more than the limit. -/
theorem Formula.conversion_limit_is_exact (φ : Formula) (limit : Nat) (v : Vocabulary) :
    let ψ := φ.conversionForm
    let w := v.internAll ψ.names
    ((φ.clauses limit v).1 = .error .conversionLimit ↔
        ∃ node ∈ ψ.compounds, limit < (node.unlimited w.number).card) ∧
      ((∀ node ∈ ψ.compounds, (node.unlimited w.number).card ≤ limit) →
        ∃ clauses, φ.clauses limit v = (.ok clauses, w) ∧
          ∀ c, c ∈ clauses ↔ c ∈ ψ.unlimited w.number) ∧
      ∀ clauses, 1 ≤ limit → (φ.clauses limit v).1 = .ok clauses → clauses.size ≤ limit := by
  intro ψ w
  have hconvert (hfits : ψ.Fits limit w.number) :
      φ.clauses limit v = (.ok (ψ.clauseSet w.number), w) := NormalForm.clauses_run rfl hfits
  have hfail (hfits : ¬ ψ.Fits limit w.number) :
      (φ.clauses limit v).1 = .error .conversionLimit := by
    obtain ⟨read, _, hrun⟩ := NormalForm.clauses_give_up rfl hfits
    exact congrArg Prod.fst hrun
  refine ⟨?_, ?_, ?_⟩
  · by_cases hfits : ψ.Fits limit w.number
    · rw [hconvert hfits]
      have hnone := NormalForm.fits_iff.mp hfits
      constructor
      · intro herror
        cases herror
      · rintro ⟨node, hnode, hlarge⟩
        exact absurd (hnone node hnode) (Nat.not_le.mpr hlarge)
    · refine ⟨fun _ => ?_, fun _ => hfail hfits⟩
      rw [NormalForm.fits_iff] at hfits
      simpa only [not_forall, Nat.not_le, exists_prop] using hfits
  · intro hnodes
    exact ⟨_, hconvert (NormalForm.fits_iff.mpr hnodes), fun c => NormalForm.mem_clauseSet_iff⟩
  · intro clauses hlimit hok
    by_cases hfits : ψ.Fits limit w.number
    · rw [hconvert hfits] at hok
      cases hok
      rw [NormalForm.size_clauseSet]
      exact hfits.card_le hlimit
    · rw [hfail hfits] at hok
      cases hok

/-- Of the six unions for `(p ∧ q) ∨ (¬p ∧ (p ∧ q))` one is a tautology and one comes twice, so a limit of four
is enough, and one of three is not. -/
theorem Formula.conversion_limit_is_exact_at_four :
    let p : Formula := .atom "p"
    let both : Formula := .binary .and p (.atom "q")
    let φ : Formula := .binary .or both (.binary .and (.not p) both)
    (φ.clauses 3 .empty).1 = .error .conversionLimit ∧
      ∃ clauses w, φ.clauses 4 .empty = (.ok clauses, w) ∧ clauses.size ≤ 4 ∧
        ∀ c, c ∈ clauses ↔ c ∈ ({[⟨0, true⟩], [⟨0, true⟩, ⟨1, true⟩], [⟨0, false⟩, ⟨1, true⟩],
          [⟨1, true⟩]} : Finset Clause) := by
  intro p both φ
  let ψ := φ.conversionForm
  let w := Vocabulary.empty.internAll ψ.names
  obtain ⟨htight, _, _⟩ := φ.conversion_limit_is_exact 3 .empty
  obtain ⟨_, hwide, hbounded⟩ := φ.conversion_limit_is_exact 4 .empty
  have hlarge : ∃ node ∈ ψ.compounds, 3 < (node.unlimited w.number).card := by decide +kernel
  have hnodes : ∀ node ∈ ψ.compounds, (node.unlimited w.number).card ≤ 4 := by decide +kernel
  have hclauses : ψ.unlimited w.number = {[⟨0, true⟩], [⟨0, true⟩, ⟨1, true⟩],
      [⟨0, false⟩, ⟨1, true⟩], [⟨1, true⟩]} := by decide +kernel
  obtain ⟨clauses, hrun, hmem⟩ := hwide hnodes
  refine ⟨htight.mpr hlarge, clauses, _, hrun, hbounded clauses (by decide) (by rw [hrun]), ?_⟩
  exact fun c => (hmem c).trans (by rw [hclauses])

end BeliefRevision
