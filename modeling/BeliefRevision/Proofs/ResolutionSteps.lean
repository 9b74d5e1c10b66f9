import BeliefRevision.Proofs.Resolution

/-!
# The steps of resolution

What a single step does with two canonical clauses, whatever literal it is asked to resolve on. The
resolvent is again a canonical clause, the one of the literals that are left. The order of the two clauses
does not matter, as long as the pivot is negated along with it.

The walk that looks for pivots stops at each atom that both clauses have, and takes at most one literal
there. It goes along both clauses in the same way, so the pivots seen from the other side are the negations.
In a tautology there are two literals of one atom, and the walk may then leave a clash out. Where it finds
more than one pivot, every resolvent is a tautology: the other pivots stay, and so do their negations.

* `Canonical.resolve_eq_ofLiterals` — resolvents
* `pivots_sublist`, `Canonical.pivots` — pivots ascend
* `isTautology_resolve` — resolvents of clauses with more than one pivot
* `resolution_steps_exact` — all of it
-/

namespace BeliefRevision.Clause

variable {left right : Clause} {l pivot : Literal}

/-! ## Resolvents -/

/-- A resolvent is the canonical clause of what is left of the two clauses. -/
theorem Canonical.resolve_eq_ofLiterals (hleft : left.Canonical) (hright : right.Canonical)
    (pivot : Literal) : left.resolve right pivot =
      ofLiterals (left.filter (· ≠ pivot) ++ right.filter (· ≠ pivot.negate)) :=
  merge_eq_ofLiterals (List.Pairwise.filter _ hleft) (List.Pairwise.filter _ hright)

/-! ## Pivots -/

/-- The pivots come in the order of the first clause. -/
theorem pivots_sublist (left right : Clause) : (left.pivots right).Sublist left := by
  fun_induction pivots left right with
  | case1 | case2 => exact List.nil_sublist _
  | case3 a left b right hlt ih => exact ih.cons a
  | case4 a left b right hgt ih => exact ih
  | case5 a left b right heq hpolarity ih => exact ih.cons a
  | case6 a left b right heq hpolarity ih => exact ih.cons_cons a

theorem Canonical.pivots (hleft : left.Canonical) (right : Clause) :
    Canonical (left.pivots right) :=
  List.Pairwise.sublist (pivots_sublist left right) hleft

/-- Every pivot but the one resolved on stays, and so does its negation. -/
theorem isTautology_resolve (hleft : left.Canonical) (hright : right.Canonical)
    (hl : l ∈ left.pivots right) (hne : l ≠ pivot) : (left.resolve right pivot).isTautology = true := by
  obtain ⟨hmem, hneg⟩ := clash_of_mem_pivots hl
  refine (isTautology_iff (hleft.resolve hright pivot)).mpr ⟨l, ?_, ?_⟩
  · exact mem_resolve.mpr (.inl ⟨hmem, hne⟩)
  · refine mem_resolve.mpr (.inr ⟨hneg, fun hsame => hne ?_⟩)
    rw [← l.negate_negate, hsame, Literal.negate_negate]

/-- **With more than one pivot there is nothing to gain**: the resolvent on any of them is a tautology. -/
theorem isTautology_resolve_of_two (hleft : left.Canonical) (hright : right.Canonical)
    (htwo : 2 ≤ (left.pivots right).length) (hpivot : pivot ∈ left.pivots right) :
    (left.resolve right pivot).isTautology = true := by
  have hothers : 0 < ((left.pivots right).erase pivot).length := by
    rw [List.length_erase_of_mem hpivot]
    omega
  obtain ⟨l, hl⟩ := List.exists_mem_of_length_pos hothers
  obtain ⟨hne, hl⟩ := (hleft.pivots right).nodup.mem_erase_iff.mp hl
  exact isTautology_resolve hleft hright hl hne

/-! ## Both -/

/-- **What resolution does with two canonical clauses.** On whatever literal, the resolvent is the canonical
clause of the other literals, the same for both orders of the clauses, and true when both are. To be a
tautology is to have an atom in both polarities. The pivots ascend, each of them clashes with the other
clause, and none is missing unless a clause is a tautology. Seen from the other side they are negated, and
where there is more than one, all resolvents on them are tautologies. -/
theorem resolution_steps_exact (hleft : left.Canonical) (hright : right.Canonical) :
    (∀ pivot : Literal,
      (left.resolve right pivot).Canonical ∧
      (∀ l, l ∈ left.resolve right pivot ↔
        l ∈ left ∧ l ≠ pivot ∨ l ∈ right ∧ l ≠ pivot.negate) ∧
      left.resolve right pivot =
        ofLiterals (left.filter (· ≠ pivot) ++ right.filter (· ≠ pivot.negate)) ∧
      left.resolve right pivot = right.resolve left pivot.negate ∧
      ∀ assignment : Assignment Nat, left.value assignment = some true →
        right.value assignment = some true →
          (left.resolve right pivot).value assignment = some true) ∧
    (left.isTautology = true ↔
      ∃ atom, (⟨atom, true⟩ : Literal) ∈ left ∧ (⟨atom, false⟩ : Literal) ∈ left) ∧
    Canonical (left.pivots right) ∧
    (∀ l ∈ left.pivots right, l ∈ left ∧ l.negate ∈ right) ∧
    left.pivots right = (right.pivots left).map Literal.negate ∧
    (left.isTautology = false → right.isTautology = false →
      ∀ l ∈ left, l.negate ∈ right → l ∈ left.pivots right) ∧
    (2 ≤ (left.pivots right).length →
      ∀ pivot ∈ left.pivots right, (left.resolve right pivot).isTautology = true) := by
  refine ⟨fun pivot => ⟨hleft.resolve hright pivot, fun l => mem_resolve,
    hleft.resolve_eq_ofLiterals hright pivot, (resolve_swap left right pivot).symm,
    fun assignment hl hr => value_resolve hl hr pivot⟩, ?_, hleft.pivots right,
    fun l => clash_of_mem_pivots, pivots_swap right left, ?_,
    fun htwo pivot => isTautology_resolve_of_two hleft hright htwo⟩
  · exact (isTautology_iff hleft).trans clashes_iff_polarities
  · intro htleft htright l hl hneg
    exact (mem_pivots_iff hleft hright htleft htright).mpr ⟨hl, hneg⟩

/-- Two clauses that clash in the first and the last of their atoms. -/
theorem resolution_steps_exact_of_two_clashes :
    let left : Clause := [⟨0, true⟩, ⟨1, false⟩, ⟨2, true⟩]
    let right : Clause := [⟨0, false⟩, ⟨1, false⟩, ⟨2, false⟩]
    left.Canonical ∧ right.Canonical ∧ left.pivots right = [⟨0, true⟩, ⟨2, true⟩] ∧
      right.resolve left ⟨0, false⟩ = [⟨1, false⟩, ⟨2, false⟩, ⟨2, true⟩] ∧
      left.resolve right ⟨0, true⟩ = right.resolve left ⟨0, false⟩ ∧
      (left.resolve right ⟨0, true⟩).isTautology = true := by
  intro left right
  have hleft : left.Canonical := by
    unfold Canonical
    decide
  have hright : right.Canonical := by
    unfold Canonical
    decide
  have hpivots : left.pivots right = [⟨0, true⟩, ⟨2, true⟩] := by decide +kernel
  obtain ⟨hresolve, _, _, _, _, _, htwo⟩ := resolution_steps_exact hleft hright
  refine ⟨hleft, hright, hpivots, by decide +kernel, (hresolve ⟨0, true⟩).2.2.2.1, ?_⟩
  refine htwo ?_ ⟨0, true⟩ ?_
  · rw [hpivots]
    decide
  · rw [hpivots]
    exact List.mem_cons_self

/-- In tautologies the walk may leave out a clash. -/
example : pivots [⟨0, false⟩, ⟨0, true⟩] [⟨0, false⟩, ⟨0, true⟩] = [] := by decide +kernel

end BeliefRevision.Clause
