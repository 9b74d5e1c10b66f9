import BeliefRevision.Proofs.CanonicalClause

/-!
# Soundness and completeness of resolution

It does not matter which of two clauses comes first: the pivots are negated, and the resolvents are the same.

A resolvent follows from the two clauses it comes from. Conversely, clauses that are closed under
resolution have a model unless the empty clause is among them. The model is built atom by atom: if
neither value of the next atom would do, one clause breaks on either value, and their resolvent on
that atom is broken already by the values chosen before.

Closure asks for less than every resolvent. Pairs with a tautology need not be resolved, resolvents
that are tautologies need not be there, and of any other resolvent a part is enough.
-/

namespace BeliefRevision

namespace Clause

/-! ## The order of two clauses -/

theorem merge_comm (left right : Clause) : merge left right = merge right left := by
  fun_induction merge left right with
  | case1 right => cases right <;> simp [merge]
  | case2 left => cases left <;> simp [merge]
  | case3 a left b right hlt ih =>
    rw [merge, Std.OrientedCmp.gt_of_lt hlt, ih]
  | case4 a left b right heq ih =>
    obtain rfl := Std.compare_eq_iff_eq.mp heq
    rw [merge, heq, ih]
  | case5 a left b right hgt ih =>
    rw [merge, Std.OrientedCmp.lt_of_gt hgt, ih]

/-- The walk along two clauses meets the same clashes from either side. -/
theorem pivots_swap (left right : Clause) :
    pivots right left = (pivots left right).map Literal.negate := by
  fun_induction pivots left right with
  | case1 right => cases right <;> simp [pivots]
  | case2 left => cases left <;> simp [pivots]
  | case3 a left b right hlt ih =>
    rw [pivots, Std.OrientedCmp.gt_of_lt hlt, ih]
  | case4 a left b right hgt ih =>
    rw [pivots, Std.OrientedCmp.lt_of_gt hgt, ih]
  | case5 a left b right heq hpolarity ih =>
    rw [pivots, Std.OrientedCmp.eq_symm heq]
    simp only [if_pos hpolarity.symm, ih]
  | case6 a left b right heq hpolarity ih =>
    have hne : a ≠ b := fun hab => hpolarity (by rw [hab])
    have hnegate := Literal.eq_negate_of_atom_eq (Nat.compare_eq_eq.mp heq) hne
    rw [pivots, Std.OrientedCmp.eq_symm heq]
    simp only [if_neg (Ne.symm hpolarity), ih, List.map_cons]
    rw [hnegate]

theorem resolve_swap (left right : Clause) (pivot : Literal) :
    right.resolve left pivot.negate = left.resolve right pivot := by
  rw [resolve, resolve, Literal.negate_negate, merge_comm]

theorem resolvents_comm (left right : Clause) : right.resolvents left = left.resolvents right := by
  simp only [resolvents, pivots_swap left right, List.map_map, Function.comp_def, resolve_swap]

/-- A clause does not clash with itself. -/
theorem resolvents_self (clause : Clause) : clause.resolvents clause = [] := by
  have hpivots : clause.pivots clause = [] := by
    induction clause with
    | nil => rw [pivots]
    | cons a rest ih => simp [pivots, ih]
  rw [resolvents, hpivots, List.map_nil]

/-! ## Soundness -/

/-- **A resolvent is true when both its clauses are**, whether or not other atoms have a value. -/
theorem value_resolve {assignment : Assignment Nat} {left right : Clause}
    (hleft : left.value assignment = some true) (hright : right.value assignment = some true)
    (pivot : Literal) : (left.resolve right pivot).value assignment = some true := by
  obtain ⟨l, hl, hltrue⟩ := value_eq_true_iff.mp hleft
  obtain ⟨r, hr, hrtrue⟩ := value_eq_true_iff.mp hright
  by_cases hlp : l = pivot
  · -- then the negation of the pivot is false, so the true literal of the right clause stays
    subst hlp
    refine value_eq_true_iff.mpr ⟨r, mem_resolve.mpr (.inr ⟨hr, ?_⟩), hrtrue⟩
    rintro rfl
    have hpolarity : l.polarity = !l.polarity := Option.some.inj (hltrue.symm.trans hrtrue)
    simp at hpolarity
  · exact value_eq_true_iff.mpr ⟨l, mem_resolve.mpr (.inl ⟨hl, hlp⟩), hltrue⟩

theorem Holds.resolve {v : Nat → Bool} {left right : Clause} (hleft : left.Holds v)
    (hright : right.Holds v) (pivot : Literal) : (left.resolve right pivot).Holds v :=
  value_resolve hleft hright pivot

end Clause

/-! ## Closed lists of clauses -/

/-- A clause with literals of the resolvent only. -/
def PartOfResolvent (part left right : Clause) (pivot : Literal) : Prop :=
  ∀ l ∈ part, l ∈ left ∧ l ≠ pivot ∨ l ∈ right ∧ l ≠ pivot.negate

/-- Every clash of two clauses that are no tautologies is resolved: a part of the resolvent is a
tautology or in the list. -/
def ClosedUnderResolution (clauses : List Clause) : Prop :=
  ∀ left ∈ clauses, ∀ right ∈ clauses, left.isTautology = false → right.isTautology = false →
    ∀ pivot ∈ left, pivot.negate ∈ right →
      ∃ part : Clause, PartOfResolvent part left right pivot ∧ part.Canonical ∧
        (part.isTautology = true ∨ part ∈ clauses)

/-- The values `v` with the value of one atom replaced. -/
def setAtom (v : Nat → Bool) (atom : Nat) (value : Bool) : Nat → Bool :=
  fun a => if a = atom then value else v a

theorem setAtom_of_ne {v : Nat → Bool} {atom a : Nat} {value : Bool} (h : a ≠ atom) :
    setAtom v atom value a = v a := if_neg h

@[simp] theorem setAtom_self (v : Nat → Bool) (atom : Nat) (value : Bool) :
    setAtom v atom value atom = value := if_pos rfl

/-- A clause that breaks when its last atom gets a value has the literal of the other value there,
and only that one. -/
theorem broken_by_setAtom {v : Nat → Bool} {n : Nat} {value : Bool} {clause : Clause}
    (hatoms : ∀ l ∈ clause, l.atom < n + 1)
    (hbelow : (∀ l ∈ clause, l.atom < n) → clause.Holds v)
    (hbroken : ¬ clause.Holds (setAtom v n value)) :
    ⟨n, !value⟩ ∈ clause ∧ ∀ l ∈ clause, l ≠ ⟨n, !value⟩ → l.atom < n := by
  have honly : ∀ l ∈ clause, l.atom = n → l = ⟨n, !value⟩ := by
    rintro ⟨atom, polarity⟩ hl rfl
    have hfalse : value ≠ polarity := by
      intro htrue
      exact hbroken (Clause.holds_iff.mpr ⟨_, hl, by simpa using htrue⟩)
    cases value <;> cases polarity <;> simp_all
  have hrest : ∀ l ∈ clause, l ≠ ⟨n, !value⟩ → l.atom < n := by
    intro l hl hne
    have hlt := hatoms l hl
    have hn : l.atom ≠ n := fun hn => hne (honly l hl hn)
    omega
  refine ⟨?_, hrest⟩
  -- without an atom `n` the clause would hold already on `v`
  apply Classical.byContradiction
  intro hmem
  have hlt : ∀ l ∈ clause, l.atom < n := fun l hl => hrest l hl fun h => hmem (h ▸ hl)
  refine hbroken ((Clause.holds_congr ?_).mp (hbelow hlt))
  intro l hl
  have := hlt l hl
  exact (setAtom_of_ne (by omega)).symm

/-- The values of the first atoms can be chosen so that all clauses over these atoms hold. -/
theorem exists_model_below {clauses : List Clause} (hcanonical : ∀ c ∈ clauses, c.Canonical)
    (hempty : [] ∉ clauses) (hclosed : ClosedUnderResolution clauses) (n : Nat) :
    ∃ v : Nat → Bool, ∀ c ∈ clauses, (∀ l ∈ c, l.atom < n) → c.Holds v := by
  induction n with
  | zero =>
    refine ⟨fun _ => true, ?_⟩
    intro c hc hatoms
    have hnil : c = [] := List.eq_nil_iff_forall_not_mem.mpr fun l hl => by
      have := hatoms l hl
      omega
    exact absurd (hnil ▸ hc) hempty
  | succ n ih =>
    obtain ⟨v, hv⟩ := ih
    apply Classical.byContradiction
    intro hnone
    have hbroken : ∀ value : Bool, ∃ c ∈ clauses, (∀ l ∈ c, l.atom < n + 1) ∧
        ¬ c.Holds (setAtom v n value) := by
      intro value
      apply Classical.byContradiction
      intro hfine
      refine hnone ⟨setAtom v n value, fun c hc hatoms => ?_⟩
      exact Classical.byContradiction fun h => hfine ⟨c, hc, hatoms, h⟩
    obtain ⟨left, hleft, hlatoms, hlbroken⟩ := hbroken false
    obtain ⟨right, hright, hratoms, hrbroken⟩ := hbroken true
    obtain ⟨hpivot, hlbelow⟩ := broken_by_setAtom hlatoms (hv left hleft) hlbroken
    obtain ⟨hneg, hrbelow⟩ := broken_by_setAtom hratoms (hv right hright) hrbroken
    have hltaut : left.isTautology = false := by
      rw [Bool.eq_false_iff]
      exact fun h => hlbroken (Clause.holds_of_isTautology (hcanonical left hleft) h)
    have hrtaut : right.isTautology = false := by
      rw [Bool.eq_false_iff]
      exact fun h => hrbroken (Clause.holds_of_isTautology (hcanonical right hright) h)
    obtain ⟨part, hpart, hpcanonical, hmem⟩ :=
      hclosed left hleft right hright hltaut hrtaut ⟨n, true⟩ hpivot hneg
    -- the part is over the first `n` atoms, so it holds, and its true literal saves a clause
    have hpbelow : ∀ l ∈ part, l.atom < n := by
      intro l hl
      rcases hpart l hl with ⟨hl, hne⟩ | ⟨hr, hne⟩
      · exact hlbelow l hl hne
      · exact hrbelow l hr hne
    have hpholds : part.Holds v := by
      rcases hmem with htaut | hmem
      · exact Clause.holds_of_isTautology hpcanonical htaut
      · exact hv part hmem hpbelow
    obtain ⟨l, hl, htrue⟩ := Clause.holds_iff.mp hpholds
    have hset : ∀ value, setAtom v n value l.atom = l.polarity := by
      intro value
      have := hpbelow l hl
      rw [setAtom_of_ne (by omega)]
      exact htrue
    rcases hpart l hl with ⟨hl, _⟩ | ⟨hr, _⟩
    · exact hlbroken (Clause.holds_iff.mpr ⟨l, hl, hset false⟩)
    · exact hrbroken (Clause.holds_iff.mpr ⟨l, hr, hset true⟩)

/-- The atoms of finitely many literals have a bound. -/
theorem exists_atom_bound (literals : List Literal) : ∃ n, ∀ l ∈ literals, l.atom < n := by
  induction literals with
  | nil => exact ⟨0, by simp⟩
  | cons first rest ih =>
    obtain ⟨n, hn⟩ := ih
    refine ⟨max (first.atom + 1) n, ?_⟩
    intro l hl
    rcases List.mem_cons.mp hl with rfl | hl
    · omega
    · have := hn l hl
      omega

/-- **Clauses closed under resolution have a model, unless the empty clause is one of them.** -/
theorem satisfiable_of_closed {clauses : List Clause} (hcanonical : ∀ c ∈ clauses, c.Canonical)
    (hempty : [] ∉ clauses) (hclosed : ClosedUnderResolution clauses) : Satisfiable clauses := by
  obtain ⟨n, hn⟩ := exists_atom_bound clauses.flatten
  obtain ⟨v, hv⟩ := exists_model_below hcanonical hempty hclosed n
  exact ⟨v, fun c hc => hv c hc fun l hl => hn l (List.mem_flatten.mpr ⟨c, hc, hl⟩)⟩

end BeliefRevision
