import BeliefRevision.Proofs.Names

/-!
# Names are learned in reading order

A conversion reads the names of a normal form, in which parts of the formula stand twice and in another
order. Wherever a part comes again, its names are known by then, so what a vocabulary learns is what it
would learn from the formula itself, read from left to right.

* `Vocabulary.names_internAll` — what a vocabulary learns from a list of names
* `internAll_conversionForm` — the rewriting in front of a conversion does not change that
* `names_learned_in_reading_order` — the vocabulary after a conversion, whether or not it succeeds
-/

namespace BeliefRevision

namespace Vocabulary

/-- The names of a list that the vocabulary does not have, each at its first occurrence. -/
def unknown (v : Vocabulary) (names : List String) : List String :=
  (names.filter (· ∉ v.names)).eraseDups

/-- **A vocabulary learns the names that it does not have**, in their order and each one once. -/
theorem names_internAll (v : Vocabulary) (names : List String) :
    (v.internAll names).names = v.names ++ v.unknown names := by
  induction names generalizing v with
  | nil => simp [internAll, unknown]
  | cons first rest ih =>
    show ((v.intern first).2.internAll rest).names = _
    rw [ih]
    by_cases hknown : first ∈ v.names
    · simp [intern_of_mem hknown, unknown, hknown]
    · -- what was just learned is unknown no more
      have hrest : ((v.add first hknown).unknown rest) =
          ((rest.filter (· ∉ v.names)).filter (!· == first)).eraseDups := by
        unfold unknown
        rw [List.filter_filter]
        refine congrArg List.eraseDups (List.filter_congr fun name _ => ?_)
        by_cases hsame : name = first <;> simp [add, hsame]
      rw [intern_of_not_mem hknown, hrest, unknown, List.filter_cons_of_pos (by simpa using hknown),
        List.eraseDups_cons]
      simp [add]

/-- Names that come again teach nothing. -/
theorem internAll_append_of_subset {names others : List String}
    (h : ∀ name ∈ others, name ∈ names) (v : Vocabulary) :
    v.internAll (names ++ others) = v.internAll names := by
  rw [internAll_append]
  exact internAll_of_subset fun name hname => mem_internAll.mpr (.inr (h name hname))

/-- From the first names of a list a vocabulary learns the first ones that it does not have. -/
theorem unknown_prefix {names others : List String} (h : names <+: others) (v : Vocabulary) :
    v.unknown names <+: v.unknown others := by
  obtain ⟨more, rfl⟩ := h
  have hgrow := (v.internAll names).prefix_internAll more
  rw [← internAll_append, names_internAll, names_internAll] at hgrow
  exact (List.prefix_append_right_inj _).mp hgrow

end Vocabulary

namespace Connective

/-- A biconditional has its operands twice, and the second time in the other order. -/
theorem internAll_applyWithoutIff (c : Connective) (left right : Formula) (v : Vocabulary) :
    v.internAll (c.applyWithoutIff left right).names = v.internAll (left.names ++ right.names) := by
  cases c with
  | and | or | implies => rfl
  | iff => exact Vocabulary.internAll_append_of_subset (by simp [Formula.names, or_comm]) v

theorem internAll_applyWithoutImplies (c : Connective) (left right : Formula) (v : Vocabulary) :
    v.internAll (c.applyWithoutImplies left right).names = v.internAll (left.names ++ right.names) := by
  cases c with
  | and | or | implies => rfl
  | iff => exact Vocabulary.internAll_append_of_subset (by simp [Formula.names, or_comm]) v

end Connective

namespace Formula

theorem internAll_withoutIff (φ : Formula) (v : Vocabulary) :
    v.internAll φ.withoutIff.names = v.internAll φ.names := by
  induction φ generalizing v with
  | constant | atom => rfl
  | not operand ih => exact ih v
  | binary c left right ihl ihr =>
    rw [withoutIff, Connective.internAll_applyWithoutIff, names, Vocabulary.internAll_append,
      Vocabulary.internAll_append, ihl, ihr]

theorem internAll_withoutImplies (φ : Formula) (v : Vocabulary) :
    v.internAll φ.withoutImplies.names = v.internAll φ.names := by
  induction φ generalizing v with
  | constant | atom => rfl
  | not operand ih => exact ih v
  | binary c left right ihl ihr =>
    rw [withoutImplies, Connective.internAll_applyWithoutImplies, names, Vocabulary.internAll_append,
      Vocabulary.internAll_append, ihl, ihr]

/-- **The normal form has the names of the formula in the order of the formula**, for either polarity. -/
theorem internAll_normalForm (φ : Formula) (polarity : Bool) (v : Vocabulary) :
    v.internAll (φ.normalForm polarity).names = v.internAll φ.names := by
  induction φ generalizing polarity v with
  | constant | atom => rfl
  | not operand ih => exact ih (!polarity) v
  | binary c left right ihl ihr =>
    -- the operands of `∧`, `∨` and `→` keep their places, whatever becomes of the connective
    have hboth (p q : Bool) : v.internAll ((left.normalForm p).names ++ (right.normalForm q).names) =
        v.internAll (left.names ++ right.names) := by
      rw [Vocabulary.internAll_append, Vocabulary.internAll_append, ihl, ihr]
    cases c with
    | and | or | implies => cases polarity <;> exact hboth _ _
    | iff =>
      cases polarity with
      | true =>
        refine (Vocabulary.internAll_append_of_subset ?_ v).trans (hboth false true)
        simp [NormalForm.names, mem_names_normalForm, or_comm]
      | false =>
        refine (Vocabulary.internAll_append_of_subset ?_ v).trans (hboth true false)
        simp [NormalForm.names, mem_names_normalForm]

theorem internAll_conversionForm (φ : Formula) (v : Vocabulary) :
    v.internAll φ.conversionForm.names = v.internAll φ.names := by
  rw [conversionForm, internAll_normalForm, internAll_withoutImplies, internAll_withoutIff]

theorem unknown_conversionForm (φ : Formula) (v : Vocabulary) :
    v.unknown φ.conversionForm.names = v.unknown φ.names := by
  have hnames := congrArg Vocabulary.names (φ.internAll_conversionForm v)
  rw [Vocabulary.names_internAll, Vocabulary.names_internAll] at hnames
  exact List.append_cancel_left hnames

/-- **Names are learned in reading order.** After a conversion that succeeds the vocabulary has the names
that it had before, and behind them all names of the formula that were missing, each one once and in the
order of their first occurrences. After one that is given up for its limit it has the first of these. -/
theorem names_learned_in_reading_order (φ : Formula) (limit : Nat) (v : Vocabulary) :
    (∀ clauses w, φ.clauses limit v = (.ok clauses, w) →
        w.names = v.names ++ v.unknown φ.names) ∧
      ∀ w, φ.clauses limit v = (.error .conversionLimit, w) →
        ∃ learned, learned <+: v.unknown φ.names ∧ w.names = v.names ++ learned := by
  constructor
  · intro clauses w hrun
    obtain ⟨rfl, _, _⟩ := clauses_eq_ok_iff.mp hrun
    rw [internAll_conversionForm, Vocabulary.names_internAll]
  · intro w hrun
    obtain ⟨read, hread, hlearned⟩ := φ.clauses_read limit v
    rw [hrun] at hlearned
    refine ⟨v.unknown read, ?_, ?_⟩
    · rw [← unknown_conversionForm]
      exact Vocabulary.unknown_prefix hread v
    · rw [← Vocabulary.names_internAll]
      exact congrArg Vocabulary.names hlearned

/-- In `¬(r ↔ q) ∧ (p ∨ ¬p)` the name `q` is known, and `p` is in no clause. Under a limit of one clause the
conversion is given up before it has come to `p`. -/
theorem names_learned_in_reading_order_of_denial :
    let p : Formula := .atom "p"
    let φ : Formula :=
      .binary .and (.not (.binary .iff (.atom "r") (.atom "q"))) (.binary .or p (.not p))
    let v := Vocabulary.empty.internAll ["q"]
    (∃ clauses w, φ.clauses 2 v = (.ok clauses, w) ∧ w.names = ["q", "r", "p"] ∧
        clauses.toList = [[⟨0, false⟩, ⟨1, false⟩], [⟨0, true⟩, ⟨1, true⟩]]) ∧
      ∃ w learned, φ.clauses 1 v = (.error .conversionLimit, w) ∧ learned <+: ["r", "p"] ∧
        w.names = "q" :: learned := by
  intro p φ v
  have hunknown : v.unknown φ.names = ["r", "p"] := by decide +kernel
  constructor
  · have hconverted : (φ.clauses 2 v).1.toOption.map (·.toList) =
        some [[⟨0, false⟩, ⟨1, false⟩], [⟨0, true⟩, ⟨1, true⟩]] := by decide +kernel
    rcases hrun : φ.clauses 2 v with ⟨error | clauses, w⟩
    · rw [hrun] at hconverted
      cases hconverted
    · rw [hrun] at hconverted
      have hnames := (names_learned_in_reading_order φ 2 v).1 clauses w hrun
      rw [hunknown] at hnames
      exact ⟨clauses, w, rfl, hnames, Option.some.inj hconverted⟩
  · have hrefused : (φ.clauses 1 v).1.toOption.isNone = true := by decide +kernel
    rcases hrun : φ.clauses 1 v with ⟨error | clauses, w⟩
    · obtain rfl := NormalForm.eq_conversionLimit hrun
      obtain ⟨learned, hlearned, hnames⟩ := (names_learned_in_reading_order φ 1 v).2 w hrun
      rw [hunknown] at hlearned
      exact ⟨w, learned, rfl, hlearned, hnames⟩
    · rw [hrun] at hrefused
      cases hrefused

end Formula

end BeliefRevision
