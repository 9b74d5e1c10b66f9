import BeliefRevision.Proofs.Names

/-!
# Clauses of formulas are well-formed

What resolution takes for granted of its clauses, a conversion provides and nothing checks again: literals
in ascending order, none of them twice, and no atom along with its negation. A union of clause sets has
nothing but clauses of either set, and a product merges clauses in order and leaves out those that clash.

* `NormalForm.clauseSet_not_clashes` — no clause of a normal form clashes with itself
* `clauses_well_formed` — the clauses of a formula, with the names that they are about
-/

namespace BeliefRevision

namespace Clause

theorem not_clashes_nil : ¬ Clashes [] := by
  rintro ⟨l, hl, _⟩
  cases hl

theorem not_clashes_singleton (l : Literal) : ¬ Clashes [l] := by
  rintro ⟨m, hm, hneg⟩
  rw [List.mem_singleton] at hm hneg
  exact l.negate_ne (hm ▸ hneg)

end Clause

namespace NormalForm

variable {ψ : NormalForm} {number : String → Nat}

/-- **No clause of a normal form has an atom in both polarities**, though the form may: clauses that clash
are left out where they would arise. -/
theorem clauseSet_not_clashes {c : Clause} (hc : c ∈ ψ.clauseSet number) : ¬ c.Clashes := by
  induction ψ generalizing c with
  | constant value =>
    cases value with
    | true => simp [clauseSet] at hc
    | false =>
      obtain rfl := ClauseSet.mem_singleton.mp hc
      exact Clause.not_clashes_nil
  | literal name polarity =>
    obtain rfl := ClauseSet.mem_singleton.mp hc
    exact Clause.not_clashes_singleton _
  | and left right ihl ihr =>
    rcases ClauseSet.mem_union.mp hc with hc | hc
    · exact ihl hc
    · exact ihr hc
  | or left right _ _ =>
    -- the look at neighbours that sorts out clauses finds every clash of a canonical one
    have hcanonical : c.Canonical := clauseSet_canonical hc
    obtain ⟨_, _, _, _, _, htaut⟩ := ClauseSet.mem_product.mp hc
    exact (Clause.not_clashes_iff hcanonical).mpr htaut

end NormalForm

namespace Formula

variable {φ : Formula} {limit : Nat} {v w : Vocabulary} {clauses : ClauseSet}

/-- The atoms of the clauses are numbers of names of the formula. -/
theorem clauses_about (h : φ.clauses limit v = (.ok clauses, w)) {c : Clause} (hc : c ∈ clauses) :
    ∀ l ∈ c, ∃ name ∈ φ.names, w.name? l.atom = some name := by
  obtain ⟨rfl, _, rfl⟩ := clauses_eq_ok_iff.mp h
  intro l hl
  obtain ⟨name, hname, hatom⟩ := NormalForm.clauseSet_atoms hc l hl
  refine ⟨name, mem_names_conversionForm.mp hname, ?_⟩
  rw [hatom]
  exact Vocabulary.name?_number (Vocabulary.mem_internAll.mpr (.inr hname))

/-- **The clauses of a formula are well-formed.** From whatever vocabulary and under whatever limit they
were found, the literals of each of them strictly ascend, no atom is there in both polarities, and every
atom is the number of a name of the formula in the vocabulary left behind. -/
theorem clauses_well_formed (h : φ.clauses limit v = (.ok clauses, w)) :
    ∀ c ∈ clauses, c.Canonical ∧ ¬ c.Clashes ∧
      ∀ l ∈ c, ∃ name ∈ φ.names, w.name? l.atom = some name := by
  intro c hc
  refine ⟨(clauses_express h).canonical c hc, ?_, clauses_about h hc⟩
  obtain ⟨rfl, _, rfl⟩ := clauses_eq_ok_iff.mp h
  exact NormalForm.clauseSet_not_clashes hc

/-- The union for `(q ∨ p) ∨ (p ∧ (¬q ∨ r))` that has `q` and `¬q` in it is left out, and in the other one
`p` comes before `q`, which the formula has first. -/
theorem clauses_well_formed_of_repetition :
    let p : Formula := .atom "p"
    let q : Formula := .atom "q"
    let φ : Formula :=
      .binary .or (.binary .or q p) (.binary .and p (.binary .or (.not q) (.atom "r")))
    ∃ clauses w, φ.clauses 3 (Vocabulary.empty.internAll ["p"]) = (.ok clauses, w) ∧
      clauses.toList = [[⟨0, true⟩, ⟨1, true⟩]] ∧
      Clause.Canonical [⟨0, true⟩, ⟨1, true⟩] ∧ ¬ Clause.Clashes [⟨0, true⟩, ⟨1, true⟩] ∧
      ∀ l ∈ ([⟨0, true⟩, ⟨1, true⟩] : Clause), ∃ name ∈ φ.names, w.name? l.atom = some name := by
  intro p q φ
  have hconverted : (φ.clauses 3 (Vocabulary.empty.internAll ["p"])).1.toOption.map (·.toList) =
      some [[⟨0, true⟩, ⟨1, true⟩]] := by decide +kernel
  rcases hrun : φ.clauses 3 (Vocabulary.empty.internAll ["p"]) with ⟨error | clauses, w⟩
  · rw [hrun] at hconverted
    cases hconverted
  · rw [hrun] at hconverted
    have hlist : clauses.toList = [[⟨0, true⟩, ⟨1, true⟩]] := Option.some.inj hconverted
    have hmem : [⟨0, true⟩, ⟨1, true⟩] ∈ clauses := by
      rw [← ClauseSet.mem_toList, hlist]
      exact List.mem_singleton_self _
    exact ⟨clauses, w, rfl, hlist, clauses_well_formed hrun _ hmem⟩

end Formula

end BeliefRevision
