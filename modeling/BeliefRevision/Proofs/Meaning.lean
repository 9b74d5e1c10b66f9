import BeliefRevision.Proofs.Conversion

/-!
# Conversion keeps the meaning

A formula is evaluated on names and its clauses on numbers. The vocabulary that a conversion leaves
behind ties the two together: when each number has the value of its name, the formula is true exactly
when all the clauses are. Numbers beyond the vocabulary need no value, since no clause mentions them.

* `clauses_mention` — the atoms of the clauses are numbers of names in the vocabulary
* `clauses_keep_meaning` — the formula and its clauses are true together
-/

namespace BeliefRevision

/-- The value of a clause depends only on the atoms that it mentions. -/
theorem Clause.value_eq_of_agree {a : Assignment Nat} {u : Nat → Bool} {clause : Clause}
    (h : ∀ l ∈ clause, a l.atom = some (u l.atom)) :
    clause.value a = clause.value (.total u) := by
  induction clause with
  | nil => rfl
  | cons first rest ih =>
    obtain ⟨hfirst, hrest⟩ := List.forall_mem_cons.mp h
    unfold Clause.value
    rw [hfirst, ih hrest]
    rfl

namespace Formula

variable {φ : Formula} {limit : Nat} {v w : Vocabulary} {clauses : ClauseSet}

theorem clauses_mention (h : φ.clauses limit v = (.ok clauses, w)) {c : Clause}
    (hc : c ∈ clauses) : ∀ l ∈ c, ∃ name ∈ w.names, l.atom = w.number name := by
  obtain ⟨rfl, _, rfl⟩ := clauses_eq_ok_iff.mp h
  intro l hl
  obtain ⟨name, hname, hatom⟩ := NormalForm.clauseSet_atoms hc l hl
  exact ⟨name, Vocabulary.mem_internAll.mpr (.inr hname), hatom⟩

/-- **Conversion to clauses keeps the meaning.** The formula is true on values of the names exactly
when every clause is true on an assignment that gives each number of the vocabulary the value of its
name. -/
theorem clauses_keep_meaning (h : φ.clauses limit v = (.ok clauses, w)) (values : String → Bool)
    {a : Assignment Nat} (ha : ∀ atom name, w.name? atom = some name → a atom = some (values name)) :
    φ.value (.total values) = some true ↔ ∀ c ∈ clauses, c.value a = some true := by
  -- the numbers that have no value may as well have one
  let u : Nat → Bool := fun atom => (a atom).getD false
  have hnumber : ∀ name ∈ w.names, a (w.number name) = some (values name) := by
    intro name hname
    exact ha _ name (Vocabulary.name?_number hname)
  have hu : ∀ name ∈ w.names, u (w.number name) = values name := by
    intro name hname
    simp [u, hnumber name hname]
  have hvalue : ∀ c ∈ clauses, c.value a = c.value (.total u) := by
    intro c hc
    refine Clause.value_eq_of_agree fun l hl => ?_
    obtain ⟨name, hname, hatom⟩ := clauses_mention h hc l hl
    rw [hatom, hnumber name hname, hu name hname]
  show φ.Holds values ↔ ∀ c ∈ clauses, c.value a = some true
  rw [← (clauses_express h).holds_iff u values hu]
  constructor
  · intro hholds c hc
    rw [hvalue c hc]
    exact hholds c hc
  · intro htrue c hc
    have hc' := htrue c hc
    rw [hvalue c hc] at hc'
    exact hc'

/-- `p ↔ ¬q`, converted within the tightest limit when `r` and `q` were met before. -/
theorem clauses_keep_meaning_of_exclusion :
    let φ : Formula := .binary .iff (.atom "p") (.not (.atom "q"))
    let values : String → Bool := fun name => name == "p"
    let a := Assignment.ofList [some false, some false, some true]
    ∃ clauses w, φ.clauses 2 (Vocabulary.empty.internAll ["r", "q"]) = (.ok clauses, w) ∧
      w.names = ["r", "q", "p"] ∧
      clauses.toList = [[⟨1, false⟩, ⟨2, false⟩], [⟨1, true⟩, ⟨2, true⟩]] ∧
      (φ.value (.total values) = some true ↔ ∀ c ∈ clauses, c.value a = some true) := by
  intro φ values a
  have hconverted : (φ.clauses 2 (Vocabulary.empty.internAll ["r", "q"])).1.toOption.map
      (·.toList) = some [[⟨1, false⟩, ⟨2, false⟩], [⟨1, true⟩, ⟨2, true⟩]] := by decide +kernel
  have hlearned : (φ.clauses 2 (Vocabulary.empty.internAll ["r", "q"])).2.names =
      ["r", "q", "p"] := by decide +kernel
  rcases hrun : φ.clauses 2 (Vocabulary.empty.internAll ["r", "q"]) with ⟨error | clauses, w⟩
  · rw [hrun] at hconverted
    cases hconverted
  rw [hrun] at hconverted hlearned
  have hnames : w.names = ["r", "q", "p"] := hlearned
  refine ⟨clauses, w, rfl, hnames, Option.some.inj hconverted, clauses_keep_meaning hrun values ?_⟩
  intro atom name hname
  unfold Vocabulary.name? at hname
  rw [hnames] at hname
  match atom with
  | 0 | 1 | 2 => cases hname; rfl
  | _ + 3 => cases hname

end Formula

end BeliefRevision
