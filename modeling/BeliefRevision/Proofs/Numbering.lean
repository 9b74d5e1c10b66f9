import BeliefRevision.Vocabulary

/-!
# Numbers of names

A vocabulary grows at its end only, so a name that has a number keeps it, and interning names that
are there changes nothing. Every choice of values for the names is a choice of values for the atoms.

* `intern_eq` — interning gives the number that the name has afterwards
* `number_of_grow` — the number is the same in every later vocabulary
* `valuation_number` — values of names, read as values of atoms
-/

namespace BeliefRevision.Vocabulary

/-- The number of a name, or the number of names if it has none. -/
def number (v : Vocabulary) (name : String) : Nat := v.names.idxOf name

theorem name?_number {v : Vocabulary} {name : String} (h : name ∈ v.names) :
    v.name? (v.number name) = some name := by
  have hlt : v.names.idxOf name < v.names.length := List.idxOf_lt_length_of_mem h
  rw [name?, number, List.getElem?_eq_getElem hlt, List.getElem_idxOf]

/-- Names and numbers belong to each other. -/
theorem atom?_eq_some_iff {v : Vocabulary} {name : String} {atom : Nat} :
    v.atom? name = some atom ↔ v.name? atom = some name := by
  rw [atom?, List.idxOf?_eq_some_iff, name?, List.getElem?_eq_some_iff]
  constructor
  · rintro ⟨hlt, hname, _⟩
    exact ⟨hlt, hname⟩
  · rintro ⟨hlt, hname⟩
    refine ⟨hlt, hname, fun other hother hsame => ?_⟩
    exact List.pairwise_iff_getElem.mp v.nodup other atom (Nat.lt_trans hother hlt) hlt hother
      (hsame.trans hname.symm)

theorem name?_isSome_iff {v : Vocabulary} {atom : Nat} :
    (v.name? atom).isSome ↔ atom < v.size := by
  simp [name?, size]

/-! ## Interning a name -/

theorem intern_of_mem {v : Vocabulary} {name : String} (h : name ∈ v.names) :
    v.intern name = (v.number name, v) := by
  have hatom : v.atom? name = some (v.number name) := by
    rw [atom?, List.idxOf?_eq_some_iff]
    have hlt : v.names.idxOf name < v.names.length := List.idxOf_lt_length_of_mem h
    exact ⟨hlt, List.getElem_idxOf hlt, fun j hj => by simpa using List.not_of_lt_findIdx hj⟩
  unfold intern
  split
  · next atom hsome => rw [hatom, Option.some.injEq] at hsome; rw [hsome]
  · next hnone => rw [hatom] at hnone; cases hnone

theorem intern_of_not_mem {v : Vocabulary} {name : String} (h : name ∉ v.names) :
    v.intern name = (v.size, v.add name h) := by
  have hatom : v.atom? name = none := List.idxOf?_eq_none_iff.mpr h
  unfold intern
  split
  · next atom hsome => rw [hatom] at hsome; cases hsome
  · rfl

theorem mem_intern {v : Vocabulary} {name other : String} :
    other ∈ (v.intern name).2.names ↔ other ∈ v.names ∨ other = name := by
  by_cases h : name ∈ v.names
  · rw [intern_of_mem h]
    constructor
    · exact .inl
    · rintro (hother | rfl)
      · exact hother
      · exact h
  · rw [intern_of_not_mem h]
    simp [add]

theorem prefix_intern (v : Vocabulary) (name : String) : v.names <+: (v.intern name).2.names := by
  by_cases h : name ∈ v.names
  · simp only [intern_of_mem h, List.prefix_rfl]
  · rw [intern_of_not_mem h]
    exact List.prefix_append ..

theorem number_of_grow {v w : Vocabulary} {name : String} (hgrow : v.names <+: w.names)
    (h : name ∈ v.names) : w.number name = v.number name := by
  obtain ⟨more, hmore⟩ := hgrow
  rw [number, number, ← hmore, List.idxOf_append, if_pos h]

theorem intern_eq (v : Vocabulary) (name : String) :
    v.intern name = ((v.intern name).2.number name, (v.intern name).2) := by
  by_cases h : name ∈ v.names
  · rw [intern_of_mem h]
  · rw [intern_of_not_mem h, number, add, List.idxOf_append, if_neg h, List.idxOf_cons_self,
      Nat.zero_add, size]

/-! ## Interning names in a row -/

theorem internAll_append (v : Vocabulary) (names others : List String) :
    v.internAll (names ++ others) = (v.internAll names).internAll others := List.foldl_append

theorem mem_internAll {v : Vocabulary} {names : List String} {name : String} :
    name ∈ (v.internAll names).names ↔ name ∈ v.names ∨ name ∈ names := by
  induction names generalizing v with
  | nil => simp [internAll]
  | cons first rest ih =>
    have hstep : name ∈ (v.internAll (first :: rest)).names ↔
        name ∈ (v.intern first).2.names ∨ name ∈ rest := ih
    rw [hstep, mem_intern, List.mem_cons, or_assoc]

theorem prefix_internAll (v : Vocabulary) (names : List String) :
    v.names <+: (v.internAll names).names := by
  induction names generalizing v with
  | nil => exact List.prefix_rfl
  | cons first rest ih => exact (v.prefix_intern first).trans (ih _)

/-- A name that is interned first gets a number that the names behind it do not change. -/
theorem number_internAll_append {v : Vocabulary} {names others : List String} {name : String}
    (h : name ∈ names) :
    (v.internAll (names ++ others)).number name = (v.internAll names).number name := by
  rw [internAll_append]
  exact number_of_grow (prefix_internAll _ _) (mem_internAll.mpr (.inr h))

theorem internAll_of_subset {v : Vocabulary} {names : List String}
    (h : ∀ name ∈ names, name ∈ v.names) : v.internAll names = v := by
  induction names with
  | nil => rfl
  | cons first rest ih =>
    obtain ⟨hfirst, hrest⟩ := List.forall_mem_cons.mp h
    have hstep : v.internAll (first :: rest) = (v.intern first).2.internAll rest := rfl
    rw [hstep, intern_of_mem hfirst]
    exact ih hrest

/-! ## Values -/

/-- The values of the atoms when the names have the given values. -/
def valuation (v : Vocabulary) (values : String → Bool) : Nat → Bool :=
  fun atom => ((v.name? atom).map values).getD false

theorem valuation_number {v : Vocabulary} {values : String → Bool} {name : String}
    (h : name ∈ v.names) : v.valuation values (v.number name) = values name := by
  rw [valuation, name?_number h]
  rfl

end BeliefRevision.Vocabulary
