import BeliefRevision.Base.Revision
import BeliefRevision.Proofs.Remainder

/-!
# What a revision achieves

A revision by a formula makes room for it and then believes it. Afterwards the beliefs can all hold
together, unless the formula cannot hold at all, and this whatever they were before. No more beliefs are
given up than must be.

* `KeptBeside` — what is kept to make room for a formula
* `keptBeside_of_contraction` — a contraction by `¬φ` makes room for `φ`
* `revise_achieves` — success, consistency and minimal change together
-/

namespace BeliefRevision

/-! ## Parts of a base -/

/-- Every part of a base, in the order of the base, is at some selection of positions. -/
theorem exists_selection_of_sublist {entries part : List Entry} (h : part.Sublist entries) :
    ∃ positions, IsSelection entries.length positions ∧ entriesAt entries positions = part := by
  obtain ⟨indices, rfl, hascending⟩ := List.sublist_eq_map_getElem h
  refine ⟨indices.map Fin.val, ⟨List.pairwise_map.mpr hascending, ?_⟩, ?_⟩
  · rw [List.forall_mem_map]
    exact fun index _ => index.isLt
  · have hget : (entries[·]?) ∘ Fin.val = fun index : Fin entries.length => some entries[index] := by
      funext index
      simp
    rw [entriesAt, List.filterMap_map, hget]
    exact congrFun List.filterMap_eq_map indices

/-! ## Making room -/

/-- The beliefs kept are as many as can hold together with the formula. All are kept if all can, and
also if the formula cannot hold, when nothing would help. -/
structure KeptBeside (entries : List Entry) (φ : Formula) (kept : List Entry) : Prop where
  sublist : kept.Sublist entries
  all : Consistent (φ :: entries.map Entry.formula) ∨ ¬ Consistent [φ] → kept = entries
  consistent : Consistent [φ] → Consistent (φ :: kept.map Entry.formula)
  largest : Consistent [φ] → ∀ other : List Entry, other.Sublist entries →
    Consistent (φ :: other.map Entry.formula) → other.length ≤ kept.length

/-- **A contraction by `¬φ` makes room for `φ`.** -/
theorem keptBeside_of_contraction {entries kept : List Entry} {φ : Formula} {outcome : Contraction}
    (h : ContractionResult entries (.not φ) outcome kept) : KeptBeside entries φ kept := by
  cases h with
  | notEntailed hall =>
    rw [entails_not_iff, Classical.not_not] at hall
    exact ⟨List.Sublist.refl _, fun _ => rfl, fun _ => hall, fun _ _ hother _ => hother.length_le⟩
  | tautology hnone =>
    rw [entails_not_iff] at hnone
    exact ⟨List.Sublist.refl _, fun _ => rfl, fun hφ => absurd hφ hnone, fun hφ => absurd hφ hnone⟩
  | @contracted _ positions hall hnone hbest =>
    rw [entails_not_iff] at hall
    rw [entails_not_iff, Classical.not_not] at hnone
    have hfails := hbest.not_entails
    rw [entails_not_iff, Classical.not_not] at hfails
    refine ⟨entriesAt_sublist hbest.selection, fun hkeep => ?_, fun _ => hfails, ?_⟩
    · rcases hkeep with hkeep | hkeep
      · exact absurd hkeep hall
      · exact absurd hnone hkeep
    · intro _ other hother hconsistent
      obtain ⟨others, hselection, rfl⟩ := exists_selection_of_sublist hother
      rw [length_entriesAt hselection, length_entriesAt hbest.selection]
      have hnot : ¬ Entails ((entriesAt entries others).map Entry.formula) (.not φ) := by
        rw [entails_not_iff, Classical.not_not]
        exact hconsistent
      rcases hbest.preferred others hselection hnot with rfl | hpreferred
      · exact Nat.le_refl _
      · exact hpreferred.length_le

/-! ## Believing -/

/-- What is held of an entry: its formula and its priority. -/
def Entry.belief (entry : Entry) : Formula × Nat := (entry.formula, entry.priority)

theorem Base.mem_formulas_iff {base : Base} {ψ : Formula} :
    ψ ∈ base.formulas ↔ ∃ priority, (ψ, priority) ∈ base.entries.map Entry.belief := by
  have hformulas : base.formulas = (base.entries.map Entry.belief).map Prod.fst := by
    rw [List.map_map]
    rfl
  rw [hformulas]
  simp only [List.mem_map (f := Prod.fst), Prod.exists, exists_and_right, exists_eq_right]

namespace Operation

/-- The formula is believed afterwards, and its belief is new at the end or was there. -/
theorem expandWith_eq_ok {φ : Formula} {priority : Nat} {s t : Session} {expansion : Expansion}
    (h : expandWith φ priority s = (.ok expansion, t)) :
    φ ∈ t.base.formulas ∧
      t.base.entries.map Entry.belief =
        s.base.entries.map Entry.belief ++ if expansion = .added then [(φ, priority)] else [] := by
  cases expandWith_run h with
  | duplicate _ hmem => simpa using hmem
  | added =>
    constructor
    · simp [Base.formulas, Session.withEntries]
    · simp [Entry.belief, Session.withEntries]

/-- A revision that succeeds is a contraction and an expansion that succeed. -/
theorem revise_eq_ok {φ : Formula} {priority : Nat} {s t : Session} {outcome : Revision}
    (h : revise φ priority s = (.ok outcome, t)) :
    ∃ u v, contract (.not φ) s = (.ok outcome.contraction, u) ∧
      expandWith φ priority u = (.ok outcome.expansion, v) ∧ t = v.send (.revised φ) := by
  unfold revise at h
  by_cases hpriority : Parameter.defaultPriority.Admits priority
  · rw [if_pos hpriority] at h
    obtain ⟨contraction, u, hcontract, h⟩ := Computation.bind_eq_ok h
    obtain ⟨expansion, v, hexpand, h⟩ := Computation.bind_eq_ok h
    cases h
    exact ⟨u, v, hcontract, hexpand, rfl⟩
  · rw [if_neg hpriority] at h
    cases h

end Operation

/-! ## Revising -/

/-- **A revision achieves what it is for.** The formula is believed afterwards. The beliefs can all hold
exactly if the formula can, whatever they were before. They are those kept to make room for the formula,
in their order, and behind them the formula with its priority if it was added. -/
theorem revise_achieves {s t : Session} (h : s.Reachable) {φ : Formula} {priority : Nat}
    {outcome : Revision} (hrun : (Operation.revise φ priority).perform s = (.ok outcome, t)) :
    φ ∈ t.base.formulas ∧ (Consistent t.base.formulas ↔ ∃ v, φ.Holds v) ∧
      ∃ kept, KeptBeside s.base.entries φ kept ∧
        t.base.entries.map Entry.belief =
          kept.map Entry.belief ++
            if outcome.expansion = .added then [(φ, priority)] else [] := by
  obtain ⟨u, v, hcontract, hexpand, rfl⟩ := Operation.revise_eq_ok hrun
  have hkept : KeptBeside s.base.entries φ u.base.entries :=
    keptBeside_of_contraction (h.contract_result s.base.tally s.events hcontract)
  obtain ⟨hmem, hbeliefs⟩ := Operation.expandWith_eq_ok hexpand
  rw [Session.base_send]
  refine ⟨hmem, ?_, u.base.entries, hkept, hbeliefs⟩
  rw [← consistent_singleton]
  constructor
  · intro hconsistent
    exact hconsistent.mono (by simpa using hmem)
  · intro hφ
    -- nothing is believed but what was kept, and the formula
    refine (hkept.consistent hφ).mono fun ψ hψ => ?_
    obtain ⟨p, hp⟩ := Base.mem_formulas_iff.mp hψ
    rw [hbeliefs] at hp
    rcases List.mem_append.mp hp with hold | hnew
    · exact List.mem_cons_of_mem φ (Base.mem_formulas_iff.mpr ⟨p, hold⟩)
    · by_cases hadded : outcome.expansion = .added
      · rw [if_pos hadded, List.mem_singleton] at hnew
        cases hnew
        exact List.mem_cons_self
      · rw [if_neg hadded] at hnew
        cases hnew

/-- Revised by `¬p`, which is believed already, an inconsistent base gives up `p` alone. -/
theorem revise_achieves_consistency :
    let p : Formula := .atom "p"
    let s := Session.afterAll {} [.expandWith p 2, .expand (.not p), .expand (.atom "q")]
    s.Reachable ∧ ∃ t, (Operation.revise (.not p) 3).perform s = (.ok ⟨.contracted [p], .duplicate⟩, t) ∧
      Consistent t.base.formulas ∧ ∃ kept, KeptBeside s.base.entries (.not p) kept ∧
        t.base.entries.map Entry.belief = kept.map Entry.belief := by
  intro p s
  have hreachable : s.Reachable := (Session.Reachable.start {}).afterAll _
  have hanswer : ((Operation.revise (.not p) 3).perform s).1 = .ok ⟨.contracted [p], .duplicate⟩ := by
    decide +kernel
  clear_value s
  have hrun : (Operation.revise (.not p) 3).perform s =
    (.ok ⟨.contracted [p], .duplicate⟩, ((Operation.revise (.not p) 3).perform s).2) :=
    Prod.ext hanswer rfl
  obtain ⟨_, hconsistent, kept, hkept, hbeliefs⟩ := revise_achieves hreachable hrun
  refine ⟨hreachable, _, hrun, hconsistent.mpr ⟨fun _ => false, rfl⟩, kept, hkept, ?_⟩
  rw [hbeliefs]
  simp

end BeliefRevision
