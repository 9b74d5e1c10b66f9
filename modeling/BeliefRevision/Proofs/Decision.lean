import Mathlib.Data.List.Pairwise
import BeliefRevision.Proofs.Saturation

/-!
# One run of resolution decides satisfiability

A saturation that is undisturbed from its start ends with a list of clauses that is closed under
resolution, or with the empty clause. So its answer is right, whatever the order of the given
clauses, with or without their tautologies.

* `satisfiable_of_settled` — what a satisfiable answer says about the listed clauses
* `isUnsatisfiable_decides` — the first call on a fresh saturation is right, whatever its settings
-/

namespace BeliefRevision

/-! ## Closed lists from resolved pairs -/

theorem PartOfResolvent.swap {part left right : Clause} {pivot : Literal}
    (h : PartOfResolvent part left right pivot) :
    PartOfResolvent part right left pivot.negate := by
  intro l hl
  rw [Literal.negate_negate]
  exact (h l hl).symm

/-- Every clash of the two clauses has a part of its resolvent that is a tautology or known. -/
def ClashesResolved (known : ClauseSet) (left right : Clause) : Prop :=
  ∀ pivot ∈ left, pivot.negate ∈ right →
    ∃ part : Clause, PartOfResolvent part left right pivot ∧ part.Canonical ∧
      (part.isTautology = true ∨ part ∈ known)

instance (known : ClauseSet) : Std.Symm (ClashesResolved known) where
  symm left right h pivot hpivot hneg := by
    obtain ⟨part, hpart, hcanonical, hmem⟩ :=
      h pivot.negate hneg (by rwa [Literal.negate_negate])
    refine ⟨part, ?_, hcanonical, hmem⟩
    have hswap := hpart.swap
    rwa [Literal.negate_negate] at hswap

theorem Resolved.clashes {known : ClauseSet} {left right : Clause}
    (h : Resolved known left right) (hleft : left.Canonical) (hright : right.Canonical)
    (htleft : left.isTautology = false) (htright : right.isTautology = false) :
    ClashesResolved known left right := by
  intro pivot hpivot hneg
  have hmem : pivot ∈ left.pivots right :=
    (Clause.mem_pivots_iff hleft hright htleft htright).mpr ⟨hpivot, hneg⟩
  refine ⟨left.resolve right pivot, fun l hl => Clause.mem_resolve.mp hl,
    hleft.resolve hright pivot, ?_⟩
  exact (h _ (List.mem_map_of_mem hmem)).2

/-- If the resolvents of all pairs are known, and nothing is known but the listed clauses, the list
is closed. -/
theorem closed_of_pairwise {clauses : List Clause} {known : ClauseSet}
    (hcanonical : ∀ c ∈ clauses, c.Canonical) (hpairs : clauses.Pairwise (Resolved known))
    (hknown : ∀ c ∈ known, c ∈ clauses) : ClosedUnderResolution clauses := by
  intro left hleft right hright htleft htright pivot hpivot hneg
  -- the pairs without tautologies, so that every clash in them is a pivot
  let proper := clauses.filter fun c => !c.isTautology
  have hproper : proper.Pairwise (ClashesResolved known) := by
    refine List.Pairwise.imp_of_mem ?_ (hpairs.filter _)
    intro a b ha hb hab
    obtain ⟨ha, hta⟩ := List.mem_filter.mp ha
    obtain ⟨hb, htb⟩ := List.mem_filter.mp hb
    exact hab.clashes (hcanonical a ha) (hcanonical b hb) (by simpa using hta) (by simpa using htb)
  have hne : left ≠ right := by
    rintro rfl
    have : left.isTautology = true :=
      (Clause.isTautology_iff (hcanonical left hleft)).mpr ⟨pivot, hpivot, hneg⟩
    simp [this] at htleft
  have hl : left ∈ proper := List.mem_filter.mpr ⟨hleft, by simp [htleft]⟩
  have hr : right ∈ proper := List.mem_filter.mpr ⟨hright, by simp [htright]⟩
  obtain ⟨part, hpart, hpcanonical, hmem⟩ := hproper.forall hl hr hne pivot hpivot hneg
  exact ⟨part, hpart, hpcanonical, hmem.imp_right (hknown part)⟩

/-! ## The start of a saturation -/

namespace Saturation

section Collect

variable {keep : Clause → Bool} {known : ClauseSet} {found : List Clause} {clause : Clause}

theorem mem_insert_iff_mem_cons (h : ∀ c, c ∈ known ↔ c ∈ found) (clause : Clause) :
    ∀ c, c ∈ known.insert clause ↔ c ∈ clause :: found := fun c => by
  rw [ClauseSet.mem_insert, h c, List.mem_cons]

/-- A clause is collected if it is to be kept and was not found before. -/
theorem collected_iff (h : ∀ c, c ∈ known ↔ c ∈ found) :
    (keep clause && !known.contains clause) = true ↔ keep clause = true ∧ clause ∉ found := by
  rw [Bool.and_eq_true, Bool.not_eq_true', ← Bool.not_eq_true, Std.ExtTreeSet.contains_iff_mem, h]

theorem collect_spec (keep : Clause → Bool) (known : ClauseSet) (found given : List Clause)
    (h : ∀ c, c ∈ known ↔ c ∈ found) :
    (∀ c, c ∈ (collect keep known found given).1 ↔ c ∈ found ∨ c ∈ given ∧ keep c = true) ∧
      ∀ c, c ∈ (collect keep known found given).2 ↔ c ∈ (collect keep known found given).1 := by
  fun_induction collect keep known found given with
  | case1 known found => simp [h]
  | case2 known found clause rest hnew ih =>
    have hinsert := mem_insert_iff_mem_cons h clause
    rw [collected_iff h] at hnew
    refine ⟨fun c => ?_, (ih hinsert).2⟩
    rw [(ih hinsert).1 c, List.mem_cons, List.mem_cons]
    constructor
    · rintro ((rfl | hc) | ⟨hc, hkeep⟩)
      · exact .inr ⟨.inl rfl, hnew.1⟩
      · exact .inl hc
      · exact .inr ⟨.inr hc, hkeep⟩
    · rintro (hc | ⟨rfl | hc, hkeep⟩)
      · exact .inl (.inr hc)
      · exact .inl (.inl rfl)
      · exact .inr ⟨hc, hkeep⟩
  | case3 known found clause rest hold ih =>
    rw [collected_iff h, not_and, Classical.not_not] at hold
    refine ⟨fun c => ?_, (ih h).2⟩
    rw [(ih h).1 c, List.mem_cons]
    constructor
    · exact Or.imp_right fun ⟨hc, hkeep⟩ => ⟨.inr hc, hkeep⟩
    · rintro (hc | ⟨rfl | hc, hkeep⟩)
      · exact .inl hc
      · -- a clause that is kept but skipped was there before
        exact .inl (hold hkeep)
      · exact .inr ⟨hc, hkeep⟩

end Collect

section Start

variable (limit : Nat) (eliminate : Bool) (given : List Clause)

theorem mem_start_clauses {c : Clause} :
    c ∈ (start limit eliminate given).clauses ↔
      c ∈ given ∧ (eliminate = true → c.isTautology = false) := by
  have h := (collect_spec (fun clause => !(eliminate && clause.isTautology)) ∅ [] given (by simp)).1 c
  rw [start, h]
  cases eliminate <;> simp

theorem start_settled : (start limit eliminate given).Settled :=
  (collect_spec (fun clause => !(eliminate && clause.isTautology)) ∅ [] given (by simp)).2

theorem start_all {P : Clause → Prop} (h : ∀ c ∈ given, P c) :
    (start limit eliminate given).All P := by
  have hclauses : ∀ c ∈ (start limit eliminate given).clauses, P c :=
    fun c hc => h c ((mem_start_clauses limit eliminate given).mp hc).1
  exact ⟨hclauses, fun c hc => hclauses c ((start_settled limit eliminate given c).mp hc)⟩

theorem start_containsEmpty :
    (start limit eliminate given).containsEmpty = true ↔
      [] ∈ (start limit eliminate given).clauses := by
  rw [mem_start_clauses]
  simp [start, Clause.isTautology, List.isEmpty_iff]

end Start

/-! ## Answers -/

/-- A refutation is right: no values make all the clauses hold. -/
theorem not_holds_of_refuted {s t : Saturation} (h : s.saturate = (.ok .unsatisfiable, t))
    (hempty : s.containsEmpty = true → [] ∈ s.clauses) {v : Nat → Bool} :
    ¬ s.All (Clause.Holds v) :=
  fun hs => Clause.not_holds_nil v (saturate_refuted h (holds_invariant v) hs hempty)

/-- **A satisfiable answer is right if nothing is known that is not listed.** -/
theorem satisfiable_of_settled {s t : Saturation} (h : s.saturate = (.ok .satisfiable, t))
    (hcanonical : s.All Clause.Canonical) (hempty : [] ∈ s.clauses → s.containsEmpty = true)
    (ht : t.Settled) : Satisfiable t.clauses := by
  have hcanonical' := saturate_all h canonical_invariant hcanonical
  refine satisfiable_of_closed hcanonical'.clauses ?_
    (closed_of_pairwise hcanonical'.clauses (saturate_pairwise h) fun c hc => (ht c).mp hc)
  obtain ⟨more, hmore, hnew⟩ := (saturate_extends h).clauses
  rw [hmore, List.mem_append]
  rintro (hgiven | hm)
  · rcases saturate_cases h with ⟨_, hanswer, _⟩ | ⟨hnone, _⟩ | ⟨hnone, _⟩
    · cases hanswer
    · simp [hempty hgiven] at hnone
    · simp [hempty hgiven] at hnone
  · exact (hnew [] hm).1 rfl

/-- **The first answer is right.** -/
theorem start_verdict {limit : Nat} {eliminate : Bool} {given : List Clause} {verdict : Verdict}
    (hcanonical : ∀ c ∈ given, c.Canonical)
    (h : (start limit eliminate given).saturate.1 = .ok verdict) :
    verdict = .unsatisfiable ↔ ¬ Satisfiable given := by
  obtain ⟨t, ht⟩ : ∃ t, (start limit eliminate given).saturate = (.ok verdict, t) :=
    ⟨_, Prod.ext h rfl⟩
  have hempty := start_containsEmpty limit eliminate given
  cases verdict with
  | satisfiable =>
    obtain ⟨v, hv⟩ := satisfiable_of_settled ht (start_all limit eliminate given hcanonical)
      hempty.mpr (saturate_settled ht (start_settled limit eliminate given))
    obtain ⟨more, hmore, _⟩ := (saturate_extends ht).clauses
    have hgiven : Satisfiable given := by
      refine ⟨v, fun c hc => ?_⟩
      cases htaut : c.isTautology with
      | true => exact Clause.holds_of_isTautology (hcanonical c hc) htaut
      | false =>
        refine hv c (hmore ▸ List.mem_append_left more ?_)
        exact (mem_start_clauses limit eliminate given).mpr ⟨hc, fun _ => htaut⟩
    simp [hgiven]
  | unsatisfiable =>
    simp only [true_iff]
    rintro ⟨v, hv⟩
    exact not_holds_of_refuted ht hempty.mp (start_all limit eliminate given hv)

end Saturation

/-- The question whether clauses are unsatisfiable is put to one call on a fresh saturation. -/
theorem isUnsatisfiable_eq (limit : Nat) (eliminate : Bool) (given : List Clause) :
    isUnsatisfiable limit eliminate given =
      (Saturation.start limit eliminate given).saturate.1.map (· == .unsatisfiable) := by
  unfold isUnsatisfiable
  cases (Saturation.start limit eliminate given).saturate.1 <;> rfl

theorem isUnsatisfiable_iff {limit : Nat} {eliminate : Bool} {given : List Clause} {b : Bool}
    (hcanonical : ∀ c ∈ given, c.Canonical) (h : isUnsatisfiable limit eliminate given = .ok b) :
    b = true ↔ ¬ Satisfiable given := by
  rw [isUnsatisfiable_eq] at h
  cases hanswer : (Saturation.start limit eliminate given).saturate.1 with
  | error error => rw [hanswer] at h; cases h
  | ok verdict =>
    rw [hanswer] at h
    cases h
    rw [beq_iff_eq]
    exact Saturation.start_verdict hcanonical hanswer

/-- The same clauses in another order, or repeated, are satisfiable together or not at all. -/
theorem satisfiable_congr {clauses others : List Clause} (h : ∀ c, c ∈ clauses ↔ c ∈ others) :
    Satisfiable clauses ↔ Satisfiable others := by simp only [Satisfiable, h]

/-- **One run of resolution decides satisfiability.** The answer to whether clauses are unsatisfiable
is that of the first call on a fresh saturation. It is right for all settings, so it is the same for
all settings and for every other list of the same clauses. -/
theorem isUnsatisfiable_decides {given : List Clause} (hcanonical : ∀ c ∈ given, c.Canonical) :
    (∀ limit eliminate, isUnsatisfiable limit eliminate given =
        (Saturation.start limit eliminate given).saturate.1.map (· == .unsatisfiable)) ∧
      (∀ limit eliminate verdict,
        (Saturation.start limit eliminate given).saturate.1 = .ok verdict →
          (verdict = .unsatisfiable ↔ ¬ Satisfiable given)) ∧
      (∀ limit eliminate b, isUnsatisfiable limit eliminate given = .ok b →
          (b = true ↔ ¬ Satisfiable given)) ∧
      ∀ limit limit' eliminate eliminate' given' b b', (∀ c, c ∈ given' ↔ c ∈ given) →
        isUnsatisfiable limit eliminate given = .ok b →
          isUnsatisfiable limit' eliminate' given' = .ok b' → b' = b := by
  refine ⟨fun limit eliminate => isUnsatisfiable_eq limit eliminate given, ?_, ?_, ?_⟩
  · exact fun limit eliminate verdict h => Saturation.start_verdict hcanonical h
  · exact fun limit eliminate b h => isUnsatisfiable_iff hcanonical h
  · intro limit limit' eliminate eliminate' given' b b' hsame h h'
    have hcanonical' : ∀ c ∈ given', c.Canonical := fun c hc => hcanonical c ((hsame c).mp hc)
    have hb := isUnsatisfiable_iff hcanonical h
    have hb' := isUnsatisfiable_iff hcanonical' h'
    rw [satisfiable_congr hsame, ← hb] at hb'
    exact Bool.eq_iff_iff.mpr hb'

instance (clause : Clause) : Decidable clause.Canonical :=
  inferInstanceAs (Decidable (List.Pairwise _ clause))

/-- With a tautology among them: `p ∨ ¬p`, `p`, `¬p ∨ q` and `¬q`, given twice over. -/
theorem isUnsatisfiable_decides_chain :
    let given : List Clause :=
      [[⟨0, false⟩, ⟨0, true⟩], [⟨0, true⟩], [⟨0, false⟩, ⟨1, true⟩], [⟨1, false⟩]]
    (∀ c ∈ given, c.Canonical) ∧ isUnsatisfiable 8 false (given ++ given) = .ok true ∧
      isUnsatisfiable 8 true given = .ok true ∧ ¬ Satisfiable given := by
  intro given
  have hcanonical : ∀ c ∈ given, c.Canonical := by decide
  have hanswer : isUnsatisfiable 8 true given = .ok true := by decide +kernel
  obtain ⟨_, _, hright, _⟩ := isUnsatisfiable_decides hcanonical
  exact ⟨hcanonical, by decide +kernel, hanswer, (hright 8 true true hanswer).mp rfl⟩

end BeliefRevision
