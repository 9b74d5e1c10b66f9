import BeliefRevision.Clause.Resolution
import BeliefRevision.Proofs.Truth

/-!
# Canonical clauses

In a canonical clause the literals of one atom stand side by side. That is why a look at neighbours
finds every tautology, and why one walk along two clauses finds every clash between them, as long as
neither is a tautology itself.

* `Canonical.merge`, `Canonical.resolve` — unions and resolvents are canonical again
* `Canonical.ext` — canonical clauses are equal if they have the same literals
* `isTautology_iff` — a tautology is a clause with some literal and its negation, a clause that `Clashes`
* `mem_pivots_iff` — the pivots of two clauses that are no tautologies are all their clashes
-/

namespace BeliefRevision

namespace Literal

/-- The order of literals, spelled out. -/
theorem compare_eq_lt_iff {a b : Literal} :
    compare a b = .lt ↔
      a.atom < b.atom ∨ a.atom = b.atom ∧ a.polarity = false ∧ b.polarity = true := by
  rw [compare_eq, Ordering.then_eq_lt, Nat.compare_eq_lt, Nat.compare_eq_eq]
  cases a.polarity <;> cases b.polarity <;> simp [compare]

/-- A literal is false exactly when its negation is true. -/
theorem eq_negate_polarity_iff {v : Nat → Bool} {l : Literal} :
    v l.negate.atom = l.negate.polarity ↔ ¬ v l.atom = l.polarity := by
  simp only [negate]
  cases v l.atom <;> cases l.polarity <;> simp

/-- Two different literals of one atom are negations of each other. -/
theorem eq_negate_of_atom_eq {a b : Literal} (hatom : a.atom = b.atom) (hne : a ≠ b) :
    b = a.negate := by
  obtain ⟨atom, p⟩ := a
  obtain ⟨atom', q⟩ := b
  obtain rfl : atom = atom' := hatom
  cases p <;> cases q <;> simp_all [negate]

end Literal

namespace Clause

/-! ## Order -/

/-- What stands before every literal of two canonical clauses stands before every one of their union. -/
theorem lt_of_mem_merge {a l : Literal} {left right : Clause}
    (hleft : ∀ b ∈ left, compare a b = .lt) (hright : ∀ b ∈ right, compare a b = .lt)
    (hl : l ∈ merge left right) : compare a l = .lt := by
  rcases mem_merge.mp hl with h | h
  · exact hleft l h
  · exact hright l h

/-- **The union of two canonical clauses is canonical.** -/
theorem Canonical.merge {left right : Clause} (hleft : left.Canonical) (hright : right.Canonical) :
    (left.merge right).Canonical := by
  fun_induction Clause.merge left right with
  | case1 => exact hright
  | case2 => exact hleft
  | case3 a left b right hlt ih =>
    obtain ⟨ha, hleft⟩ := List.pairwise_cons.mp hleft
    obtain ⟨hb, _⟩ := List.pairwise_cons.mp hright
    refine List.pairwise_cons.mpr ⟨fun l hl => lt_of_mem_merge ha ?_ hl, ih hleft hright⟩
    intro l hl
    rcases List.mem_cons.mp hl with rfl | hl
    · exact hlt
    · exact Std.TransCmp.lt_trans hlt (hb l hl)
  | case4 a left b right heq ih =>
    obtain ⟨ha, hleft⟩ := List.pairwise_cons.mp hleft
    obtain ⟨hb, hright⟩ := List.pairwise_cons.mp hright
    rw [← Std.compare_eq_iff_eq.mp heq] at hb
    exact List.pairwise_cons.mpr ⟨fun l hl => lt_of_mem_merge ha hb hl, ih hleft hright⟩
  | case5 a left b right hgt ih =>
    obtain ⟨ha, _⟩ := List.pairwise_cons.mp hleft
    obtain ⟨hb, hright⟩ := List.pairwise_cons.mp hright
    have hlt : compare b a = .lt := Std.OrientedCmp.gt_iff_lt.mp hgt
    refine List.pairwise_cons.mpr ⟨fun l hl => lt_of_mem_merge ?_ hb hl, ih hleft hright⟩
    intro l hl
    rcases List.mem_cons.mp hl with rfl | hl
    · exact hlt
    · exact Std.TransCmp.lt_trans hlt (ha l hl)

/-- **A resolvent of canonical clauses is canonical.** -/
theorem Canonical.resolve {left right : Clause} (hleft : left.Canonical)
    (hright : right.Canonical) (pivot : Literal) : (left.resolve right pivot).Canonical := by
  have hl : Canonical (left.filter (· ≠ pivot)) := List.Pairwise.filter _ hleft
  have hr : Canonical (right.filter (· ≠ pivot.negate)) := List.Pairwise.filter _ hright
  exact hl.merge hr

/-! ## Members -/

theorem Canonical.insert {clause : Clause} (h : clause.Canonical) (literal : Literal) :
    (Clause.insert literal clause).Canonical := by
  induction clause with
  | nil => exact List.pairwise_singleton _ _
  | cons first rest ih =>
    obtain ⟨hfirst, hrest⟩ := List.pairwise_cons.mp h
    unfold Clause.insert
    split
    · next hlt =>
      refine List.pairwise_cons.mpr ⟨fun l hl => ?_, h⟩
      rcases List.mem_cons.mp hl with rfl | hl
      · exact hlt
      · exact Std.TransCmp.lt_trans hlt (hfirst l hl)
    · exact h
    · next hgt =>
      refine List.pairwise_cons.mpr ⟨fun l hl => ?_, ih hrest⟩
      rcases mem_insert.mp hl with rfl | hl
      · exact Std.OrientedCmp.gt_iff_lt.mp hgt
      · exact hfirst l hl

theorem canonical_ofLiterals (literals : List Literal) : (ofLiterals literals).Canonical := by
  induction literals with
  | nil => exact List.Pairwise.nil
  | cons first rest ih => exact ih.insert first

theorem Canonical.nodup {clause : Clause} (h : clause.Canonical) : clause.Nodup := by
  refine List.Pairwise.imp ?_ h
  rintro a _ hlt rfl
  simp at hlt

/-- Canonical clauses with the same literals are equal. -/
theorem Canonical.ext {clause other : Clause} (h : clause.Canonical) (h' : other.Canonical)
    (hmem : ∀ l, l ∈ clause ↔ l ∈ other) : clause = other := by
  have hperm : clause.Perm other := (List.perm_ext_iff_of_nodup h.nodup h'.nodup).mpr hmem
  refine List.Perm.eq_of_pairwise (fun a b _ _ hab hba => ?_) h h' hperm
  rw [Std.OrientedCmp.gt_of_lt hab] at hba
  cases hba

/-- The union of two canonical clauses is the canonical clause of all their literals. -/
theorem merge_eq_ofLiterals {left right : Clause} (hleft : left.Canonical) (hright : right.Canonical) :
    left.merge right = ofLiterals (left ++ right) := by
  refine (hleft.merge hright).ext (canonical_ofLiterals _) fun l => ?_
  rw [mem_merge, mem_ofLiterals, List.mem_append]

/-! ## Tautologies -/

/-- **A canonical clause is a tautology exactly if it has a literal and its negation.** -/
theorem isTautology_iff {clause : Clause} (h : clause.Canonical) :
    clause.isTautology = true ↔ ∃ l ∈ clause, l.negate ∈ clause := by
  fun_induction isTautology clause with
  | case1 a b rest ih =>
    obtain ⟨ha, hrest⟩ := List.pairwise_cons.mp h
    have hab : compare a b = .lt := ha b (by simp)
    rw [Bool.or_eq_true, beq_iff_eq, ih hrest]
    constructor
    · rintro (hatom | ⟨l, hl, hneg⟩)
      · have hne : a ≠ b := by
          rintro rfl
          simp at hab
        refine ⟨a, by simp, ?_⟩
        rw [← Literal.eq_negate_of_atom_eq hatom hne]
        simp
      · exact ⟨l, List.mem_cons_of_mem _ hl, List.mem_cons_of_mem _ hneg⟩
    · rintro ⟨l, hl, hneg⟩
      -- a literal of the atom of `a` further on leaves no room for another atom at `b`
      have hatom : ∀ m ∈ b :: rest, m.atom = a.atom → a.atom = b.atom := by
        intro m hm hma
        have ham := Literal.compare_eq_lt_iff.mp hab
        rcases List.mem_cons.mp hm with rfl | hm
        · exact hma.symm
        · have hbm := Literal.compare_eq_lt_iff.mp ((List.pairwise_cons.mp hrest).1 m hm)
          omega
      rcases List.mem_cons.mp hl with rfl | hl
      · rcases List.mem_cons.mp hneg with hself | hneg
        · exact absurd hself l.negate_ne
        · exact .inl (hatom _ hneg rfl)
      · rcases List.mem_cons.mp hneg with hself | hneg
        · exact .inl (hatom l hl (by rw [← hself]; rfl))
        · exact .inr ⟨l, hl, hneg⟩
  | case2 clause hshort =>
    match clause with
    | [] => simp
    | [a] => simp [a.negate_ne]
    | a :: b :: rest => exact absurd rfl (hshort a b rest)

/-- A literal and its negation occur. -/
def Clashes (clause : Clause) : Prop := ∃ l ∈ clause, l.negate ∈ clause

instance (clause : Clause) : Decidable clause.Clashes :=
  inferInstanceAs (Decidable (∃ l ∈ clause, l.negate ∈ clause))

theorem not_clashes_iff {clause : Clause} (h : clause.Canonical) :
    ¬ clause.Clashes ↔ clause.isTautology = false := by
  rw [Clashes, ← isTautology_iff h, Bool.not_eq_true]

/-- To clash is to have some atom in both polarities. -/
theorem clashes_iff_polarities {clause : Clause} :
    clause.Clashes ↔ ∃ atom, (⟨atom, true⟩ : Literal) ∈ clause ∧ (⟨atom, false⟩ : Literal) ∈ clause := by
  constructor
  · rintro ⟨⟨atom, polarity⟩, hl, hneg⟩
    cases polarity with
    | true => exact ⟨atom, hl, hneg⟩
    | false => exact ⟨atom, hneg, hl⟩
  · rintro ⟨atom, htrue, hfalse⟩
    exact ⟨⟨atom, true⟩, htrue, hfalse⟩

/-- A tautology always holds. -/
theorem holds_of_isTautology {v : Nat → Bool} {clause : Clause} (h : clause.Canonical)
    (htaut : clause.isTautology = true) : clause.Holds v := by
  obtain ⟨l, hl, hneg⟩ := (isTautology_iff h).mp htaut
  by_cases htrue : v l.atom = l.polarity
  · exact holds_iff.mpr ⟨l, hl, htrue⟩
  · exact holds_iff.mpr ⟨l.negate, hneg, Literal.eq_negate_polarity_iff.mpr htrue⟩

/-- In a canonical clause that is no tautology the atoms ascend. -/
theorem Canonical.pairwise_atom {clause : Clause} (h : clause.Canonical)
    (htaut : clause.isTautology = false) : clause.Pairwise (·.atom < ·.atom) := by
  refine List.Pairwise.imp_of_mem ?_ h
  intro a b ha hb hab
  rcases Literal.compare_eq_lt_iff.mp hab with hlt | ⟨hatom, hpa, hpb⟩
  · exact hlt
  · have hne : a ≠ b := by
      rintro rfl
      simp [hpa] at hpb
    have hb' : a.negate ∈ clause := Literal.eq_negate_of_atom_eq hatom hne ▸ hb
    have : clause.isTautology = true := (isTautology_iff h).mpr ⟨a, ha, hb'⟩
    simp [this] at htaut

/-! ## Pivots -/

/-- Every pivot is a clash. -/
theorem clash_of_mem_pivots {left right : Clause} {l : Literal} (h : l ∈ left.pivots right) :
    l ∈ left ∧ l.negate ∈ right := by
  fun_induction pivots left right with
  | case1 | case2 => simp at h
  | case3 a left b right hlt ih => exact ⟨List.mem_cons_of_mem _ (ih h).1, (ih h).2⟩
  | case4 a left b right hgt ih => exact ⟨(ih h).1, List.mem_cons_of_mem _ (ih h).2⟩
  | case5 a left b right heq hpolarity ih =>
    exact ⟨List.mem_cons_of_mem _ (ih h).1, List.mem_cons_of_mem _ (ih h).2⟩
  | case6 a left b right heq hpolarity ih =>
    rcases List.mem_cons.mp h with rfl | h
    · have hne : l ≠ b := fun hlb => hpolarity (by rw [hlb])
      rw [Literal.eq_negate_of_atom_eq (Nat.compare_eq_eq.mp heq) hne]
      simp
    · exact ⟨List.mem_cons_of_mem _ (ih h).1, List.mem_cons_of_mem _ (ih h).2⟩

/-- The walk misses no clash of two clauses whose atoms ascend. -/
theorem mem_pivots {left right : Clause} {l : Literal} (hleft : left.Pairwise (·.atom < ·.atom))
    (hright : right.Pairwise (·.atom < ·.atom)) (hl : l ∈ left) (hneg : l.negate ∈ right) :
    l ∈ left.pivots right := by
  have hatom : l.negate.atom = l.atom := rfl
  fun_induction pivots left right with
  | case1 => simp at hl
  | case2 => simp at hneg
  | case3 a left b right hlt ih =>
    obtain ⟨hb, _⟩ := List.pairwise_cons.mp hright
    rw [Nat.compare_eq_lt] at hlt
    rcases List.mem_cons.mp hl with rfl | hl
    · -- the atom of `l` comes before all atoms of the right clause
      rcases List.mem_cons.mp hneg with rfl | hneg
      · omega
      · have := hb _ hneg
        omega
    · exact ih (List.pairwise_cons.mp hleft).2 hright hl hneg
  | case4 a left b right hgt ih =>
    obtain ⟨ha, _⟩ := List.pairwise_cons.mp hleft
    rw [Nat.compare_eq_gt] at hgt
    rcases List.mem_cons.mp hneg with rfl | hneg
    · rcases List.mem_cons.mp hl with rfl | hl
      · omega
      · have := ha _ hl
        omega
    · exact ih hleft (List.pairwise_cons.mp hright).2 hl hneg
  | case5 a left b right heq hpolarity ih =>
    obtain ⟨ha, hleft⟩ := List.pairwise_cons.mp hleft
    obtain ⟨hb, hright⟩ := List.pairwise_cons.mp hright
    rw [Nat.compare_eq_eq] at heq
    rcases List.mem_cons.mp hl with rfl | hl
    · rcases List.mem_cons.mp hneg with rfl | hneg
      · simp [Literal.negate] at hpolarity
      · have := hb _ hneg
        omega
    · rcases List.mem_cons.mp hneg with rfl | hneg
      · have := ha _ hl
        omega
      · exact ih hleft hright hl hneg
  | case6 a left b right heq hpolarity ih =>
    obtain ⟨ha, hleft⟩ := List.pairwise_cons.mp hleft
    obtain ⟨hb, hright⟩ := List.pairwise_cons.mp hright
    rw [Nat.compare_eq_eq] at heq
    rcases List.mem_cons.mp hl with rfl | hl
    · exact List.mem_cons_self
    · rcases List.mem_cons.mp hneg with rfl | hneg
      · have := ha _ hl
        omega
      · exact List.mem_cons_of_mem _ (ih hleft hright hl hneg)

/-- **The pivots of two canonical clauses that are no tautologies are their clashes.** -/
theorem mem_pivots_iff {left right : Clause} {l : Literal} (hleft : left.Canonical)
    (hright : right.Canonical) (htleft : left.isTautology = false)
    (htright : right.isTautology = false) :
    l ∈ left.pivots right ↔ l ∈ left ∧ l.negate ∈ right :=
  ⟨clash_of_mem_pivots, fun ⟨hl, hneg⟩ =>
    mem_pivots (hleft.pairwise_atom htleft) (hright.pairwise_atom htright) hl hneg⟩

end Clause

end BeliefRevision
