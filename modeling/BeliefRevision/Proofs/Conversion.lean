import BeliefRevision.Conversion
import BeliefRevision.Proofs.CanonicalClause
import BeliefRevision.Proofs.ClauseSet
import BeliefRevision.Proofs.Computation
import BeliefRevision.Proofs.Numbering
import BeliefRevision.Proofs.Rewriting

/-!
# Conversion to clauses is exact

Without a limit, and with numbers for the names, the clauses of a normal form are found by a
recursion over it. A conversion under a limit gives these clauses, or an error if some conjunction or
disjunction has too many of them. It interns the names in reading order, all of them or, in case of
an error, those in front.

* `clauses_run`, `clauses_give_up` — the two ways in which a conversion ends
* `Formula.clauses_rerun` — a conversion repeated later gives the same clauses and no new names
* `Formula.clauses_express` — the clauses of a formula hold exactly when the formula does
-/

namespace BeliefRevision

namespace NormalForm

/-- The names in reading order, with repetitions. -/
def names : NormalForm → List String
  | .constant _ => []
  | .literal name _ => [name]
  | .and left right | .or left right => left.names ++ right.names

/-- The clauses of a normal form when the names have the given numbers. -/
def clauseSet (number : String → Nat) : NormalForm → ClauseSet
  | .constant true => ∅
  | .constant false => {[]}
  | .literal name polarity => {[⟨number name, polarity⟩]}
  | .and left right => left.clauseSet number ∪ right.clauseSet number
  | .or left right => ClauseSet.product (left.clauseSet number) (right.clauseSet number)

/-- No conjunction and no disjunction has more than `limit` clauses. -/
def Fits (limit : Nat) (number : String → Nat) : NormalForm → Prop
  | .constant _ | .literal _ _ => True
  | .and left right =>
    left.Fits limit number ∧ right.Fits limit number ∧
      (clauseSet number (.and left right)).size ≤ limit
  | .or left right =>
    left.Fits limit number ∧ right.Fits limit number ∧
      (clauseSet number (.or left right)).size ≤ limit

variable {ψ left right : NormalForm} {limit : Nat} {number number' : String → Nat}

/-! ## Only the numbers of the names count -/

theorem clauseSet_congr (h : ∀ name ∈ ψ.names, number name = number' name) :
    ψ.clauseSet number = ψ.clauseSet number' := by
  induction ψ with
  | constant value => cases value <;> rfl
  | literal name polarity => rw [clauseSet, clauseSet, h name (List.mem_singleton_self name)]
  | and left right ihl ihr | or left right ihl ihr =>
    obtain ⟨hl, hr⟩ := List.forall_mem_append.mp h
    rw [clauseSet, clauseSet, ihl hl, ihr hr]

theorem fits_congr (h : ∀ name ∈ ψ.names, number name = number' name) :
    ψ.Fits limit number ↔ ψ.Fits limit number' := by
  induction ψ with
  | constant value => rfl
  | literal name polarity => rfl
  | and left right ihl ihr | or left right ihl ihr =>
    obtain ⟨hl, hr⟩ := List.forall_mem_append.mp h
    rw [Fits, Fits, ihl hl, ihr hr, clauseSet_congr h]

theorem Fits.mono {more : Nat} (h : ψ.Fits limit number) (hle : limit ≤ more) :
    ψ.Fits more number := by
  induction ψ with
  | constant value => trivial
  | literal name polarity => trivial
  | and left right ihl ihr | or left right ihl ihr =>
    obtain ⟨hl, hr, hsize⟩ := h
    exact ⟨ihl hl, ihr hr, Nat.le_trans hsize hle⟩

/-! ## Running a conversion -/

theorem intern_run (v : Vocabulary) (name : String) :
    Conversion.intern name v = (.ok ((v.intern name).2.number name), (v.intern name).2) := by
  rw [Conversion.intern, congrArg Prod.fst (v.intern_eq name)]

theorem orLimit_within {w : Vocabulary} {clauses : ClauseSet} (h : clauses.size ≤ limit) :
    Conversion.orLimit (ClauseSet.within limit clauses) w = (.ok clauses, w) := by
  rw [ClauseSet.within, if_pos h]
  rfl

theorem orLimit_beyond {w : Vocabulary} {clauses : ClauseSet} (h : ¬ clauses.size ≤ limit) :
    Conversion.orLimit (ClauseSet.within limit clauses) w = (.error .conversionLimit, w) := by
  rw [ClauseSet.within, if_neg h]
  rfl

theorem and_run {v v' w : Vocabulary} {l r : ClauseSet}
    (hl : left.clauses limit v = (.ok l, v')) (hr : right.clauses limit v' = (.ok r, w)) :
    (NormalForm.and left right).clauses limit v =
      Conversion.orLimit (ClauseSet.within limit (l ∪ r)) w := by
  rw [NormalForm.clauses, Computation.bind_of_ok hl, Computation.bind_of_ok hr]

theorem or_run {v v' w : Vocabulary} {l r : ClauseSet}
    (hl : left.clauses limit v = (.ok l, v')) (hr : right.clauses limit v' = (.ok r, w)) :
    (NormalForm.or left right).clauses limit v =
      Conversion.orLimit (ClauseSet.within limit (ClauseSet.product l r)) w := by
  rw [NormalForm.clauses, Computation.bind_of_ok hl, Computation.bind_of_ok hr,
    ClauseSet.productWithin_eq]

/-- **A conversion whose intermediate results fit gives the clauses and interns all names.** -/
theorem clauses_run {v w : Vocabulary} (hw : v.internAll ψ.names = w)
    (hfits : ψ.Fits limit w.number) : ψ.clauses limit v = (.ok (ψ.clauseSet w.number), w) := by
  induction ψ generalizing v w with
  | constant value =>
    subst hw
    cases value <;> rfl
  | literal name polarity =>
    subst hw
    exact Computation.bind_of_ok (intern_run v name)
  | and left right ihl ihr | or left right ihl ihr =>
    obtain ⟨hl, hr, hsize⟩ := hfits
    -- the numbers of the left names are settled before the right names come
    have hsettled : ∀ name ∈ left.names, w.number name = (v.internAll left.names).number name :=
      fun name hname => hw ▸ Vocabulary.number_internAll_append hname
    have hleft := ihl rfl ((fits_congr hsettled).mp hl)
    rw [← clauseSet_congr hsettled] at hleft
    rw [names, Vocabulary.internAll_append] at hw
    have hright := ihr hw hr
    first
      | exact (and_run hleft hright).trans (orLimit_within hsize)
      | exact (or_run hleft hright).trans (orLimit_within hsize)

/-- **A conversion with an intermediate result that does not fit fails, and interns the names it has
read.** -/
theorem clauses_give_up {v w : Vocabulary} (hw : v.internAll ψ.names = w)
    (hfits : ¬ ψ.Fits limit w.number) :
    ∃ read, read <+: ψ.names ∧
      ψ.clauses limit v = (.error .conversionLimit, v.internAll read) := by
  induction ψ generalizing v w with
  | constant value => exact absurd trivial hfits
  | literal name polarity => exact absurd trivial hfits
  | and left right ihl ihr | or left right ihl ihr =>
    have hsettled : ∀ name ∈ left.names, w.number name = (v.internAll left.names).number name :=
      fun name hname => hw ▸ Vocabulary.number_internAll_append hname
    by_cases hl : left.Fits limit w.number
    · have hleft := clauses_run rfl ((fits_congr hsettled).mp hl)
      rw [← clauseSet_congr hsettled] at hleft
      rw [names, Vocabulary.internAll_append] at hw
      by_cases hr : right.Fits limit w.number
      · have hright := clauses_run hw hr
        refine ⟨left.names ++ right.names, List.prefix_rfl, ?_⟩
        rw [Vocabulary.internAll_append, hw]
        have hsize := fun hle => hfits ⟨hl, hr, hle⟩
        first
          | exact (and_run hleft hright).trans (orLimit_beyond hsize)
          | exact (or_run hleft hright).trans (orLimit_beyond hsize)
      · obtain ⟨read, hread, hright⟩ := ihr hw hr
        refine ⟨left.names ++ read, (List.prefix_append_right_inj _).mpr hread, ?_⟩
        rw [NormalForm.clauses, Computation.bind_of_ok hleft, Computation.bind_of_error hright,
          Vocabulary.internAll_append]
    · obtain ⟨read, hread, hleft⟩ := ihl rfl (fun h => hl ((fits_congr hsettled).mpr h))
      refine ⟨read, hread.trans (List.prefix_append ..), ?_⟩
      rw [NormalForm.clauses, Computation.bind_of_error hleft]

/-- When a conversion succeeds, and with what. -/
theorem clauses_eq_ok_iff {v w : Vocabulary} {clauses : ClauseSet} :
    ψ.clauses limit v = (.ok clauses, w) ↔
      v.internAll ψ.names = w ∧ ψ.Fits limit w.number ∧ ψ.clauseSet w.number = clauses := by
  constructor
  · intro h
    by_cases hfits : ψ.Fits limit (v.internAll ψ.names).number
    · rw [clauses_run rfl hfits] at h
      cases h
      exact ⟨rfl, hfits, rfl⟩
    · obtain ⟨_, _, hfail⟩ := clauses_give_up rfl hfits
      rw [hfail] at h
      cases h
  · rintro ⟨rfl, hfits, rfl⟩
    exact clauses_run rfl hfits

/-- The only error of a conversion is that of the limit. -/
theorem eq_conversionLimit {v w : Vocabulary} {error : Error}
    (h : ψ.clauses limit v = (.error error, w)) : error = .conversionLimit := by
  by_cases hfits : ψ.Fits limit (v.internAll ψ.names).number
  · rw [clauses_run rfl hfits] at h
    cases h
  · obtain ⟨_, _, hfail⟩ := clauses_give_up rfl hfits
    rw [hfail] at h
    cases h
    rfl

/-! ## What the clauses say -/

theorem clauseSet_canonical {c : Clause} (hc : c ∈ ψ.clauseSet number) : c.Canonical := by
  induction ψ generalizing c with
  | constant value =>
    cases value with
    | true => simp [clauseSet] at hc
    | false =>
      obtain rfl := ClauseSet.mem_singleton.mp hc
      exact List.Pairwise.nil
  | literal name polarity =>
    obtain rfl := ClauseSet.mem_singleton.mp hc
    exact List.pairwise_singleton _ _
  | and left right ihl ihr =>
    rcases ClauseSet.mem_union.mp hc with hc | hc
    · exact ihl hc
    · exact ihr hc
  | or left right ihl ihr =>
    obtain ⟨a, ha, b, hb, rfl, _⟩ := ClauseSet.mem_product.mp hc
    exact (ihl ha).merge (ihr hb)

/-- The atoms of the clauses are numbers of names. -/
theorem clauseSet_atoms {c : Clause} (hc : c ∈ ψ.clauseSet number) :
    ∀ l ∈ c, ∃ name ∈ ψ.names, l.atom = number name := by
  induction ψ generalizing c with
  | constant value =>
    cases value with
    | true => simp [clauseSet] at hc
    | false =>
      obtain rfl := ClauseSet.mem_singleton.mp hc
      simp
  | literal name polarity =>
    obtain rfl := ClauseSet.mem_singleton.mp hc
    simp [names]
  | and left right ihl ihr =>
    intro l hl
    rcases ClauseSet.mem_union.mp hc with hc | hc
    · obtain ⟨name, hname, hatom⟩ := ihl hc l hl
      exact ⟨name, List.mem_append_left _ hname, hatom⟩
    · obtain ⟨name, hname, hatom⟩ := ihr hc l hl
      exact ⟨name, List.mem_append_right _ hname, hatom⟩
  | or left right ihl ihr =>
    intro l hl
    obtain ⟨a, ha, b, hb, rfl, _⟩ := ClauseSet.mem_product.mp hc
    rcases Clause.mem_merge.mp hl with hl | hl
    · obtain ⟨name, hname, hatom⟩ := ihl ha l hl
      exact ⟨name, List.mem_append_left _ hname, hatom⟩
    · obtain ⟨name, hname, hatom⟩ := ihr hb l hl
      exact ⟨name, List.mem_append_right _ hname, hatom⟩

/-- The clauses of a product all hold exactly if those of one of its sides do. -/
theorem forall_product_iff {u : Nat → Bool} {left right : ClauseSet}
    (hleft : ∀ a ∈ left, a.Canonical) (hright : ∀ b ∈ right, b.Canonical) :
    (∀ c ∈ ClauseSet.product left right, c.Holds u) ↔
      (∀ a ∈ left, a.Holds u) ∨ ∀ b ∈ right, b.Holds u := by
  constructor
  · intro h
    by_cases hl : ∀ a ∈ left, a.Holds u
    · exact .inl hl
    · obtain ⟨a, hna⟩ := Classical.not_forall.mp hl
      obtain ⟨ha, hna⟩ := Classical.not_imp.mp hna
      refine .inr fun b hb => ?_
      -- the union of the two holds, as a member of the product or as a tautology
      have hmerge : (a.merge b).Holds u := by
        cases htaut : (a.merge b).isTautology with
        | true => exact Clause.holds_of_isTautology ((hleft a ha).merge (hright b hb)) htaut
        | false => exact h _ (ClauseSet.mem_product.mpr ⟨a, ha, b, hb, rfl, htaut⟩)
      obtain ⟨l, hl, htrue⟩ := Clause.holds_iff.mp hmerge
      rcases Clause.mem_merge.mp hl with hl | hl
      · exact absurd (Clause.holds_iff.mpr ⟨l, hl, htrue⟩) hna
      · exact Clause.holds_iff.mpr ⟨l, hl, htrue⟩
  · intro h c hc
    obtain ⟨a, ha, b, hb, rfl, _⟩ := ClauseSet.mem_product.mp hc
    rcases h with h | h
    · exact (h a ha).mono fun l hl => Clause.mem_merge.mpr (.inl hl)
    · exact (h b hb).mono fun l hl => Clause.mem_merge.mpr (.inr hl)

/-- **The clauses hold exactly when the normal form does**, if each atom has the value of the name
whose number it is. -/
theorem holds_clauseSet {u : Nat → Bool} {v : String → Bool}
    (h : ∀ name ∈ ψ.names, u (number name) = v name) :
    (∀ c ∈ ψ.clauseSet number, c.Holds u) ↔ ψ.toFormula.Holds v := by
  induction ψ with
  | constant value =>
    cases value with
    | true => simp [clauseSet, toFormula, Formula.Holds, Formula.value]
    | false =>
      simp [clauseSet, toFormula, Formula.Holds, Formula.value, Clause.not_holds_nil]
  | literal name polarity =>
    have hname : u (number name) = v name := h name (List.mem_singleton_self name)
    simp only [clauseSet, ClauseSet.mem_singleton, forall_eq, Clause.holds_iff,
      List.mem_singleton, exists_eq_left, hname]
    cases polarity with
    | true => simp [toFormula, Formula.Holds, Formula.value, Assignment.total]
    | false => simp [toFormula, Formula.Holds, Formula.value, Assignment.total]
  | and left right ihl ihr =>
    obtain ⟨hl, hr⟩ := List.forall_mem_append.mp h
    rw [toFormula, Formula.holds_and, ← ihl hl, ← ihr hr]
    simp only [clauseSet, ClauseSet.mem_union, or_imp, forall_and]
  | or left right ihl ihr =>
    obtain ⟨hl, hr⟩ := List.forall_mem_append.mp h
    rw [toFormula, Formula.holds_or, ← ihl hl, ← ihr hr, clauseSet]
    exact forall_product_iff (fun _ => clauseSet_canonical) fun _ => clauseSet_canonical

end NormalForm

namespace Formula

variable {φ : Formula} {limit : Nat} {v w : Vocabulary} {clauses : ClauseSet}

theorem clauses_eq (φ : Formula) (limit : Nat) :
    φ.clauses limit = φ.conversionForm.clauses limit := rfl

/-- A double negation is gone before the conversion. -/
theorem clauses_not_not (φ : Formula) (limit : Nat) :
    (Formula.not (.not φ)).clauses limit = φ.clauses limit := rfl

/-- When a conversion succeeds, and with what. -/
theorem clauses_eq_ok_iff :
    φ.clauses limit v = (.ok clauses, w) ↔
      v.internAll φ.conversionForm.names = w ∧ φ.conversionForm.Fits limit w.number ∧
        φ.conversionForm.clauseSet w.number = clauses :=
  NormalForm.clauses_eq_ok_iff

/-- A higher limit changes nothing once the lower one is enough. -/
theorem clauses_of_limit_le {more : Nat} (h : φ.clauses limit v = (.ok clauses, w))
    (hle : limit ≤ more) : φ.clauses more v = (.ok clauses, w) := by
  obtain ⟨hw, hfits, hclauses⟩ := clauses_eq_ok_iff.mp h
  exact clauses_eq_ok_iff.mpr ⟨hw, hfits.mono hle, hclauses⟩

/-- Conversions from one vocabulary that succeed give the same clauses. -/
theorem clauses_unique {other : Nat} {clauses' : ClauseSet} {w' : Vocabulary}
    (h : φ.clauses limit v = (.ok clauses, w)) (h' : φ.clauses other v = (.ok clauses', w')) :
    clauses' = clauses := by
  obtain ⟨rfl, _, rfl⟩ := clauses_eq_ok_iff.mp h
  obtain ⟨rfl, _, rfl⟩ := clauses_eq_ok_iff.mp h'
  rfl

/-- However a conversion ends, it has interned the names of the part that it has read. -/
theorem clauses_read (φ : Formula) (limit : Nat) (v : Vocabulary) :
    ∃ read, read <+: φ.conversionForm.names ∧ (φ.clauses limit v).2 = v.internAll read := by
  rw [clauses_eq]
  by_cases hfits : φ.conversionForm.Fits limit (v.internAll φ.conversionForm.names).number
  · rw [NormalForm.clauses_run rfl hfits]
    exact ⟨_, List.prefix_rfl, rfl⟩
  · obtain ⟨read, hread, hfail⟩ := NormalForm.clauses_give_up rfl hfits
    rw [hfail]
    exact ⟨read, hread, rfl⟩

/-- The vocabulary has at most grown. -/
theorem clauses_grow (φ : Formula) (limit : Nat) (v : Vocabulary) :
    v.names <+: (φ.clauses limit v).2.names := by
  obtain ⟨read, _, hlearned⟩ := φ.clauses_read limit v
  rw [hlearned]
  exact Vocabulary.prefix_internAll v read

/-- **A conversion that is repeated later gives the same clauses**, and no new names. -/
theorem clauses_rerun {later : Vocabulary} (h : φ.clauses limit v = (.ok clauses, w))
    (hgrow : w.names <+: later.names) : φ.clauses limit later = (.ok clauses, later) := by
  obtain ⟨hw, hfits, hclauses⟩ := clauses_eq_ok_iff.mp h
  have hnames : ∀ name ∈ φ.conversionForm.names, name ∈ w.names := fun name hname =>
    hw ▸ Vocabulary.mem_internAll.mpr (.inr hname)
  have hnumber : ∀ name ∈ φ.conversionForm.names, w.number name = later.number name :=
    fun name hname => (Vocabulary.number_of_grow hgrow (hnames name hname)).symm
  refine clauses_eq_ok_iff.mpr ⟨?_, (NormalForm.fits_congr hnumber).mp hfits, ?_⟩
  · exact Vocabulary.internAll_of_subset fun name hname => hgrow.mem (hnames name hname)
  · rw [← NormalForm.clauseSet_congr hnumber, hclauses]

end Formula

/-- The clauses are canonical and hold exactly when the formula does. -/
structure Vocabulary.Expresses (v : Vocabulary) (clauses : ClauseSet) (φ : Formula) : Prop where
  canonical : ∀ c ∈ clauses, c.Canonical
  holds_iff : ∀ (u : Nat → Bool) (values : String → Bool),
    (∀ name ∈ v.names, u (v.number name) = values name) →
      ((∀ c ∈ clauses, c.Holds u) ↔ φ.Holds values)

/-- **The clauses of a formula express it.** -/
theorem Formula.clauses_express {φ : Formula} {limit : Nat} {v w : Vocabulary}
    {clauses : ClauseSet} (h : φ.clauses limit v = (.ok clauses, w)) : w.Expresses clauses φ := by
  obtain ⟨rfl, _, rfl⟩ := clauses_eq_ok_iff.mp h
  refine ⟨fun c => NormalForm.clauseSet_canonical, fun u values hu => ?_⟩
  rw [NormalForm.holds_clauseSet, holds_conversionForm]
  exact fun name hname => hu name (Vocabulary.mem_internAll.mpr (.inr hname))

/-- No clauses at all express `⊤`. -/
theorem Vocabulary.expresses_empty (v : Vocabulary) : v.Expresses ∅ (.constant true) := by
  refine ⟨?_, fun u values _ => ?_⟩
  · simp
  · simp [Formula.Holds, Formula.value]

end BeliefRevision
