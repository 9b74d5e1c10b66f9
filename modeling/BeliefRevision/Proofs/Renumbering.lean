import BeliefRevision.Proofs.Conversion

/-!
# Clauses in other vocabularies

Another vocabulary may number the names in another order. The clauses of a formula are then the same, but
for the numbers and the order that these bring into a clause. In particular there are as many of them
at each point of a conversion, so that a limit that was enough stays enough.

* `Clause.translate` — a clause in another vocabulary
* `NormalForm.sameByName_clauseSet` — clauses found with other numbers
* `Formula.converts_elsewhere` — a conversion that succeeds does so from every vocabulary
* `Formula.clauses_sameByName` — and gives the same clauses, by name
-/

namespace BeliefRevision

/-! ## Translation -/

namespace Vocabulary

variable {v w : Vocabulary} {name : String}

/-- The number that the name of an atom has in the other vocabulary. -/
def translate (v w : Vocabulary) (atom : Nat) : Nat := ((v.name? atom).map w.number).getD atom

theorem translate_number (h : name ∈ v.names) : v.translate w (v.number name) = w.number name := by
  rw [translate, name?_number h]
  rfl

end Vocabulary

/-- The literal in the other vocabulary. -/
def Literal.translate (v w : Vocabulary) (l : Literal) : Literal :=
  { l with atom := v.translate w l.atom }

namespace Clause

variable {v w : Vocabulary} {clause left right : Clause}

/-- The clause in the other vocabulary, in the order of the numbers there. -/
def translate (v w : Vocabulary) (clause : Clause) : Clause :=
  ofLiterals (clause.map (Literal.translate v w))

/-- The atoms have names, which the other vocabulary knows. -/
def Shared (v w : Vocabulary) (clause : Clause) : Prop :=
  ∀ l ∈ clause, ∃ name, name ∈ v.names ∧ name ∈ w.names ∧ l.atom = v.number name

theorem mem_translate {l : Literal} :
    l ∈ clause.translate v w ↔ ∃ m ∈ clause, m.translate v w = l := by
  rw [translate, mem_ofLiterals, List.mem_map]

theorem canonical_translate : (clause.translate v w).Canonical := canonical_ofLiterals _

theorem translate_merge :
    (left.merge right).translate v w = (left.translate v w).merge (right.translate v w) := by
  refine canonical_translate.ext (canonical_translate.merge canonical_translate) fun l => ?_
  simp only [mem_translate, mem_merge, or_and_right, exists_or]

/-- There and back. -/
theorem Shared.translate_translate {l : Literal}
    (h : ∃ name, name ∈ v.names ∧ name ∈ w.names ∧ l.atom = v.number name) :
    (l.translate v w).translate w v = l := by
  obtain ⟨name, hv, hw, hatom⟩ := h
  have hback : w.translate v (v.translate w l.atom) = l.atom := by
    rw [hatom, Vocabulary.translate_number hv, Vocabulary.translate_number hw]
  unfold Literal.translate
  rw [hback]

theorem translate_translate (h : clause.Shared v w) (hcanonical : clause.Canonical) :
    (clause.translate v w).translate w v = clause := by
  refine canonical_translate.ext hcanonical fun l => ?_
  simp only [mem_translate]
  constructor
  · rintro ⟨_, ⟨m, hm, rfl⟩, rfl⟩
    rwa [Shared.translate_translate (h m hm)]
  · intro hl
    exact ⟨_, ⟨l, hl, rfl⟩, Shared.translate_translate (h l hl)⟩

theorem isTautology_translate (h : clause.Shared v w) (hcanonical : clause.Canonical) :
    (clause.translate v w).isTautology = clause.isTautology := by
  rw [Bool.eq_iff_iff, isTautology_iff canonical_translate, isTautology_iff hcanonical]
  constructor
  · rintro ⟨l, hl, hneg⟩
    obtain ⟨m, hm, rfl⟩ := mem_translate.mp hl
    obtain ⟨n, hn, hsame⟩ := mem_translate.mp hneg
    -- back in the first vocabulary the two are a literal and its negation, too
    have hback := congrArg (Literal.translate w v) hsame
    have hnegate : (m.translate v w).negate.translate w v = ((m.translate v w).translate w v).negate := rfl
    rw [hnegate, Shared.translate_translate (h m hm), Shared.translate_translate (h n hn)] at hback
    exact ⟨m, hm, hback ▸ hn⟩
  · rintro ⟨l, hl, hneg⟩
    exact ⟨l.translate v w, mem_translate.mpr ⟨l, hl, rfl⟩, mem_translate.mpr ⟨l.negate, hneg, rfl⟩⟩

end Clause

/-! ## Sets of clauses -/

namespace ClauseSet

variable {v w : Vocabulary} {clauses others : ClauseSet}

/-- Every clause of the first set, in the other vocabulary, is in the second one. -/
structure CarriesOver (v w : Vocabulary) (clauses others : ClauseSet) : Prop where
  shared : ∀ c ∈ clauses, c.Shared v w
  mem : ∀ c ∈ clauses, c.translate v w ∈ others
  back : ∀ c ∈ clauses, (c.translate v w).translate w v = c

/-- The sets have the same clauses, written with the numbers of the one vocabulary and of the other. -/
structure SameByName (v w : Vocabulary) (clauses others : ClauseSet) : Prop where
  forth : clauses.CarriesOver v w others
  back : others.CarriesOver w v clauses

theorem CarriesOver.size_le (h : clauses.CarriesOver v w others) : clauses.size ≤ others.size := by
  have hmem : ∀ c ∈ clauses, c ∈ others.toList.map (Clause.translate w v) := by
    intro c hc
    exact List.mem_map.mpr ⟨_, mem_toList.mpr (h.mem c hc), h.back c hc⟩
  have hlength := size_le_length hmem
  rwa [List.length_map, Std.ExtTreeSet.length_toList] at hlength

theorem SameByName.size_eq (h : clauses.SameByName v w others) : others.size = clauses.size :=
  Nat.le_antisymm h.back.size_le h.forth.size_le

end ClauseSet

/-! ## Conversions -/

namespace NormalForm

variable {ψ : NormalForm} {v w : Vocabulary} {limit : Nat}

theorem shared_clauseSet (hv : ∀ name ∈ ψ.names, name ∈ v.names)
    (hw : ∀ name ∈ ψ.names, name ∈ w.names) {c : Clause} (hc : c ∈ ψ.clauseSet v.number) :
    c.Shared v w := by
  intro l hl
  obtain ⟨name, hname, hatom⟩ := clauseSet_atoms hc l hl
  exact ⟨name, hv name hname, hw name hname, hatom⟩

theorem translate_mem_clauseSet (hv : ∀ name ∈ ψ.names, name ∈ v.names)
    (hw : ∀ name ∈ ψ.names, name ∈ w.names) {c : Clause} (hc : c ∈ ψ.clauseSet v.number) :
    c.translate v w ∈ ψ.clauseSet w.number := by
  induction ψ generalizing c with
  | constant value =>
    cases value with
    | true => simp [clauseSet] at hc
    | false =>
      obtain rfl := ClauseSet.mem_singleton.mp hc
      exact ClauseSet.mem_singleton.mpr rfl
  | literal name polarity =>
    obtain rfl := ClauseSet.mem_singleton.mp hc
    refine ClauseSet.mem_singleton.mpr ?_
    show [Literal.translate v w ⟨v.number name, polarity⟩] = _
    rw [Literal.translate, Vocabulary.translate_number (hv name (List.mem_singleton_self name))]
  | and left right ihl ihr =>
    obtain ⟨hvl, hvr⟩ := List.forall_mem_append.mp hv
    obtain ⟨hwl, hwr⟩ := List.forall_mem_append.mp hw
    exact ClauseSet.mem_union.mpr ((ClauseSet.mem_union.mp hc).imp (ihl hvl hwl) (ihr hvr hwr))
  | or left right ihl ihr =>
    obtain ⟨hvl, hvr⟩ := List.forall_mem_append.mp hv
    obtain ⟨hwl, hwr⟩ := List.forall_mem_append.mp hw
    have htaut := Clause.isTautology_translate (shared_clauseSet hv hw hc) (clauseSet_canonical hc)
    obtain ⟨a, ha, b, hb, rfl, hnot⟩ := ClauseSet.mem_product.mp hc
    exact ClauseSet.mem_product.mpr
      ⟨_, ihl hvl hwl ha, _, ihr hvr hwr hb, Clause.translate_merge, htaut.trans hnot⟩

/-- **With the numbers of another vocabulary the clauses are the same, by name.** -/
theorem sameByName_clauseSet (hv : ∀ name ∈ ψ.names, name ∈ v.names)
    (hw : ∀ name ∈ ψ.names, name ∈ w.names) :
    (ψ.clauseSet v.number).SameByName v w (ψ.clauseSet w.number) := by
  have hcarries {v w : Vocabulary} (hv : ∀ name ∈ ψ.names, name ∈ v.names)
      (hw : ∀ name ∈ ψ.names, name ∈ w.names) :
      (ψ.clauseSet v.number).CarriesOver v w (ψ.clauseSet w.number) :=
    ⟨fun _ => shared_clauseSet hv hw, fun _ => translate_mem_clauseSet hv hw,
      fun _ hc => Clause.translate_translate (shared_clauseSet hv hw hc) (clauseSet_canonical hc)⟩
  exact ⟨hcarries hv hw, hcarries hw hv⟩

/-- A limit that is enough with some numbers is enough with others. -/
theorem Fits.elsewhere (hv : ∀ name ∈ ψ.names, name ∈ v.names)
    (hw : ∀ name ∈ ψ.names, name ∈ w.names) (h : ψ.Fits limit v.number) : ψ.Fits limit w.number := by
  induction ψ with
  | constant | literal => trivial
  | and left right ihl ihr | or left right ihl ihr =>
    obtain ⟨hvl, hvr⟩ := List.forall_mem_append.mp hv
    obtain ⟨hwl, hwr⟩ := List.forall_mem_append.mp hw
    obtain ⟨hl, hr, hsize⟩ := h
    refine ⟨ihl hvl hwl hl, ihr hvr hwr hr, ?_⟩
    rwa [(sameByName_clauseSet hv hw).size_eq]

end NormalForm

namespace Formula

variable {φ : Formula} {limit other : Nat} {v w : Vocabulary} {clauses others : ClauseSet}

/-- **A conversion that succeeds would do so from every vocabulary.** -/
theorem converts_elsewhere (h : φ.clauses limit v = (.ok clauses, w)) (u : Vocabulary) :
    ∃ others, φ.clauses limit u = (.ok others, u.internAll φ.conversionForm.names) := by
  obtain ⟨rfl, hfits, _⟩ := clauses_eq_ok_iff.mp h
  refine ⟨_, clauses_eq_ok_iff.mpr ⟨rfl, hfits.elsewhere ?_ ?_, rfl⟩⟩
  · exact fun name hname => Vocabulary.mem_internAll.mpr (.inr hname)
  · exact fun name hname => Vocabulary.mem_internAll.mpr (.inr hname)

/-- **Conversions of one formula give the same clauses, by name**, whatever the vocabularies are. -/
theorem clauses_sameByName {v' w' : Vocabulary} (h : φ.clauses limit v = (.ok clauses, w))
    (h' : φ.clauses other v' = (.ok others, w')) : clauses.SameByName w w' others := by
  obtain ⟨rfl, _, rfl⟩ := clauses_eq_ok_iff.mp h
  obtain ⟨rfl, _, rfl⟩ := clauses_eq_ok_iff.mp h'
  refine NormalForm.sameByName_clauseSet ?_ ?_
  · exact fun name hname => Vocabulary.mem_internAll.mpr (.inr hname)
  · exact fun name hname => Vocabulary.mem_internAll.mpr (.inr hname)

end Formula

end BeliefRevision
