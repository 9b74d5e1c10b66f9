import BeliefRevision.Proofs.Names

/-!
# Staged and direct conversion

There are two ways from a formula to its clauses. The staged one eliminates biconditionals and then
implications before it takes the normal form, the direct one takes the normal form at once. They lead
to different trees: where a biconditional is denied, the two list the operands of the second
conjunction in opposite order. That conjunction comes behind one of the same operands, so by then all
their names are known, and neither the clauses nor the names nor the sizes that are held against the
limit depend on which operand is read first.

* `and_swap_of_known` — the operands of a conjunction without new names can be exchanged
* `ConvertedAlike` — normal forms between which no conversion can tell
* `staged_alike` — the normal forms of the two ways are such
* `conversions_coincide` — the two ways end alike, in success and in failure
-/

namespace BeliefRevision

namespace NormalForm

variable {ψ left right : NormalForm} {limit : Nat} {v w : Vocabulary}

/-! ## Conversions without new names -/

/-- After a conversion that succeeds all names of the normal form are known. -/
theorem names_known {clauses : ClauseSet} (h : ψ.clauses limit v = (.ok clauses, w)) :
    ∀ name ∈ ψ.names, name ∈ w.names := by
  obtain ⟨rfl, _, _⟩ := clauses_eq_ok_iff.mp h
  exact fun name hname => Vocabulary.mem_internAll.mpr (.inr hname)

theorem clauses_of_known (h : ∀ name ∈ ψ.names, name ∈ v.names) (hfits : ψ.Fits limit v.number) :
    ψ.clauses limit v = (.ok (ψ.clauseSet v.number), v) :=
  clauses_run (Vocabulary.internAll_of_subset h) hfits

theorem give_up_of_known (h : ∀ name ∈ ψ.names, name ∈ v.names)
    (hfits : ¬ ψ.Fits limit v.number) : ψ.clauses limit v = (.error .conversionLimit, v) := by
  obtain ⟨read, hread, hfail⟩ := clauses_give_up (Vocabulary.internAll_of_subset h) hfits
  have hsame : v.internAll read = v :=
    Vocabulary.internAll_of_subset fun name hname => h name (hread.mem hname)
  rw [hfail, hsame]

/-! ## The order of a conjunction -/

theorem clauseSet_and_comm (number : String → Nat) :
    (NormalForm.and left right).clauseSet number = (NormalForm.and right left).clauseSet number := by
  refine Std.ExtTreeSet.ext_mem fun c => ?_
  rw [clauseSet, clauseSet, ClauseSet.mem_union, ClauseSet.mem_union, or_comm]

theorem fits_and_comm {number : String → Nat} :
    (NormalForm.and left right).Fits limit number ↔
      (NormalForm.and right left).Fits limit number := by
  rw [Fits, Fits, clauseSet_and_comm, and_left_comm]

/-- **Without new names it does not matter which operand of a conjunction comes first.** -/
theorem and_swap_of_known (hleft : ∀ name ∈ left.names, name ∈ v.names)
    (hright : ∀ name ∈ right.names, name ∈ v.names) :
    (NormalForm.and left right).clauses limit v = (NormalForm.and right left).clauses limit v := by
  have hnames : ∀ name ∈ (NormalForm.and left right).names, name ∈ v.names :=
    List.forall_mem_append.mpr ⟨hleft, hright⟩
  have hswapped : ∀ name ∈ (NormalForm.and right left).names, name ∈ v.names :=
    List.forall_mem_append.mpr ⟨hright, hleft⟩
  by_cases hfits : (NormalForm.and left right).Fits limit v.number
  · rw [clauses_of_known hnames hfits, clauses_of_known hswapped (fits_and_comm.mp hfits),
      clauseSet_and_comm]
  · rw [give_up_of_known hnames hfits, give_up_of_known hswapped (mt fits_and_comm.mpr hfits)]

/-! ## Normal forms that are converted alike -/

/-- Under every limit, and whatever names are known before, the conversions of the two normal forms
have the same answer and leave the same vocabulary behind. -/
def ConvertedAlike (ψ ψ' : NormalForm) : Prop :=
  ∀ limit v, ψ.clauses limit v = ψ'.clauses limit v

namespace ConvertedAlike

variable {left' right' : NormalForm}

theorem trans {ψ ψ' ψ'' : NormalForm} (h : ψ.ConvertedAlike ψ') (h' : ψ'.ConvertedAlike ψ'') :
    ψ.ConvertedAlike ψ'' :=
  fun limit v => (h limit v).trans (h' limit v)

theorem and (hleft : left.ConvertedAlike left') (hright : right.ConvertedAlike right') :
    (NormalForm.and left right).ConvertedAlike (.and left' right') := by
  intro limit v
  rw [NormalForm.clauses, NormalForm.clauses, funext (hleft limit), funext (hright limit)]

theorem or (hleft : left.ConvertedAlike left') (hright : right.ConvertedAlike right') :
    (NormalForm.or left right).ConvertedAlike (.or left' right') := by
  intro limit v
  rw [NormalForm.clauses, NormalForm.clauses, funext (hleft limit), funext (hright limit)]

/-- The right operand is only converted when the names of the left one are known. -/
theorem or_of_known (hright : ∀ limit v, (∀ name ∈ left.names, name ∈ v.names) →
      right.clauses limit v = right'.clauses limit v) :
    (NormalForm.or left right).ConvertedAlike (.or left right') := by
  intro limit v
  rw [NormalForm.clauses, NormalForm.clauses]
  rcases hrun : left.clauses limit v with ⟨error | clauses, w⟩
  · rw [Computation.bind_of_error hrun, Computation.bind_of_error hrun]
  · rw [Computation.bind_of_ok hrun, Computation.bind_of_ok hrun]
    exact Computation.bind_congr_run (hright limit w (names_known hrun))

end ConvertedAlike

end NormalForm

namespace Formula

/-- **The normal forms of the staged and of the direct way are converted alike**, for the formula and for
its negation. -/
theorem staged_alike (φ : Formula) (polarity : Bool) :
    (φ.withoutIff.withoutImplies.normalForm polarity).ConvertedAlike (φ.normalForm polarity) := by
  induction φ generalizing polarity with
  | constant | atom => exact fun _ _ => rfl
  | not operand ih => exact ih (!polarity)
  | binary c left right ihl ihr =>
    cases c with
    | and =>
      cases polarity with
      | true => exact (ihl true).and (ihr true)
      | false => exact (ihl false).or (ihr false)
    | or =>
      cases polarity with
      | true => exact (ihl true).or (ihr true)
      | false => exact (ihl false).and (ihr false)
    | implies =>
      cases polarity with
      | true => exact (ihl false).or (ihr true)
      | false => exact (ihl true).and (ihr false)
    | iff =>
      cases polarity with
      | true => exact ((ihl false).or (ihr true)).and ((ihr false).or (ihl true))
      | false =>
        -- the staged way has the operands of the second conjunction the other way round
        refine (((ihl true).and (ihr false)).or ((ihr true).and (ihl false))).trans ?_
        refine .or_of_known fun limit v hknown => ?_
        simp only [NormalForm.names, List.mem_append, mem_names_normalForm] at hknown
        refine NormalForm.and_swap_of_known ?_ ?_
        · exact fun name hname => hknown name (.inr ((mem_names_normalForm true).mp hname))
        · exact fun name hname => hknown name (.inl ((mem_names_normalForm false).mp hname))

/-- The two normal forms of `¬(p ↔ q)` are different trees. -/
example : (Formula.not (.binary .iff (.atom "p") (.atom "q"))).conversionForm ≠
    (Formula.not (.binary .iff (.atom "p") (.atom "q"))).normalForm true := by decide

/-- **Staged and direct conversion coincide.** From any vocabulary and under any limit both give the same
clauses or both fail for the limit, and in either case both leave the same vocabulary behind. -/
theorem conversions_coincide (φ : Formula) (limit : Nat) (v : Vocabulary) :
    (∃ clauses w, φ.clauses limit v = (.ok clauses, w) ∧
        φ.distribute limit v = (.ok clauses, w)) ∨
      ∃ w, φ.clauses limit v = (.error .conversionLimit, w) ∧
        φ.distribute limit v = (.error .conversionLimit, w) := by
  have halike : φ.clauses limit v = φ.distribute limit v := φ.staged_alike true limit v
  rw [← halike]
  rcases hrun : φ.clauses limit v with ⟨error | clauses, w⟩
  · obtain rfl := NormalForm.eq_conversionLimit hrun
    exact .inr ⟨w, rfl, rfl⟩
  · exact .inl ⟨clauses, w, rfl, rfl⟩

end Formula

end BeliefRevision
