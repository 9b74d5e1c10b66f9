import BeliefRevision.Proofs.NormalShape

/-!
# The calls that a traversal makes

A traversal with two stacks ends like the fold. That leaves open what it does on the way, and a visitor that
changes a state or fails can tell the difference. So the calls of the visitor are recorded, and the record
is compared with that of the recursive traversal, which is described by a rule for each way in which the
visits of a formula can go: its operands are gone through from left to right, the formula is visited with
what was found for them, and a visit that fails is the last one.

* `Visitor.recorded` — a visitor that keeps a record of its calls
* `Formula.PostOrderCalls` — the calls of the recursive traversal, and its answer
* `Visitor.Answers` — calls that a visitor answers as it is said, one after the other
* `Visitor.foldM_recorded_iff` — the record of a fold consists of these calls
* `PostOrderCalls.endWith`, `PostOrderCalls.formulas` — which formulas are visited, and where it ends
* `traversal_makes_the_calls` — all of it for the traversal with stacks
-/

namespace BeliefRevision

/-- A visitor that may change a state and may fail. -/
abbrev Visitor (σ ε α : Type) := Formula → Operands α → ExceptT ε (StateM σ) α

/-- A call of a visitor. -/
structure Call (ε α : Type) where
  formula : Formula
  operands : Operands α
  answer : Except ε α

variable {σ ε α : Type}

/-! ## The calls of the recursive traversal -/

/-- A recursive traversal of the formula makes the calls and has the answer. The operands come first, the
left one before the right one, and the formula is visited with the values found for them. After a call that
fails there is no other one. -/
inductive Formula.PostOrderCalls : Formula → List (Call ε α) → Except ε α → Prop where
  | constant (value : Bool) (answer : Except ε α) :
    PostOrderCalls (.constant value) [⟨.constant value, .none, answer⟩] answer
  | atom (name : String) (answer : Except ε α) :
    PostOrderCalls (.atom name) [⟨.atom name, .none, answer⟩] answer
  | not {operand : Formula} {calls : List (Call ε α)} {value : α}
    (hoperand : PostOrderCalls operand calls (.ok value)) (answer : Except ε α) :
    PostOrderCalls (.not operand) (calls ++ [⟨.not operand, .one value, answer⟩]) answer
  | notStopped {operand : Formula} {calls : List (Call ε α)} {error : ε}
    (hoperand : PostOrderCalls operand calls (.error error)) :
    PostOrderCalls (.not operand) calls (.error error)
  | binary {left right : Formula} {leftCalls rightCalls : List (Call ε α)} {leftValue rightValue : α}
    (c : Connective) (hleft : PostOrderCalls left leftCalls (.ok leftValue))
    (hright : PostOrderCalls right rightCalls (.ok rightValue)) (answer : Except ε α) :
    PostOrderCalls (.binary c left right)
      (leftCalls ++ (rightCalls ++ [⟨.binary c left right, .two leftValue rightValue, answer⟩])) answer
  | leftStopped {left : Formula} {leftCalls : List (Call ε α)} {error : ε}
    (c : Connective) (right : Formula) (hleft : PostOrderCalls left leftCalls (.error error)) :
    PostOrderCalls (.binary c left right) leftCalls (.error error)
  | rightStopped {left right : Formula} {leftCalls rightCalls : List (Call ε α)} {leftValue : α}
    {error : ε} (c : Connective) (hleft : PostOrderCalls left leftCalls (.ok leftValue))
    (hright : PostOrderCalls right rightCalls (.error error)) :
    PostOrderCalls (.binary c left right) (leftCalls ++ rightCalls) (.error error)

/-- The last call has the answer, and the calls before it have succeeded. -/
def Call.EndWith (calls : List (Call ε α)) (answer : Except ε α) : Prop :=
  ∃ before last, calls = before ++ [last] ∧ last.answer = answer ∧
    ∀ call ∈ before, ∃ value, call.answer = .ok value

namespace Call

variable {calls before : List (Call ε α)} {answer : Except ε α} {value : α}

theorem endWith_singleton (call : Call ε α) : EndWith [call] call.answer :=
  ⟨[], call, rfl, rfl, by simp⟩

theorem EndWith.append (hbefore : ∀ call ∈ before, ∃ value, call.answer = .ok value)
    (h : EndWith calls answer) : EndWith (before ++ calls) answer := by
  obtain ⟨others, last, rfl, hlast, hothers⟩ := h
  refine ⟨before ++ others, last, (List.append_assoc ..).symm, hlast, ?_⟩
  exact List.forall_mem_append.mpr ⟨hbefore, hothers⟩

theorem EndWith.succeed (h : EndWith calls (.ok value)) :
    ∀ call ∈ calls, ∃ value, call.answer = .ok value := by
  obtain ⟨others, last, rfl, hlast, hothers⟩ := h
  refine List.forall_mem_append.mpr ⟨hothers, ?_⟩
  rw [List.forall_mem_singleton]
  exact ⟨value, hlast⟩

end Call

namespace Formula.PostOrderCalls

variable {φ : Formula} {calls : List (Call ε α)} {answer : Except ε α}

/-- **The traversal ends with its first failure**, or with the visit of the formula itself. -/
theorem endWith (h : φ.PostOrderCalls calls answer) : Call.EndWith calls answer := by
  induction h with
  | constant | atom => exact Call.endWith_singleton _
  | not _ answer ih => exact (Call.endWith_singleton _).append ih.succeed
  | notStopped _ ih => exact ih
  | binary c _ _ answer ihl ihr =>
    exact ((Call.endWith_singleton _).append ihr.succeed).append ihl.succeed
  | leftStopped c right _ ih => exact ih
  | rightStopped c _ _ ihl ihr => exact ihr.append ihl.succeed

/-- **Every subformula is visited once, in post-order**, as far as the traversal comes. -/
theorem formulas (h : φ.PostOrderCalls calls answer) :
    calls.map Call.formula <+: φ.subformulas ∧
      ∀ value, answer = .ok value → calls.map Call.formula = φ.subformulas := by
  induction h with
  | constant | atom => exact ⟨List.prefix_rfl, fun _ _ => rfl⟩
  | @not operand calls value _ answer ih =>
    have hall : List.map Call.formula (calls ++ [⟨.not operand, .one value, answer⟩]) =
        (Formula.not operand).subformulas := by
      rw [List.map_append, ih.2 value rfl]
      rfl
    exact ⟨hall ▸ List.prefix_rfl, fun _ _ => hall⟩
  | notStopped _ ih => exact ⟨ih.1.trans (List.prefix_append _ _), fun _ h => by cases h⟩
  | @binary left right leftCalls rightCalls leftValue rightValue c _ _ answer ihl ihr =>
    have hall : List.map Call.formula (leftCalls ++ (rightCalls ++
        [⟨.binary c left right, .two leftValue rightValue, answer⟩])) =
          (Formula.binary c left right).subformulas := by
      rw [List.map_append, List.map_append, ihl.2 leftValue rfl, ihr.2 rightValue rfl,
        ← List.append_assoc]
      rfl
    exact ⟨hall ▸ List.prefix_rfl, fun _ _ => hall⟩
  | leftStopped c right _ ih =>
    refine ⟨ih.1.trans ?_, fun _ h => by cases h⟩
    rw [subformulas, List.append_assoc]
    exact List.prefix_append _ _
  | @rightStopped left right leftCalls rightCalls leftValue error c _ _ ihl ihr =>
    refine ⟨?_, fun _ h => by cases h⟩
    rw [List.map_append, ihl.2 leftValue rfl, subformulas, List.append_assoc]
    exact (List.prefix_append_right_inj _).mpr (ihr.1.trans (List.prefix_append _ _))

end Formula.PostOrderCalls

/-! ## What a visitor answers -/

namespace Visitor

variable {visit : Visitor σ ε α} {s t u : σ} {calls : List (Call ε α)} {answer : Except ε α}
  {φ : Formula}

/-- The visitor gives the answers of the calls, one after the other, each of them in the state that the one
before has left. -/
inductive Answers (visit : Visitor σ ε α) : σ → List (Call ε α) → σ → Prop where
  | done (s : σ) : visit.Answers s [] s
  | call {s t u : σ} {call : Call ε α} {calls : List (Call ε α)}
    (hcall : visit call.formula call.operands s = (call.answer, t))
    (hcalls : visit.Answers t calls u) : visit.Answers s (call :: calls) u

theorem answers_singleton {call : Call ε α} :
    visit.Answers s [call] t ↔ visit call.formula call.operands s = (call.answer, t) := by
  constructor
  · intro h
    cases h with
    | call hcall hrest =>
      cases hrest
      exact hcall
  · exact fun h => .call h (.done t)

theorem answers_append {more : List (Call ε α)} :
    visit.Answers s (calls ++ more) u ↔ ∃ t, visit.Answers s calls t ∧ visit.Answers t more u := by
  induction calls generalizing s with
  | nil =>
    constructor
    · exact fun h => ⟨s, .done s, h⟩
    · rintro ⟨t, hnone, hmore⟩
      cases hnone
      exact hmore
  | cons call calls ih =>
    constructor
    · intro h
      cases h with
      | call hcall hrest =>
        obtain ⟨t, hcalls, hmore⟩ := ih.mp hrest
        exact ⟨t, .call hcall hcalls, hmore⟩
    · rintro ⟨t, hcalls, hmore⟩
      cases hcalls with
      | call hcall hrest => exact .call hcall (ih.mpr ⟨t, hrest, hmore⟩)

/-- **The fold makes the calls of the recursive traversal.** -/
theorem foldM_of_calls (hcalls : φ.PostOrderCalls calls answer) (hanswers : visit.Answers s calls t) :
    φ.foldM visit s = (answer, t) := by
  induction hcalls generalizing s t with
  | constant | atom => exact answers_singleton.mp hanswers
  | not _ answer ih =>
    obtain ⟨_, hoperand, hvisit⟩ := answers_append.mp hanswers
    rw [Formula.foldM, Computation.bind_of_ok (ih hoperand)]
    exact answers_singleton.mp hvisit
  | notStopped _ ih => rw [Formula.foldM, Computation.bind_of_error (ih hanswers)]
  | binary c _ _ answer ihl ihr =>
    obtain ⟨_, hleft, hrest⟩ := answers_append.mp hanswers
    obtain ⟨_, hright, hvisit⟩ := answers_append.mp hrest
    rw [Formula.foldM, Computation.bind_of_ok (ihl hleft), Computation.bind_of_ok (ihr hright)]
    exact answers_singleton.mp hvisit
  | leftStopped c right _ ih => rw [Formula.foldM, Computation.bind_of_error (ih hanswers)]
  | rightStopped c _ _ ihl ihr =>
    obtain ⟨_, hleft, hright⟩ := answers_append.mp hanswers
    rw [Formula.foldM, Computation.bind_of_ok (ihl hleft), Computation.bind_of_error (ihr hright)]

/-- Every visitor has a recursive traversal, wherever it starts. -/
theorem exists_calls (visit : Visitor σ ε α) (φ : Formula) (s : σ) :
    ∃ calls answer t, φ.PostOrderCalls calls answer ∧ visit.Answers s calls t := by
  have hvisit (φ : Formula) (operands : Operands α) (s : σ) :
      ∃ answer t, visit.Answers s [⟨φ, operands, answer⟩] t :=
    ⟨(visit φ operands s).1, (visit φ operands s).2, answers_singleton.mpr rfl⟩
  induction φ generalizing s with
  | constant value =>
    obtain ⟨answer, t, hanswer⟩ := hvisit (.constant value) .none s
    exact ⟨_, answer, t, .constant value answer, hanswer⟩
  | atom name =>
    obtain ⟨answer, t, hanswer⟩ := hvisit (.atom name) .none s
    exact ⟨_, answer, t, .atom name answer, hanswer⟩
  | not operand ih =>
    obtain ⟨calls, answer, t, hcalls, hanswers⟩ := ih s
    cases answer with
    | error error => exact ⟨calls, _, t, .notStopped hcalls, hanswers⟩
    | ok value =>
      obtain ⟨answer, u, hanswer⟩ := hvisit (.not operand) (.one value) t
      exact ⟨_, answer, u, .not hcalls answer, answers_append.mpr ⟨t, hanswers, hanswer⟩⟩
  | binary c left right ihl ihr =>
    obtain ⟨leftCalls, leftAnswer, t, hleft, hleftAnswers⟩ := ihl s
    cases leftAnswer with
    | error error => exact ⟨leftCalls, _, t, .leftStopped c right hleft, hleftAnswers⟩
    | ok leftValue =>
      obtain ⟨rightCalls, rightAnswer, u, hright, hrightAnswers⟩ := ihr t
      cases rightAnswer with
      | error error =>
        exact ⟨_, _, u, .rightStopped c hleft hright,
          answers_append.mpr ⟨t, hleftAnswers, hrightAnswers⟩⟩
      | ok rightValue =>
        obtain ⟨answer, w, hanswer⟩ := hvisit (.binary c left right) (.two leftValue rightValue) u
        refine ⟨_, answer, w, .binary c hleft hright answer, answers_append.mpr ⟨t, hleftAnswers, ?_⟩⟩
        exact answers_append.mpr ⟨u, hrightAnswers, hanswer⟩

/-! ## Records -/

/-- The visitor with a record of the calls besides its state, the first call first. -/
def recorded (visit : Visitor σ ε α) : Visitor (σ × List (Call ε α)) ε α :=
  fun φ operands (s, calls) =>
    let (answer, t) := visit φ operands s
    (answer, t, calls ++ [⟨φ, operands, answer⟩])

/-- What is answered is recorded. -/
theorem Answers.recorded (h : visit.Answers s calls t) (before : List (Call ε α)) :
    visit.recorded.Answers (s, before) calls (t, before ++ calls) := by
  induction h generalizing before with
  | done s =>
    rw [List.append_nil]
    exact .done _
  | @call s t u call calls hcall _ ih =>
    have hrest := ih (before ++ [call])
    rw [List.append_assoc, List.singleton_append] at hrest
    refine .call ?_ hrest
    show ((visit call.formula call.operands s).1, (visit call.formula call.operands s).2,
      before ++ [Call.mk call.formula call.operands (visit call.formula call.operands s).1]) = _
    rw [hcall]

/-- **The record of a fold consists of the calls of the recursive traversal**, and of no others. -/
theorem foldM_recorded_iff :
    φ.foldM visit.recorded (s, []) = (answer, t, calls) ↔
      φ.PostOrderCalls calls answer ∧ visit.Answers s calls t := by
  constructor
  · intro h
    obtain ⟨calls', answer', t', hcalls, hanswers⟩ := exists_calls visit φ s
    rw [foldM_of_calls hcalls (hanswers.recorded [])] at h
    cases h
    exact ⟨hcalls, hanswers⟩
  · rintro ⟨hcalls, hanswers⟩
    exact foldM_of_calls hcalls (hanswers.recorded [])

/-! ## The traversal with stacks -/

/-- The traversal with stacks, which may break down, while the visitor has failures of its own. -/
def traverse (visit : Visitor σ ε α) (φ : Formula) : ExceptT Breakdown (ExceptT ε (StateM σ)) α :=
  BeliefRevision.traverse (fun φ operands => ExceptT.lift (visit φ operands)) [.enter φ] []

theorem traverse_eq_lift (visit : Visitor σ ε α) (φ : Formula) :
    visit.traverse φ = ExceptT.lift (φ.foldM visit) := by
  rw [traverse, traverse_eq_foldM]
  induction φ with
  | constant | atom => rfl
  | not operand ih => rw [Formula.foldM, ih, Formula.foldM, ExceptT.lift_bind]
  | binary c left right ihl ihr =>
    rw [Formula.foldM, ihl, ihr, Formula.foldM, ExceptT.lift_bind]
    refine congrArg _ (funext fun leftValue => ?_)
    rw [ExceptT.lift_bind]

theorem traverse_run (visit : Visitor σ ε α) (φ : Formula) (s : σ) :
    visit.traverse φ s = ((φ.foldM visit s).1.map .ok, (φ.foldM visit s).2) := by
  rw [traverse_eq_lift, Computation.lift_run]

end Visitor

/-- **A traversal with stacks makes the calls of the recursive one**, in whatever state it begins and
whatever the visitor does.

* It is the fold.
* Its calls are those of a recursive traversal, and the visitor answers them one after the other. All
  of them but the last succeed, and the last one has the answer of the traversal. They are visits of the
  subformulas in post-order, from the first one on, and of all of them if the traversal succeeds.
* There are no other calls that make up a recursive traversal with these answers of the visitor.
* It never breaks down, neither for want of an operand nor for want of a result.
* With the visitor that puts formulas together again, the result is the formula. -/
theorem traversal_makes_the_calls (visit : Visitor σ ε α) (φ : Formula) (s : σ) :
    visit.traverse φ = ExceptT.lift (φ.foldM visit) ∧
    (∃ calls answer t,
      visit.recorded.traverse φ (s, []) = (answer.map .ok, t, calls) ∧
      visit.traverse φ s = (answer.map .ok, t) ∧
      φ.PostOrderCalls calls answer ∧ visit.Answers s calls t ∧
      Call.EndWith calls answer ∧
      calls.map Call.formula <+: φ.subformulas ∧
      ∀ value, answer = .ok value → calls.map Call.formula = φ.subformulas) ∧
    (∀ calls answer t, φ.PostOrderCalls calls answer → visit.Answers s calls t →
      visit.recorded.traverse φ (s, []) = (answer.map .ok, t, calls)) ∧
    (∀ breakdown, (visit.traverse φ s).1 ≠ .ok (.error breakdown)) ∧
    Traversal.copy φ = .ok φ := by
  have hrecord {calls : List (Call ε α)} {answer : Except ε α} {t : σ}
      (hcalls : φ.PostOrderCalls calls answer) (hanswers : visit.Answers s calls t) :
      visit.recorded.traverse φ (s, []) = (answer.map .ok, t, calls) := by
    rw [Visitor.traverse_run, Visitor.foldM_recorded_iff.mpr ⟨hcalls, hanswers⟩]
  refine ⟨visit.traverse_eq_lift φ, ?_, fun calls answer t => hrecord, fun breakdown => ?_,
    Traversal.copy_eq φ⟩
  · obtain ⟨calls, answer, t, hcalls, hanswers⟩ := visit.exists_calls φ s
    refine ⟨calls, answer, t, hrecord hcalls hanswers, ?_, hcalls, hanswers, hcalls.endWith,
      hcalls.formulas⟩
    rw [Visitor.traverse_run, Visitor.foldM_of_calls hcalls hanswers]
  · rw [visit.traverse_eq_lift φ]
    exact Computation.lift_ne_failure _ s breakdown

/-- A visitor that counts its calls and fails in the third one is not called for `p ∧ ¬q` any more. -/
theorem traversal_makes_the_calls_until_third :
    let visit : Visitor Nat String Nat := fun _ _ count =>
      if count = 2 then (.error "third", count) else (.ok (count + 1), count + 1)
    let φ : Formula := .binary .and (.atom "p") (.not (.atom "q"))
    let calls : List (Call String Nat) :=
      [⟨.atom "p", .none, .ok 1⟩, ⟨.atom "q", .none, .ok 2⟩,
        ⟨.not (.atom "q"), .one 2, .error "third"⟩]
    φ.PostOrderCalls calls (.error "third") ∧ visit.Answers 0 calls 2 ∧
      visit.recorded.traverse φ (0, []) = (.error "third", 2, calls) := by
  intro visit φ calls
  have hcalls : φ.PostOrderCalls calls (.error "third") :=
    .rightStopped .and (.atom "p" (.ok 1)) (.not (.atom "q" (.ok 2)) (.error "third"))
  have hanswers : visit.Answers 0 calls 2 := .call rfl (.call rfl (.call rfl (.done 2)))
  obtain ⟨_, _, honly, _, _⟩ := traversal_makes_the_calls visit φ 0
  exact ⟨hcalls, hanswers, honly calls (.error "third") 2 hcalls hanswers⟩

end BeliefRevision
