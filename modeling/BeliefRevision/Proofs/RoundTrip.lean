import Mathlib.Data.List.Basic
import BeliefRevision.Formula.Parser
import BeliefRevision.Proofs.Scanning

/-!
# Printed formulas are read back

The text of a formula stands for that formula again, provided that the names of its atoms can be read.
And they can, if the formula was read itself.

Printer and reader meet at the tokens. The texts of the tokens are cut where they were joined, since no
two operands stand side by side. And the tokens of an operand, whatever waits for it, lead the reader
from waiting to the end of that operand: a group has its own place, so what waits outside does not
matter.

* `legible_tokens` — the printed tokens can be told apart
* `readAsOperand`, `run_tokens` — the printed tokens lead to the formula
* `names_run` — a formula has the names that were read, in their order
* `display_reads_back` — both directions
-/

namespace BeliefRevision

/-! ## Printed tokens -/

namespace Formula

theorem legible_tokensBefore {φ : Formula} {rest : List Token}
    (hφ : ∀ name ∈ φ.names, IsAtomName name) (hrest : Token.Legible rest)
    (happart : ∀ next ∈ rest.head?, next.names = []) (isOperand : Bool) :
    Token.Legible (φ.tokensBefore isOperand rest) := by
  induction φ generalizing rest isOperand with
  | constant value => exact .sign rfl hrest
  | atom name => exact .atom (hφ name (List.mem_singleton_self name)) happart hrest
  | not operand ih => exact .sign rfl (ih hφ hrest happart true)
  | binary c left right ihl ihr =>
    obtain ⟨hleft, hright⟩ := List.forall_mem_append.mp hφ
    -- behind the left operand comes the connective
    have hboth {after : List Token} (hafter : Token.Legible after)
        (happart : ∀ next ∈ after.head?, next.names = []) :
        Token.Legible (left.tokensBefore true (.binary c :: right.tokensBefore true after)) :=
      ihl hleft (.sign rfl (ihr hright hafter happart true)) (by simp [Token.names]) true
    cases isOperand with
    | true => exact .sign rfl (hboth (.sign rfl hrest) (by simp [Token.names]))
    | false => exact hboth hrest happart

theorem legible_tokens {φ : Formula} (hφ : ∀ name ∈ φ.names, IsAtomName name) :
    Token.Legible φ.tokens :=
  legible_tokensBefore hφ .nil (by simp) false

theorem negated_not (n : Nat) (φ : Formula) : negated n (.not φ) = negated (n + 1) φ := by
  induction n with
  | zero => rfl
  | succ n ih =>
    rw [negated, ih]
    rfl

end Formula

/-! ## Reading what was printed -/

namespace Progress

/-- A token that is read, wherever it stands. -/
theorem run_token (progress : Progress) {next : Nat → Progress} {token : Token}
    {rest : List Token} {lexemes : List Lexeme} (h : lexemes.map Lexeme.token = token :: rest)
    (hstep : ∀ position, progress.step ⟨position, token⟩ = .ok (next position)) :
    ∃ position after, after.map Lexeme.token = rest ∧
      progress.run lexemes = (next position).run after := by
  obtain ⟨⟨position, _⟩, after, rfl, rfl, hafter⟩ := List.map_eq_cons_iff.mp h
  refine ⟨position, after, hafter, ?_⟩
  rw [run, hstep]

/-- The tokens of the formula, as an operand, lead from waiting for it to its end. -/
def ReadAsOperand (φ : Formula) : Prop :=
  ∀ (groups : List OpenGroup) (pending : Pending) (negations : Nat) (rest : List Token)
    (lexemes : List Lexeme), lexemes.map Lexeme.token = φ.tokensBefore true rest →
      ∃ after, after.map Lexeme.token = rest ∧
        (awaiting groups pending negations).run lexemes =
          (ended groups pending (.negated negations φ)).run after

/-- Two operands and a connective, where nothing waits before them. -/
theorem run_binary {left right : Formula} (hleft : ReadAsOperand left)
    (hright : ReadAsOperand right) {c : Connective} {rest : List Token} {lexemes : List Lexeme}
    (h : lexemes.map Lexeme.token =
      left.tokensBefore true (.binary c :: right.tokensBefore true rest))
    (groups : List OpenGroup) :
    ∃ after, after.map Lexeme.token = rest ∧
      (awaiting groups [] 0).run lexemes = (ended groups [(c, left)] right).run after := by
  obtain ⟨middle, hmiddle, hfirst⟩ := hleft groups [] 0 _ _ h
  obtain ⟨_, others, hothers, hconnective⟩ :=
    run_token (ended groups [] left) hmiddle fun _ => rfl
  obtain ⟨after, hafter, hsecond⟩ := hright groups [(c, left)] 0 _ _ hothers
  exact ⟨after, hafter, hfirst.trans (hconnective.trans hsecond)⟩

/-- **Every formula is read as an operand.** -/
theorem readAsOperand (φ : Formula) : ReadAsOperand φ := by
  induction φ with
  | constant | atom =>
    intro groups pending negations rest lexemes h
    obtain ⟨_, after, hafter, hrun⟩ :=
      run_token (awaiting groups pending negations) h fun _ => rfl
    exact ⟨after, hafter, hrun⟩
  | not operand ih =>
    intro groups pending negations rest lexemes h
    obtain ⟨_, middle, hmiddle, hnot⟩ :=
      run_token (awaiting groups pending negations) h fun _ => rfl
    obtain ⟨after, hafter, hrun⟩ := ih groups pending (negations + 1) _ _ hmiddle
    rw [Formula.negated_not]
    exact ⟨after, hafter, hnot.trans hrun⟩
  | binary c left right ihl ihr =>
    intro groups pending negations rest lexemes h
    -- what waits is put aside with the parenthesis
    obtain ⟨position, inner, hinner, hopen⟩ :=
      run_token (awaiting groups pending negations) h fun _ => rfl
    let group : OpenGroup := ⟨position, pending, negations⟩
    obtain ⟨last, hlast, hboth⟩ := run_binary ihl ihr hinner (group :: groups)
    obtain ⟨_, after, hafter, hclose⟩ :=
      run_token (ended (group :: groups) [(c, left)] right) hlast fun _ => rfl
    exact ⟨after, hafter, hopen.trans (hboth.trans hclose)⟩

/-- **The printed tokens lead to the formula.** -/
theorem run_tokens {φ : Formula} {lexemes : List Lexeme}
    (h : lexemes.map Lexeme.token = φ.tokens) : start.run lexemes = .ok φ := by
  have hoperand (hsame : φ.tokens = φ.tokensBefore true []) : start.run lexemes = .ok φ := by
    obtain ⟨after, hafter, hrun⟩ := readAsOperand φ [] [] 0 [] lexemes (h.trans hsame)
    rw [List.map_eq_nil_iff] at hafter
    rw [start, hrun, hafter]
    rfl
  cases φ with
  | constant | atom | not => exact hoperand rfl
  | binary c left right =>
    -- the formula as a whole has no parentheses
    obtain ⟨after, hafter, hrun⟩ := run_binary (readAsOperand left) (readAsOperand right) h []
    rw [List.map_eq_nil_iff] at hafter
    rw [start, hrun, hafter]
    rfl

end Progress

/-! ## Names -/

namespace Pending

/-- The names in what waits, in the order of reading. -/
def names : Pending → List String
  | [] => []
  | (_, left) :: rest => names rest ++ left.names

theorem names_close (pending : Pending) (operand : Formula) :
    (pending.close operand).names = pending.names ++ operand.names := by
  induction pending generalizing operand with
  | nil => rfl
  | cons waiting rest ih =>
    show (close rest (.binary waiting.1 waiting.2 operand)).names = _
    rw [ih, names, Formula.names, List.append_assoc]

theorem names_push (c : Connective) (pending : Pending) (operand : Formula) :
    (pending.push c operand).names = pending.names ++ operand.names := by
  fun_induction push c pending operand with
  | case1 operand => rfl
  | case2 d left rest operand hle ih => rw [ih, names, Formula.names, List.append_assoc]
  | case3 d left rest operand hlt => rfl

end Pending

namespace Progress

/-- The names in what the open groups have put aside, in the order of reading. -/
def groupNames : List OpenGroup → List String
  | [] => []
  | group :: groups => groupNames groups ++ group.pending.names

/-- The names read so far. -/
def names : Progress → List String
  | .awaiting groups pending _ => groupNames groups ++ pending.names
  | .ended groups pending operand => groupNames groups ++ pending.names ++ operand.names

theorem names_negated (n : Nat) (φ : Formula) : (Formula.negated n φ).names = φ.names := by
  induction n with
  | zero => rfl
  | succ n ih => rw [Formula.negated, Formula.names, ih]

/-- A token adds its name, and nothing is lost. -/
theorem names_step {progress next : Progress} {lexeme : Lexeme}
    (h : progress.step lexeme = .ok next) :
    next.names = progress.names ++ lexeme.token.names := by
  obtain ⟨position, token⟩ := lexeme
  cases progress with
  | awaiting groups pending negations =>
    cases token <;> cases h <;> simp [names, groupNames, Pending.names, names_negated, Token.names,
      Formula.names]
  | ended groups pending operand =>
    cases token with
    | binary c =>
      cases h
      simp [names, Pending.names_push, Token.names]
    | closeParen =>
      cases groups with
      | nil => cases h
      | cons group groups =>
        cases h
        simp [names, groupNames, names_negated, Pending.names_close, Token.names]
    | constant | atom | not | openParen => cases h

/-- **A formula has the names that were read, in their order.** -/
theorem names_run {progress : Progress} {lexemes : List Lexeme} {φ : Formula}
    (h : progress.run lexemes = .ok φ) :
    φ.names = progress.names ++ lexemes.flatMap (·.token.names) := by
  induction lexemes generalizing progress with
  | nil =>
    cases progress with
    | awaiting groups pending negations => cases h
    | ended groups pending operand =>
      cases groups with
      | nil =>
        cases h
        simp [names, groupNames, Pending.names_close]
      | cons group groups => cases h
  | cons lexeme rest ih =>
    rw [run] at h
    cases hstep : progress.step lexeme with
    | error fault =>
      rw [hstep] at h
      cases h
    | ok next =>
      rw [hstep] at h
      rw [ih h, names_step hstep, List.flatMap_cons, List.append_assoc]

end Progress

/-! ## Texts -/

namespace Formula

theorem parse_eq_ok_iff {text : List Char} {φ : Formula} :
    parse text = .ok φ ↔
      ∃ lexemes, Token.lexemes text = .ok lexemes ∧ Progress.start.run lexemes = .ok φ := by
  unfold parse
  constructor
  · intro h
    rcases hlexemes : Token.lexemes text with fault | _ | ⟨lexeme, rest⟩
    · rw [hlexemes] at h
      cases h
    · rw [hlexemes] at h
      cases h
    · rw [hlexemes] at h
      exact ⟨_, rfl, h⟩
  · rintro ⟨lexemes, hlexemes, hrun⟩
    rw [hlexemes]
    cases lexemes with
    | nil => cases hrun
    | cons lexeme rest => exact hrun

theorem ofString_display {φ : Formula} (hφ : ∀ name ∈ φ.names, IsAtomName name) :
    ofString φ.display = .ok φ := by
  obtain ⟨lexemes, hlexemes, htokens⟩ := Token.lexemes_texts (legible_tokens hφ)
  rw [ofString, display, String.toList_ofList]
  exact parse_eq_ok_iff.mpr ⟨lexemes, hlexemes, Progress.run_tokens htokens⟩

theorem isAtomName_of_ofString {text : String} {φ : Formula} (h : ofString text = .ok φ) :
    ∀ name ∈ φ.names, IsAtomName name := by
  obtain ⟨lexemes, hlexemes, hrun⟩ := parse_eq_ok_iff.mp h
  have hnames := Progress.names_run hrun
  intro name hname
  rw [hnames] at hname
  obtain ⟨lexeme, hlexeme, hname⟩ := List.mem_flatMap.mp hname
  exact Token.isAtomName_of_lexemes hlexemes lexeme hlexeme name hname

/-- **Printed formulas are read back**, whatever their shape: those whose names can be read, and so all
those that were read. -/
theorem display_reads_back :
    (∀ φ : Formula, (∀ name ∈ φ.names, IsAtomName name) → ofString φ.display = .ok φ) ∧
      ∀ text φ, ofString text = .ok φ →
        (∀ name ∈ φ.names, IsAtomName name) ∧ ofString φ.display = .ok φ := by
  refine ⟨fun φ => ofString_display, fun text φ h => ?_⟩
  have hφ := isAtomName_of_ofString h
  exact ⟨hφ, ofString_display hφ⟩

/-- What was read with other spellings and by precedence is printed with parentheses and read back. -/
theorem display_reads_back_of_spellings :
    let φ : Formula := .binary .implies (.not (.not (.atom "p")))
      (.binary .or (.binary .and (.atom "_x1") (.not (.constant true))) (.atom "Trueish"))
    ofString "!~p=>(_x1/\\ ¬True|Trueish)" = .ok φ ∧
      φ.display = "¬¬p → ((_x1 ∧ ¬⊤) ∨ Trueish)" ∧
      (∀ name ∈ φ.names, IsAtomName name) ∧ ofString φ.display = .ok φ := by
  intro φ
  have hread : ofString "!~p=>(_x1/\\ ¬True|Trueish)" = .ok φ := by decide +kernel
  have hdisplay : φ.display = "¬¬p → ((_x1 ∧ ¬⊤) ∨ Trueish)" := by decide +kernel
  obtain ⟨_, hback⟩ := display_reads_back
  exact ⟨hread, hdisplay, hback _ φ hread⟩

end Formula

end BeliefRevision
