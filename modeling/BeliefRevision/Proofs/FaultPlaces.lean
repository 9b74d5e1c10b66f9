import Mathlib.Data.List.Basic
import BeliefRevision.Proofs.Computation
import BeliefRevision.Proofs.Grammar
import BeliefRevision.Proofs.StackReader

/-!
# Faults are found where they are

A reader that looks at one token at a time can tell a fault at the first token with which no phrase goes
on as the tokens before it began. The reader of formulas does: after any tokens that it has taken there is
a way to go on to a phrase, and where it stops there is none. At the end of a text it may still miss
something, an operand or the partner of a parenthesis, and then the whole text is the beginning of a
phrase.

* `Viable` — beginnings of phrases
* `Progress.viable_of_advance`, `Progress.not_viable_of_step` — what is read, and what is not, is told
  apart by these
* `Opened`, `Progress.last_opened` — the parentheses that the open groups come from
* `Formula.faults_are_placed_right` — where each fault is reported
-/

namespace BeliefRevision

/-! ## Beginnings of phrases -/

/-- More tokens can be put behind the given ones so that a phrase comes of them. -/
def Viable (tokens : List Token) : Prop := ∃ more φ, Derives (.chain .iff) (tokens ++ more) φ

/-- The last of the tokens end an operand. -/
def EndsInOperand (tokens : List Token) : Prop :=
  ∃ before operand φ, tokens = before ++ operand ∧ Derives .operand operand φ

namespace Progress

/-- Reads lexemes without asking whether the formula may end behind them. -/
def advance (progress : Progress) (lexemes : List Lexeme) : Except ParseError Progress :=
  lexemes.foldlM step progress

variable {progress next : Progress} {before lexemes after : List Lexeme} {lexeme : Lexeme}
  {fault : ParseError}

/-- What is behind the lexemes is read where they have led. -/
theorem run_append (h : progress.advance before = .ok next) (after : List Lexeme) :
    progress.run (before ++ after) = next.run after := by
  induction before generalizing progress with
  | nil =>
    cases h
    rfl
  | cons first rest ih =>
    rw [advance, List.foldlM_cons] at h
    rw [List.cons_append, run]
    cases hstep : progress.step first with
    | error fault =>
      rw [hstep] at h
      cases h
    | ok other =>
      rw [hstep] at h
      exact ih h

/-- **Reading fails at a lexeme or at the end**, in the state to which all lexemes before have led. -/
theorem run_eq_error (h : progress.run lexemes = .error fault) :
    (∃ last, progress.advance lexemes = .ok last ∧ last.finish = .error fault) ∨
      ∃ before lexeme after last, lexemes = before ++ lexeme :: after ∧
        progress.advance before = .ok last ∧ last.step lexeme = .error fault := by
  induction lexemes generalizing progress with
  | nil => exact .inl ⟨progress, rfl, h⟩
  | cons first rest ih =>
    rw [run] at h
    cases hstep : progress.step first with
    | error other =>
      rw [hstep] at h
      cases h
      exact .inr ⟨[], first, rest, progress, rfl, rfl, hstep⟩
    | ok next =>
      rw [hstep] at h
      have hfirst (others : List Lexeme) : progress.advance (first :: others) = next.advance others := by
        rw [advance, List.foldlM_cons, hstep]
        rfl
      rcases ih h with ⟨last, hlast, hfinish⟩ | ⟨before, lexeme, after, last, rfl, hlast, hfault⟩
      · exact .inl ⟨last, (hfirst _).trans hlast, hfinish⟩
      · exact .inr ⟨first :: before, lexeme, after, last, rfl, (hfirst _).trans hlast, hfault⟩

theorem reads_of_advance (h : start.advance lexemes = .ok progress) :
    progress.Reads (lexemes.map Lexeme.token) := by
  refine Computation.foldlM_invariant (fun seen progress => progress.Reads (seen.map Lexeme.token))
    (fun seen lexeme rest last next _ hread hstep => ?_) ?_ h
  · rw [List.map_append]
    exact hread.step hstep
  · exact .awaiting .nil .nil

/-- Whatever was read so far, there is a way to go on to a formula. -/
theorem exists_completion (progress : Progress) : ∃ lexemes φ, progress.run lexemes = .ok φ := by
  -- each open group is closed where its operand has ended
  have hended (groups : List OpenGroup) (pending : Pending) (operand : Formula) :
      ∃ lexemes φ, (ended groups pending operand).run lexemes = .ok φ := by
    induction groups generalizing pending operand with
    | nil => exact ⟨[], pending.close operand, rfl⟩
    | cons group groups ih =>
      obtain ⟨lexemes, φ, hrun⟩ :=
        ih group.pending (.negated group.negations (pending.close operand))
      exact ⟨⟨0, .closeParen⟩ :: lexemes, φ, hrun⟩
  cases progress with
  | awaiting groups pending negations =>
    obtain ⟨lexemes, φ, hrun⟩ := hended groups pending (.negated negations (.constant true))
    exact ⟨⟨0, .constant true⟩ :: lexemes, φ, hrun⟩
  | ended groups pending operand => exact hended groups pending operand

/-- **What is read can be extended to a phrase.** -/
theorem viable_of_advance (h : start.advance lexemes = .ok progress) :
    Viable (lexemes.map Lexeme.token) := by
  obtain ⟨more, φ, hrun⟩ := progress.exists_completion
  have hphrase := derives_of_run ((run_append h more).trans hrun)
  rw [List.map_append] at hphrase
  exact ⟨_, φ, hphrase⟩

/-- **With a token that is not read, no phrase begins**: every phrase is read, so this one would be. -/
theorem not_viable_of_step (h : start.advance before = .ok progress)
    (hstep : progress.step lexeme = .error fault) :
    ¬ Viable ((before ++ [lexeme]).map Lexeme.token) := by
  rintro ⟨more, φ, hphrase⟩
  let after : List Lexeme := more.map (⟨0, ·⟩)
  have hmore : after.map Lexeme.token = more := by simp [after, Function.comp_def]
  have hread : start.run (before ++ lexeme :: after) = .ok φ := by
    refine run_of_derives ?_
    rw [← hmore] at hphrase
    simpa using hphrase
  rw [run_append h, run, hstep] at hread
  cases hread

/-- The faults of a lexeme that is not read, at its own place. -/
theorem step_eq_error (h : progress.step lexeme = .error fault) :
    fault = .unexpectedToken lexeme.position ∨
      fault = .unbalancedParenthesis lexeme.position ∧ lexeme.token = .closeParen := by
  obtain ⟨position, token⟩ := lexeme
  cases progress with
  | awaiting groups pending negations =>
    cases token with
    | constant | atom | not | openParen => cases h
    | binary c =>
      cases h
      exact .inl rfl
    | closeParen =>
      cases h
      exact .inr ⟨rfl, rfl⟩
  | ended groups pending operand =>
    cases token with
    | binary c => cases h
    | constant | atom | not | openParen =>
      cases h
      exact .inl rfl
    | closeParen =>
      cases groups with
      | nil =>
        cases h
        exact .inr ⟨rfl, rfl⟩
      | cons group groups => cases h

/-- The faults of a text that ends. -/
theorem finish_eq_error (h : progress.finish = .error fault) :
    (fault = .unexpectedEnd ∧
        ∃ groups pending negations, progress = awaiting groups pending negations) ∨
      ∃ group groups pending operand, fault = .unbalancedParenthesis group.position ∧
        progress = ended (group :: groups) pending operand := by
  cases progress with
  | awaiting groups pending negations =>
    cases h
    exact .inl ⟨rfl, groups, pending, negations, rfl⟩
  | ended groups pending operand =>
    cases groups with
    | nil => cases h
    | cons group groups =>
      cases h
      exact .inr ⟨group, groups, pending, operand, rfl, rfl⟩

/-- An operand is missing after a negation, an open parenthesis and a connective. -/
theorem step_awaiting {groups : List OpenGroup} {pending : Pending} {negations : Nat}
    (h : progress.step lexeme = .ok (awaiting groups pending negations)) :
    lexeme.token = .not ∨ lexeme.token = .openParen ∨ ∃ c, lexeme.token = .binary c := by
  obtain ⟨position, token⟩ := lexeme
  cases token with
  | not => exact .inl rfl
  | openParen => exact .inr (.inl rfl)
  | binary c => exact .inr (.inr ⟨c, rfl⟩)
  | constant | atom => cases progress <;> cases h
  | closeParen =>
    cases progress with
    | awaiting => cases h
    | ended groups => cases groups <;> cases h

theorem last_of_awaiting {groups : List OpenGroup} {pending : Pending} {negations : Nat}
    (h : start.advance lexemes = .ok (awaiting groups pending negations)) :
    lexemes = [] ∨ ∃ front last, lexemes = front ++ [last] ∧
      (last.token = .not ∨ last.token = .openParen ∨ ∃ c, last.token = .binary c) := by
  refine Computation.foldlM_invariant (fun seen progress => ∀ groups pending negations,
    progress = awaiting groups pending negations → seen = [] ∨ ∃ front last, seen = front ++ [last] ∧
      (last.token = .not ∨ last.token = .openParen ∨ ∃ c, last.token = .binary c))
    (fun seen lexeme _ _ next _ _ hstep groups pending negations hnext => ?_) (fun _ _ _ _ => .inl rfl)
    h groups pending negations rfl
  subst hnext
  exact .inr ⟨seen, lexeme, rfl, step_awaiting hstep⟩

end Progress

/-! ## Parentheses -/

/-- The parenthesis in front of the tokens has its partner among them: up to some place more parentheses
are closed than opened. -/
def Closed (tokens : List Token) : Prop :=
  ∃ inside, inside <+: tokens ∧ inside.count .openParen < inside.count .closeParen

/-- The parentheses in the tokens have their partners there. -/
structure Balanced (tokens : List Token) : Prop where
  not_closed : ¬ Closed tokens
  count_eq : tokens.count .openParen = tokens.count .closeParen

/-- An open parenthesis among balanced tokens has its partner behind it. -/
theorem Balanced.closed_behind {inside rest : List Token} (h : Balanced (inside ++ .openParen :: rest)) :
    Closed rest := by
  refine ⟨rest, List.prefix_rfl, ?_⟩
  have hinside : ¬ inside.count .openParen < inside.count .closeParen :=
    fun hlt => h.not_closed ⟨inside, List.prefix_append .., hlt⟩
  have hcount := h.count_eq
  simp only [List.count_append, List.count_cons] at hcount
  simp at hcount
  omega

namespace Balanced

theorem nil : Balanced [] where
  not_closed := by
    rintro ⟨inside, hinside, hlt⟩
    rw [List.prefix_nil.mp hinside] at hlt
    simp at hlt
  count_eq := rfl

theorem append {left right : List Token} (hleft : Balanced left) (hright : Balanced right) :
    Balanced (left ++ right) where
  not_closed := by
    rintro ⟨inside, hinside, hlt⟩
    rcases List.prefix_or_prefix_of_prefix hinside (List.prefix_append left right) with h | ⟨more, rfl⟩
    · exact hleft.not_closed ⟨inside, h, hlt⟩
    · -- the left part counts for nothing
      refine hright.not_closed ⟨more, (List.prefix_append_right_inj left).mp hinside, ?_⟩
      have hcount := hleft.count_eq
      rw [List.count_append, List.count_append] at hlt
      omega
  count_eq := by rw [List.count_append, List.count_append, hleft.count_eq, hright.count_eq]

theorem singleton {token : Token} (hopen : token ≠ .openParen) (hclose : token ≠ .closeParen) :
    Balanced [token] where
  not_closed := by
    rintro ⟨inside, hinside, hlt⟩
    have hle := hinside.sublist.count_le .closeParen
    rw [List.count_singleton, if_neg (by simpa using hclose)] at hle
    omega
  count_eq := by simp [hopen, hclose]

theorem group {tokens : List Token} (h : Balanced tokens) :
    Balanced (.openParen :: tokens ++ [.closeParen]) where
  not_closed := by
    rintro ⟨inside, hinside, hlt⟩
    rcases List.prefix_concat_iff.mp hinside with rfl | hinside
    · have hcount := h.count_eq
      simp [List.count_append, hcount] at hlt
    · rcases List.prefix_cons_iff.mp hinside with rfl | ⟨more, rfl, hmore⟩
      · simp at hlt
      · refine h.not_closed ⟨more, hmore, ?_⟩
        simp at hlt
        omega
  count_eq := by
    have hcount := h.count_eq
    simp [List.count_append, hcount]

end Balanced

/-- The groups are opened by parentheses of the lexemes, each at the position of its group, and all other
parentheses have their partners. -/
inductive Opened : List OpenGroup → List Lexeme → Prop where
  | nil {lexemes : List Lexeme} (h : Balanced (lexemes.map Lexeme.token)) : Opened [] lexemes
  | cons {group : OpenGroup} {groups : List OpenGroup} {before after : List Lexeme}
      (hgroups : Opened groups before) (hafter : Balanced (after.map Lexeme.token)) :
      Opened (group :: groups) (before ++ ⟨group.position, .openParen⟩ :: after)

theorem Opened.append {groups : List OpenGroup} {before more : List Lexeme} (h : Opened groups before)
    (hmore : Balanced (more.map Lexeme.token)) : Opened groups (before ++ more) := by
  cases h with
  | nil h =>
    refine .nil ?_
    rw [List.map_append]
    exact h.append hmore
  | cons hgroups hafter =>
    rw [List.append_assoc, List.cons_append]
    refine .cons hgroups ?_
    rw [List.map_append]
    exact hafter.append hmore

namespace Progress

/-- The open groups, the last one opened first. -/
def groups : Progress → List OpenGroup
  | .awaiting groups _ _ | .ended groups _ _ => groups

variable {progress next : Progress} {read lexemes : List Lexeme} {lexeme : Lexeme}

theorem opened_step (h : Opened progress.groups read) (hstep : progress.step lexeme = .ok next) :
    Opened next.groups (read ++ [lexeme]) := by
  obtain ⟨position, token⟩ := lexeme
  -- a token that is no parenthesis leaves the groups as they are
  have hother (hopen : token ≠ .openParen) (hclose : token ≠ .closeParen)
      (hsame : next.groups = progress.groups) : Opened next.groups (read ++ [⟨position, token⟩]) := by
    rw [hsame]
    exact h.append (.singleton hopen hclose)
  cases progress with
  | awaiting groups pending negations =>
    cases token with
    | constant | atom | not =>
      cases hstep
      exact hother (by simp) (by simp) rfl
    | openParen =>
      cases hstep
      exact .cons h .nil
    | closeParen | binary => cases hstep
  | ended groups pending operand =>
    cases token with
    | binary c =>
      cases hstep
      exact hother (by simp) (by simp) rfl
    | closeParen =>
      cases h with
      | nil => cases hstep
      | @cons group groups before after hgroups hafter =>
        -- the last group ends, and with its parentheses it belongs to the one around it
        cases hstep
        show Opened groups _
        have hgroup : Balanced ((⟨group.position, .openParen⟩ :: after ++
            [⟨position, .closeParen⟩] : List Lexeme).map Lexeme.token) := by
          simpa using hafter.group
        simpa using hgroups.append hgroup
    | constant | atom | not | openParen => cases hstep

theorem opened_of_advance (h : start.advance lexemes = .ok progress) :
    Opened progress.groups lexemes := by
  have hstart : Opened start.groups [] := .nil .nil
  exact Computation.foldlM_invariant (fun seen progress => Opened progress.groups seen)
    (fun _ _ _ _ _ _ hopened hstep => opened_step hopened hstep) hstart h

/-- The last group is opened by the last parenthesis without partner. -/
theorem last_opened {group : OpenGroup} {groups : List OpenGroup} {pending : Pending} {operand : Formula}
    (h : start.advance lexemes = .ok (ended (group :: groups) pending operand)) :
    ∃ before after, lexemes = before ++ ⟨group.position, .openParen⟩ :: after ∧
      Balanced (after.map Lexeme.token) := by
  cases opened_of_advance h with
  | cons hgroups hafter => exact ⟨_, _, rfl, hafter⟩

end Progress

/-! ## Positions -/

namespace Token

/-- The positions of lexemes ascend. -/
def Ascending (lexemes : List Lexeme) : Prop := lexemes.Pairwise (·.position < ·.position)

theorem ascending_of_scan {position : Nat} {found lexemes : List Lexeme} {text : List Char}
    (h : scan position found text = .ok lexemes) (hfound : Ascending found.reverse)
    (hbefore : ∀ lexeme ∈ found, lexeme.position < position) : Ascending lexemes := by
  fun_induction scan position found text with
  | case1 =>
    cases h
    exact hfound
  | case2 position found first rest hblank ih =>
    exact ih h hfound fun lexeme hlexeme => Nat.lt_succ_of_lt (hbefore lexeme hlexeme)
  | case3 position found first rest hblank token more hleading ih =>
    refine ih h ?_ ?_
    · unfold Ascending
      rw [List.reverse_cons, List.pairwise_append]
      refine ⟨hfound, List.pairwise_singleton _ _, fun lexeme hlexeme last hlast => ?_⟩
      obtain rfl := List.mem_singleton.mp hlast
      exact hbefore lexeme (List.mem_reverse.mp hlexeme)
    · refine List.forall_mem_cons.mpr ⟨?_, fun lexeme hlexeme => ?_⟩
      · show position < position + 1 + more
        omega
      · have hlt := hbefore lexeme hlexeme
        omega
  | case4 => cases h

theorem ascending_of_lexemes {text : List Char} {found : List Lexeme} (h : lexemes text = .ok found) :
    Ascending found := by
  refine ascending_of_scan h ?_ ?_
  · exact List.Pairwise.nil
  · simp

/-- A position belongs to one lexeme. -/
theorem Ascending.unique {before before' after after' : List Lexeme} {lexeme lexeme' : Lexeme}
    (h : Ascending (before ++ lexeme :: after))
    (hsame : before ++ lexeme :: after = before' ++ lexeme' :: after')
    (hposition : lexeme.position = lexeme'.position) :
    before = before' ∧ lexeme = lexeme' ∧ after = after' := by
  obtain ⟨_, hafter, hbefore⟩ := List.pairwise_append.mp h
  refine (List.append_cons_inj_of_notMem ?_ ?_).mp hsame
  · intro hmem
    have hlt : lexeme'.position < lexeme.position := hbefore _ hmem _ List.mem_cons_self
    omega
  · intro hmem
    have hlt : lexeme.position < lexeme'.position := (List.pairwise_cons.mp hafter).1 _ hmem
    omega

end Token

/-! ## Places of faults -/

namespace Progress

variable {before lexemes after : List Lexeme} {lexeme : Lexeme} {fault : ParseError}

/-- **A fault of a token that is not read is reported where the token stands.** -/
theorem unread_place (h : start.run lexemes = .error fault) (hascending : Token.Ascending lexemes)
    (hsplit : lexemes = before ++ lexeme :: after)
    (hfault : fault = .unexpectedToken lexeme.position ∨
      fault = .unbalancedParenthesis lexeme.position ∧ lexeme.token = .closeParen) :
    Viable (before.map Lexeme.token) ∧ ¬ Viable ((before ++ [lexeme]).map Lexeme.token) := by
  subst hsplit
  rcases run_eq_error h with ⟨last, hlast, hfinish⟩ | ⟨before', lexeme', after', last, hsame, hlast, hstep⟩
  · -- at the end nothing but an open parenthesis is reported
    rcases finish_eq_error hfinish with ⟨rfl, _⟩ | ⟨group, groups, pending, operand, rfl, rfl⟩
    · simp at hfault
    · obtain ⟨hposition, hclose⟩ := hfault.resolve_left (by simp)
      rw [ParseError.unbalancedParenthesis.injEq] at hposition
      obtain ⟨_, _, hread, _⟩ := last_opened hlast
      obtain ⟨_, rfl, _⟩ := hascending.unique hread hposition.symm
      cases hclose
  · have hposition : lexeme.position = lexeme'.position := by
      rcases step_eq_error hstep with rfl | ⟨rfl, _⟩
      · exact (ParseError.unexpectedToken.inj (hfault.resolve_right (by simp))).symm
      · exact (ParseError.unbalancedParenthesis.inj (hfault.resolve_left (by simp)).1).symm
    obtain ⟨rfl, rfl, _⟩ := hascending.unique hsame hposition
    exact ⟨viable_of_advance hlast, not_viable_of_step hlast hstep⟩

/-- **A group that is not closed is reported where it was opened.** -/
theorem unclosed_place (h : start.run lexemes = .error (.unbalancedParenthesis lexeme.position))
    (hascending : Token.Ascending lexemes) (hsplit : lexemes = before ++ lexeme :: after)
    (hopen : lexeme.token = .openParen) :
    Viable (lexemes.map Lexeme.token) ∧ EndsInOperand (lexemes.map Lexeme.token) ∧
      Balanced (after.map Lexeme.token) := by
  rcases run_eq_error h with ⟨last, hlast, hfinish⟩ | ⟨before', lexeme', after', last, hsame, hlast, hstep⟩
  · rcases finish_eq_error hfinish with ⟨hend, _⟩ | ⟨group, groups, pending, operand, hgroup, rfl⟩
    · cases hend
    · refine ⟨viable_of_advance hlast, ?_, ?_⟩
      · generalize hread : lexemes.map Lexeme.token = tokens
        cases hread ▸ reads_of_advance hlast with
        | ended hgroups hpending hoperand =>
          exact ⟨_, _, operand, (List.append_assoc ..).symm, hoperand⟩
      · rw [ParseError.unbalancedParenthesis.injEq] at hgroup
        subst hsplit
        obtain ⟨_, _, hread, hafter⟩ := last_opened hlast
        obtain ⟨_, _, rfl⟩ := hascending.unique hread hgroup
        exact hafter
  · -- a lexeme that is not read would be a closing parenthesis at the same position
    obtain ⟨hposition, hclose⟩ := (step_eq_error hstep).resolve_left (by simp)
    rw [ParseError.unbalancedParenthesis.injEq] at hposition
    subst hsplit
    obtain ⟨_, rfl, _⟩ := hascending.unique hsame hposition
    rw [hopen] at hclose
    cases hclose

/-- **An end that comes too early is reported behind a token that an operand has to follow.** -/
theorem end_place (h : start.run lexemes = .error .unexpectedEnd) (hsome : lexemes ≠ []) :
    Viable (lexemes.map Lexeme.token) ∧ ∃ front last, lexemes = front ++ [last] ∧
      (last.token = .not ∨ last.token = .openParen ∨ ∃ c, last.token = .binary c) := by
  rcases run_eq_error h with ⟨last, hlast, hfinish⟩ | ⟨_, _, _, last, _, _, hstep⟩
  · rcases finish_eq_error hfinish with ⟨_, groups, pending, negations, rfl⟩ | ⟨_, _, _, _, hgroup, _⟩
    · exact ⟨viable_of_advance hlast, (last_of_awaiting hlast).resolve_left hsome⟩
    · cases hgroup
  · rcases step_eq_error hstep with hfault | ⟨hfault, _⟩ <;> cases hfault

/-- What is reported at all. -/
theorem place_of_fault (h : start.run lexemes = .error fault) : fault = .unexpectedEnd ∨
    ∃ lexeme ∈ lexemes, fault = .unexpectedToken lexeme.position ∨
      fault = .unbalancedParenthesis lexeme.position ∧
        (lexeme.token = .openParen ∨ lexeme.token = .closeParen) := by
  rcases run_eq_error h with ⟨last, hlast, hfinish⟩ | ⟨before, lexeme, after, last, rfl, _, hstep⟩
  · rcases finish_eq_error hfinish with ⟨rfl, _⟩ | ⟨group, groups, pending, operand, rfl, rfl⟩
    · exact .inl rfl
    · obtain ⟨_, _, rfl, _⟩ := last_opened hlast
      exact .inr ⟨⟨group.position, .openParen⟩, by simp, .inr ⟨rfl, .inl rfl⟩⟩
  · refine .inr ⟨lexeme, by simp, ?_⟩
    rcases step_eq_error hstep with rfl | ⟨rfl, hclose⟩
    · exact .inl rfl
    · exact .inr ⟨rfl, .inr hclose⟩

end Progress

namespace Formula

theorem ofString_eq_run {text : String} {lexemes : List Lexeme}
    (hlexemes : Token.lexemes text.toList = .ok lexemes) (hsome : lexemes ≠ []) :
    ofString text = Progress.start.run lexemes := by
  unfold ofString parse
  rw [hlexemes]
  cases lexemes with
  | nil => exact absurd rfl hsome
  | cons => rfl

/-- **Faults are placed right.** For a text that is cut into tokens, at least one of them:

* An unexpected token and a closing parenthesis without partner are reported where they stand. The tokens
  before them are the beginning of a phrase, and with them they are not.
* An open parenthesis without partner is reported where it stands, the last one of these. The whole text is
  the beginning of a phrase, and an operand ends with it.
* An end that comes too early is reported of the beginning of a phrase, behind a token that an operand has
  to follow.
* No other fault is reported. The reader with stacks, in which an operand might be missing, ends as this
  one does. -/
theorem faults_are_placed_right {text : String} {lexemes : List Lexeme}
    (hlexemes : Token.lexemes text.toList = .ok lexemes) (hsome : lexemes ≠ []) :
    (∀ before lexeme after, lexemes = before ++ lexeme :: after →
      (ofString text = .error (.unexpectedToken lexeme.position) ∨
        ofString text = .error (.unbalancedParenthesis lexeme.position) ∧
          lexeme.token = .closeParen) →
      Viable (before.map Lexeme.token) ∧ ¬ Viable ((before ++ [lexeme]).map Lexeme.token)) ∧
    (∀ before lexeme after, lexemes = before ++ lexeme :: after →
      ofString text = .error (.unbalancedParenthesis lexeme.position) →
      lexeme.token = .openParen →
      Viable (lexemes.map Lexeme.token) ∧ EndsInOperand (lexemes.map Lexeme.token) ∧
        ¬ Closed (after.map Lexeme.token) ∧
        ∀ inside other rest, after = inside ++ other :: rest → other.token = .openParen →
          Closed (rest.map Lexeme.token)) ∧
    (ofString text = .error .unexpectedEnd →
      Viable (lexemes.map Lexeme.token) ∧ ∃ front last, lexemes = front ++ [last] ∧
        (last.token = .not ∨ last.token = .openParen ∨ ∃ c, last.token = .binary c)) ∧
    (∀ fault, ofString text = .error fault → fault = .unexpectedEnd ∨
      ∃ lexeme ∈ lexemes, fault = .unexpectedToken lexeme.position ∨
        fault = .unbalancedParenthesis lexeme.position ∧
          (lexeme.token = .openParen ∨ lexeme.token = .closeParen)) ∧
    ∀ shortage, StackReader.start.run shortage lexemes = ofString text := by
  have hascending := Token.ascending_of_lexemes hlexemes
  rw [ofString_eq_run hlexemes hsome]
  refine ⟨?_, ?_, fun h => Progress.end_place h hsome, fun fault h => Progress.place_of_fault h,
    fun shortage => StackReader.run_eq shortage (.awaiting [] [] 0) lexemes⟩
  · rintro before lexeme after hsplit (h | ⟨h, hclose⟩)
    · exact Progress.unread_place h hascending hsplit (.inl rfl)
    · exact Progress.unread_place h hascending hsplit (.inr ⟨rfl, hclose⟩)
  · intro before lexeme after hsplit h hopen
    obtain ⟨hviable, hends, hafter⟩ := Progress.unclosed_place h hascending hsplit hopen
    refine ⟨hviable, hends, hafter.not_closed, ?_⟩
    rintro inside other rest rfl hother
    rw [List.map_append, List.map_cons, hother] at hafter
    exact hafter.closed_behind

/-- A connective in the place of an operand, a group inside of one that is left open, and a text that ends
too early. -/
theorem faults_are_placed_right_of_texts :
    (ofString "p ∧ ∨ q" = .error (.unexpectedToken 4) ∧ Viable [.atom "p", .binary .and] ∧
        ¬ Viable [.atom "p", .binary .and, .binary .or]) ∧
      (ofString "(p) ∧ (q ∨ (r)" = .error (.unbalancedParenthesis 6) ∧
        EndsInOperand [.openParen, .atom "p", .closeParen, .binary .and, .openParen, .atom "q",
          .binary .or, .openParen, .atom "r", .closeParen] ∧
        ¬ Closed [.atom "q", .binary .or, .openParen, .atom "r", .closeParen] ∧
        Closed [.atom "r", .closeParen]) ∧
      (ofString "¬(p →" = .error .unexpectedEnd ∧
        Viable [.not, .openParen, .atom "p", .binary .implies]) := by
  refine ⟨?_, ?_, ?_⟩
  · have hlexemes : Token.lexemes "p ∧ ∨ q".toList = .ok [⟨0, .atom "p"⟩, ⟨2, .binary .and⟩,
        ⟨4, .binary .or⟩, ⟨6, .atom "q"⟩] := by decide +kernel
    have hfault : ofString "p ∧ ∨ q" = .error (.unexpectedToken 4) := by decide +kernel
    obtain ⟨hunread, _⟩ := faults_are_placed_right hlexemes (by simp)
    exact ⟨hfault, hunread [⟨0, .atom "p"⟩, ⟨2, .binary .and⟩] ⟨4, .binary .or⟩ _ rfl (.inl hfault)⟩
  · have hlexemes : Token.lexemes "(p) ∧ (q ∨ (r)".toList = .ok [⟨0, .openParen⟩, ⟨1, .atom "p"⟩,
        ⟨2, .closeParen⟩, ⟨4, .binary .and⟩, ⟨6, .openParen⟩, ⟨7, .atom "q"⟩, ⟨9, .binary .or⟩,
        ⟨11, .openParen⟩, ⟨12, .atom "r"⟩, ⟨13, .closeParen⟩] := by decide +kernel
    have hfault : ofString "(p) ∧ (q ∨ (r)" = .error (.unbalancedParenthesis 6) := by decide +kernel
    obtain ⟨_, hunclosed, _⟩ := faults_are_placed_right hlexemes (by simp)
    obtain ⟨_, hends, hopen, hlater⟩ := hunclosed
      [⟨0, .openParen⟩, ⟨1, .atom "p"⟩, ⟨2, .closeParen⟩, ⟨4, .binary .and⟩] ⟨6, .openParen⟩ _ rfl
      hfault rfl
    exact ⟨hfault, hends, hopen, hlater [⟨7, .atom "q"⟩, ⟨9, .binary .or⟩] ⟨11, .openParen⟩ _ rfl rfl⟩
  · have hlexemes : Token.lexemes "¬(p →".toList = .ok [⟨0, .not⟩, ⟨1, .openParen⟩, ⟨2, .atom "p"⟩,
        ⟨4, .binary .implies⟩] := by decide +kernel
    have hfault : ofString "¬(p →" = .error .unexpectedEnd := by decide +kernel
    obtain ⟨_, _, hend, _⟩ := faults_are_placed_right hlexemes (by simp)
    exact ⟨hfault, (hend hfault).1⟩

end Formula

end BeliefRevision
