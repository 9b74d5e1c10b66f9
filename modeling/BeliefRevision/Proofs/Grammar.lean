import BeliefRevision.Proofs.RoundTrip
import BeliefRevision.Proofs.Spelling

/-!
# The grammar of formulas

Formulas are written by a grammar with one level for operands and one for each connective. A level for
a connective has the tighter levels in it, and on its left side itself, so that connectives group to the
left. The reader, which keeps stacks of what waits and decides at each connective what is complete, reads
exactly the formulas of the grammar.

* `Derives` — the grammar
* `Progress.derives_of_run` — what was read is always the beginning of a phrase
* `Progress.run_of_derives` — every phrase is read
* `Row.divide` — which connective of a row comes to stand on top
* `Place` — phrases inside of phrases
* `Formula.parse_iff_grammar` — all of it
-/

namespace BeliefRevision

/-! ## Phrases -/

/-- The levels of the grammar. -/
inductive Level where
  /-- Formulas that are operands of any connective as they stand. -/
  | operand
  /-- Formulas whose connectives bind at least as tightly as the given one. -/
  | chain (c : Connective)

/-- The level of what stands to the right of a connective: the next tighter one. -/
def Connective.next : Connective → Level
  | .and => .operand
  | .or => .chain .and
  | .implies => .chain .or
  | .iff => .chain .implies

/-- The tokens are a phrase of the level, which stands for the formula. -/
inductive Derives : Level → List Token → Formula → Prop where
  | constant (value : Bool) : Derives .operand [.constant value] (.constant value)
  | atom (name : String) : Derives .operand [.atom name] (.atom name)
  | not {tokens : List Token} {φ : Formula} (h : Derives .operand tokens φ) :
      Derives .operand (.not :: tokens) (.not φ)
  | group {tokens : List Token} {φ : Formula} (h : Derives (.chain .iff) tokens φ) :
      Derives .operand (.openParen :: tokens ++ [.closeParen]) φ
  | tighter {c : Connective} {tokens : List Token} {φ : Formula} (h : Derives c.next tokens φ) :
      Derives (.chain c) tokens φ
  | binary {c : Connective} {left right : List Token} {φ ψ : Formula}
      (hleft : Derives (.chain c) left φ) (hright : Derives c.next right ψ) :
      Derives (.chain c) (left ++ .binary c :: right) (.binary c φ ψ)

namespace Level

/-- How tightly the connectives outside of parentheses bind at least. -/
def strength : Level → Nat
  | .operand => 5
  | .chain c => c.strength

@[simp] theorem strength_next (c : Connective) : c.next.strength = c.strength + 1 := by
  cases c <;> rfl

end Level

theorem Level.strength_pos (level : Level) : 1 ≤ level.strength := by
  rcases level with _ | c
  · decide
  · cases c <;> decide

theorem Connective.strength_lt (c : Connective) : c.strength < Level.operand.strength := by
  cases c <;> decide

theorem Level.strength_le (level : Level) : level.strength ≤ Level.operand.strength := by
  cases level with
  | operand => exact Nat.le_refl _
  | chain c => exact Nat.le_of_lt c.strength_lt

theorem Connective.eq_of_strength {c d : Connective} (h : c.strength = d.strength) : c = d := by
  cases c <;> cases d <;> first | rfl | cases h

theorem Connective.strength_next_le {c d : Connective} (h : d.strength ≤ c.strength) (hne : d ≠ c) :
    d.next.strength ≤ c.strength := by
  rw [Level.strength_next]
  exact Nat.lt_of_le_of_ne h fun hsame => hne (Connective.eq_of_strength hsame)

theorem Level.eq_of_strength {level other : Level} (h : level.strength = other.strength) :
    level = other := by
  cases level with
  | operand =>
    cases other with
    | operand => rfl
    | chain c => exact absurd h.symm (Nat.ne_of_lt c.strength_lt)
  | chain c =>
    cases other with
    | operand => exact absurd h (Nat.ne_of_lt c.strength_lt)
    | chain d => rw [Connective.eq_of_strength h]

/-- A phrase of a tighter level is one of the looser level, too. -/
theorem Derives.loosen {level looser : Level} {tokens : List Token} {φ : Formula}
    (h : Derives level tokens φ) (hle : looser.strength ≤ level.strength) :
    Derives looser tokens φ := by
  obtain ⟨n, hn⟩ := Nat.exists_eq_add_of_le hle
  induction n generalizing looser with
  | zero =>
    rw [← Level.eq_of_strength hn]
    exact h
  | succ n ih =>
    cases looser with
    | operand =>
      have hlevel := level.strength_le
      omega
    | chain c =>
      have hnext : level.strength = c.next.strength + n := by
        rw [Level.strength_next, hn, Level.strength]
        omega
      exact .tighter (ih (hnext ▸ Nat.le_add_right _ _) hnext)

/-! ## What was read -/

namespace Pending

/-- What waits binds less tightly than the level. -/
def LooserThan (pending : Pending) (level : Level) : Prop :=
  ∀ waiting ∈ pending.head?, waiting.1.strength < level.strength

/-- The tokens of what waits: each left operand and its connective, which binds more tightly than the
one before. -/
inductive Reads : Pending → List Token → Prop where
  | nil : Reads [] []
  | cons {c : Connective} {left : Formula} {rest : Pending} {before tokens : List Token}
      (hrest : Reads rest before) (hloose : rest.LooserThan (.chain c))
      (hleft : Derives (.chain c) tokens left) :
      Reads ((c, left) :: rest) (before ++ (tokens ++ [.binary c]))

theorem looserThan_nil (level : Level) : LooserThan [] level := by simp [LooserThan]

theorem looserThan_cons {c : Connective} {left : Formula} {rest : Pending} {level : Level} :
    LooserThan ((c, left) :: rest) level ↔ c.strength < level.strength := by simp [LooserThan]

variable {pending : Pending} {before tokens : List Token} {level : Level} {operand : Formula}

/-- The right operand of what waits last. -/
theorem LooserThan.right {c : Connective} {left : Formula} {rest : Pending}
    (h : LooserThan ((c, left) :: rest) level) (hoperand : Derives level tokens operand) :
    Derives c.next tokens operand := by
  refine hoperand.loosen ?_
  rw [Level.strength_next]
  exact looserThan_cons.mp h

/-- With its right operand, all that waits is one phrase. -/
theorem Reads.close (h : pending.Reads before) (hloose : pending.LooserThan level)
    (hoperand : Derives level tokens operand) :
    Derives (.chain .iff) (before ++ tokens) (pending.close operand) := by
  induction h generalizing level tokens operand with
  | nil => exact hoperand.loosen level.strength_pos
  | @cons c left rest before lefts hrest hlooser hleft ih =>
    have hboth := ih hlooser (.binary hleft (hloose.right hoperand))
    show Derives (.chain .iff) _ (Pending.close rest (.binary c left operand))
    simpa using hboth

/-- A connective takes its left operand from what waits. -/
theorem Reads.push (h : pending.Reads before) (hloose : pending.LooserThan level)
    {c : Connective} (hc : c.strength ≤ level.strength) (hoperand : Derives level tokens operand) :
    Reads (push c pending operand) (before ++ (tokens ++ [.binary c])) := by
  fun_induction Pending.push c pending operand generalizing level before tokens with
  | case1 operand =>
    cases h
    exact .cons .nil (looserThan_nil _) (hoperand.loosen hc)
  | case2 d left rest operand hle ih =>
    cases h with
    | @cons _ _ _ before lefts hrest hlooser hleft =>
      have hboth := ih hrest hlooser hle (.binary hleft (hloose.right hoperand))
      simpa using hboth
  | case3 d left rest operand hlt =>
    exact .cons h (looserThan_cons.mpr (Nat.not_le.mp hlt)) (hoperand.loosen hc)

end Pending

/-- The tokens of open groups and of what they have put aside. -/
inductive GroupsRead : List OpenGroup → List Token → Prop where
  | nil : GroupsRead [] []
  | cons {group : OpenGroup} {groups : List OpenGroup} {before middle : List Token}
      (hgroups : GroupsRead groups before) (hpending : group.pending.Reads middle) :
      GroupsRead (group :: groups)
        (before ++ (middle ++ (List.replicate group.negations .not ++ [.openParen])))

theorem Derives.negated {tokens : List Token} {φ : Formula} (h : Derives .operand tokens φ) (n : Nat) :
    Derives .operand (List.replicate n .not ++ tokens) (.negated n φ) := by
  induction n with
  | zero => exact h
  | succ n ih => exact .not ih

namespace Progress

/-- The tokens that lead to a state. -/
inductive Reads : Progress → List Token → Prop where
  | awaiting {groups : List OpenGroup} {pending : Pending} {negations : Nat}
      {before middle : List Token} (hgroups : GroupsRead groups before)
      (hpending : pending.Reads middle) :
      Reads (.awaiting groups pending negations)
        (before ++ (middle ++ List.replicate negations .not))
  | ended {groups : List OpenGroup} {pending : Pending} {operand : Formula}
      {before middle tokens : List Token} (hgroups : GroupsRead groups before)
      (hpending : pending.Reads middle) (hoperand : Derives .operand tokens operand) :
      Reads (.ended groups pending operand) (before ++ (middle ++ tokens))

/-- One more lexeme. -/
theorem Reads.step {progress next : Progress} {tokens : List Token} {lexeme : Lexeme}
    (h : progress.Reads tokens) (hstep : progress.step lexeme = .ok next) :
    next.Reads (tokens ++ [lexeme.token]) := by
  obtain ⟨position, token⟩ := lexeme
  cases h with
  | @awaiting groups pending negations before middle hgroups hpending =>
    have hended {φ : Formula} (hφ : Derives .operand [token] φ) :
        Reads (.ended groups pending (.negated negations φ))
          (before ++ (middle ++ List.replicate negations .not) ++ [token]) := by
      simpa using Reads.ended hgroups hpending (hφ.negated negations)
    cases token with
    | constant value =>
      cases hstep
      exact hended (.constant value)
    | atom name =>
      cases hstep
      exact hended (.atom name)
    | not =>
      cases hstep
      have hnext : Reads (.awaiting groups pending (negations + 1)) _ := .awaiting hgroups hpending
      simpa [List.replicate_succ'] using hnext
    | openParen =>
      cases hstep
      have hnext : Reads (.awaiting (⟨position, pending, negations⟩ :: groups) [] 0) _ :=
        .awaiting (.cons hgroups hpending) .nil
      simpa using hnext
    | closeParen | binary => cases hstep
  | @ended groups pending operand before middle tokens hgroups hpending hoperand =>
    have hloose : pending.LooserThan .operand := fun waiting _ => waiting.1.strength_lt
    cases token with
    | binary c =>
      cases hstep
      have hpush := hpending.push hloose (Nat.le_of_lt c.strength_lt) hoperand
      have hnext : Reads (.awaiting groups (pending.push c operand) 0) _ := .awaiting hgroups hpush
      simpa using hnext
    | closeParen =>
      cases hgroups with
      | nil => cases hstep
      | @cons group groups before outer hgroups houter =>
        cases hstep
        have hgroup := (Derives.group (hpending.close hloose hoperand)).negated group.negations
        simpa using Reads.ended hgroups houter hgroup
    | constant | atom | not | openParen => cases hstep

theorem Reads.derives_of_run {progress : Progress} {tokens : List Token} {lexemes : List Lexeme}
    {φ : Formula} (h : progress.Reads tokens) (hrun : progress.run lexemes = .ok φ) :
    Derives (.chain .iff) (tokens ++ lexemes.map Lexeme.token) φ := by
  induction lexemes generalizing progress tokens with
  | nil =>
    rw [List.map_nil, List.append_nil]
    cases h with
    | awaiting => cases hrun
    | ended hgroups hpending hoperand =>
      cases hgroups with
      | nil =>
        cases hrun
        exact hpending.close (fun waiting _ => waiting.1.strength_lt) hoperand
      | cons => cases hrun
  | cons lexeme rest ih =>
    rw [run] at hrun
    cases hstep : progress.step lexeme with
    | error fault =>
      rw [hstep] at hrun
      cases hrun
    | ok next =>
      rw [hstep] at hrun
      have hrest := ih (h.step hstep) hrun
      simpa using hrest

/-- **What is read is a phrase.** -/
theorem derives_of_run {lexemes : List Lexeme} {φ : Formula} (h : start.run lexemes = .ok φ) :
    Derives (.chain .iff) (lexemes.map Lexeme.token) φ := by
  have hstart : start.Reads [] := .awaiting .nil .nil
  exact hstart.derives_of_run h

end Progress

/-! ## Phrases are read -/

namespace Pending

theorem close_append (pending others : Pending) (operand : Formula) :
    close (pending ++ others) operand = others.close (pending.close operand) := List.foldl_append

theorem push_append {c : Connective} {pending others : Pending} {operand : Formula}
    (h : ∀ waiting ∈ pending, c.strength ≤ waiting.1.strength) :
    push c (pending ++ others) operand = push c others (pending.close operand) := by
  induction pending generalizing operand with
  | nil => rfl
  | cons waiting rest ih =>
    obtain ⟨hwaiting, hrest⟩ := List.forall_mem_cons.mp h
    rw [List.cons_append, push, if_pos hwaiting, ih hrest]
    rfl

theorem push_of_looser {c : Connective} {pending : Pending} (h : pending.LooserThan (.chain c))
    (operand : Formula) : push c pending operand = (c, operand) :: pending := by
  cases pending with
  | nil => rfl
  | cons waiting rest =>
    have hlt : ¬ c.strength ≤ waiting.1.strength := Nat.not_le.mpr (looserThan_cons.mp h)
    rw [push, if_neg hlt]

end Pending

namespace Progress

/-- The tokens of a phrase lead from waiting for it to the end of its last operand. What then waits on
top of what waited before binds as tightly as the level of the phrase, and with the last operand it
is the formula of the phrase. -/
def ReadAt (level : Level) (tokens : List Token) (φ : Formula) : Prop :=
  ∀ (groups : List OpenGroup) (pending : Pending) (negations : Nat) (rest : List Token)
    (lexemes : List Lexeme), (level = .operand ∨ negations = 0) → pending.LooserThan level →
    lexemes.map Lexeme.token = tokens ++ rest →
      ∃ (more : Pending) (operand : Formula) (after : List Lexeme), after.map Lexeme.token = rest ∧
        (∀ waiting ∈ more, level.strength ≤ waiting.1.strength) ∧
        more.close operand = .negated negations φ ∧
        (awaiting groups pending negations).run lexemes =
          (ended groups (more ++ pending) operand).run after

/-- **Every phrase is read.** -/
theorem readAt {level : Level} {tokens : List Token} {φ : Formula} (h : Derives level tokens φ) :
    ReadAt level tokens φ := by
  induction h with
  | constant | atom =>
    intro groups pending negations rest lexemes _ _ hlexemes
    obtain ⟨_, after, hafter, hrun⟩ :=
      run_token (awaiting groups pending negations) hlexemes fun _ => rfl
    exact ⟨[], _, after, hafter, by simp, rfl, hrun⟩
  | @not tokens φ h ih =>
    intro groups pending negations rest lexemes _ hloose hlexemes
    obtain ⟨_, middle, hmiddle, hnot⟩ :=
      run_token (awaiting groups pending negations) hlexemes fun _ => rfl
    obtain ⟨more, operand, after, hafter, hmore, hclose, hrun⟩ :=
      ih groups pending (negations + 1) rest middle (.inl rfl) hloose hmiddle
    rw [← Formula.negated_not] at hclose
    exact ⟨more, operand, after, hafter, hmore, hclose, hnot.trans hrun⟩
  | @group tokens φ h ih =>
    intro groups pending negations rest lexemes _ hloose hlexemes
    rw [List.cons_append, List.cons_append, List.append_assoc] at hlexemes
    -- what waits is put aside with the parenthesis
    obtain ⟨position, inner, hinner, hopen⟩ :=
      run_token (awaiting groups pending negations) hlexemes fun _ => rfl
    let group : OpenGroup := ⟨position, pending, negations⟩
    obtain ⟨more, operand, last, hlast, _, hclose, hrun⟩ :=
      ih (group :: groups) [] 0 _ inner (.inr rfl) (Pending.looserThan_nil _) hinner
    rw [List.append_nil] at hrun
    obtain ⟨_, after, hafter, hend⟩ :=
      run_token (ended (group :: groups) more operand) hlast fun _ => rfl
    rw [hclose] at hend
    exact ⟨[], _, after, hafter, by simp, rfl, hopen.trans (hrun.trans hend)⟩
  | @tighter c tokens φ h ih =>
    intro groups pending negations rest lexemes hnegations hloose hlexemes
    have hloose' : pending.LooserThan c.next := by
      intro waiting hwaiting
      rw [Level.strength_next]
      exact Nat.lt_succ_of_lt (hloose waiting hwaiting)
    obtain ⟨more, operand, after, hafter, hmore, hrun⟩ :=
      ih groups pending negations rest lexemes (.inr (hnegations.resolve_left (by simp))) hloose' hlexemes
    refine ⟨more, operand, after, hafter, fun waiting hwaiting => ?_, hrun⟩
    have htight := hmore waiting hwaiting
    rw [Level.strength_next] at htight
    exact Nat.le_of_succ_le htight
  | @binary c left right φ ψ hleft hright ihl ihr =>
    intro groups pending negations rest lexemes hnegations hloose hlexemes
    obtain rfl := hnegations.resolve_left (by simp)
    rw [List.append_assoc, List.cons_append] at hlexemes
    obtain ⟨first, operand, middle, hmiddle, hfirst, hclose, hrun⟩ :=
      ihl groups pending 0 _ lexemes (.inr rfl) hloose hlexemes
    obtain ⟨_, others, hothers, hconnective⟩ :=
      run_token (ended groups (first ++ pending) operand) hmiddle fun _ => rfl
    -- the connective finds its left operand complete
    rw [Pending.push_append hfirst, hclose, Pending.push_of_looser hloose] at hconnective
    have hloose' : Pending.LooserThan ((c, φ) :: pending) c.next := by
      rw [Pending.looserThan_cons, Level.strength_next]
      exact Nat.lt_succ_self _
    obtain ⟨second, last, after, hafter, hsecond, hclose', hrun'⟩ :=
      ihr groups ((c, φ) :: pending) 0 rest others (.inr rfl) hloose' hothers
    refine ⟨second ++ [(c, φ)], last, after, hafter, ?_, ?_, ?_⟩
    · refine List.forall_mem_append.mpr ⟨fun waiting hwaiting => ?_, by simp [Level.strength]⟩
      have htight := hsecond waiting hwaiting
      rw [Level.strength_next] at htight
      exact Nat.le_of_succ_le htight
    · rw [Pending.close_append, hclose']
      rfl
    · rw [List.append_assoc, List.singleton_append]
      exact hrun.trans (hconnective.trans hrun')

theorem run_of_derives {lexemes : List Lexeme} {φ : Formula}
    (h : Derives (.chain .iff) (lexemes.map Lexeme.token) φ) : start.run lexemes = .ok φ := by
  obtain ⟨more, operand, after, hafter, _, hclose, hrun⟩ :=
    readAt h [] [] 0 [] lexemes (.inr rfl) (Pending.looserThan_nil _) (List.append_nil _).symm
  rw [List.map_eq_nil_iff] at hafter
  rw [List.append_nil] at hrun
  rw [start, hrun, hafter]
  show Except.ok (more.close operand) = _
  rw [hclose]
  rfl

end Progress

/-! ## One way to read -/

/-- Tokens stand for one formula at most, at whatever level. -/
theorem Derives.unique {level other : Level} {tokens : List Token} {φ ψ : Formula}
    (h : Derives level tokens φ) (h' : Derives other tokens ψ) : φ = ψ := by
  -- the positions of the tokens do not matter
  let lexemes : List Lexeme := tokens.map (⟨0, ·⟩)
  have htokens : lexemes.map Lexeme.token = tokens := by simp [lexemes, Function.comp_def]
  have hrun {level : Level} {χ : Formula} (hχ : Derives level tokens χ) :
      Progress.start.run lexemes = .ok χ :=
    Progress.run_of_derives (htokens.symm ▸ hχ.loosen level.strength_pos)
  have hboth := (hrun h).symm.trans (hrun h')
  cases hboth
  rfl

/-! ## Rows of operands -/

/-- Operands with connectives in between. -/
inductive Row : List Token → List Connective → Prop where
  | operand {tokens : List Token} {φ : Formula} (h : Derives .operand tokens φ) : Row tokens []
  | more {tokens operand : List Token} {connectives : List Connective} {c : Connective} {φ : Formula}
      (h : Row tokens connectives) (hoperand : Derives .operand operand φ) :
      Row (tokens ++ .binary c :: operand) (connectives ++ [c])

/-- A phrase goes on with a connective of its level and one more operand. -/
theorem Derives.extend {level : Level} {tokens operand : List Token} {φ ψ : Formula} {c : Connective}
    (h : Derives level tokens φ) (hc : level.strength ≤ c.strength)
    (hoperand : Derives .operand operand ψ) :
    ∃ χ, Derives level (tokens ++ .binary c :: operand) χ := by
  have hnext : Derives c.next operand ψ := hoperand.loosen c.next.strength_le
  induction h with
  | constant | atom | not | group => exact absurd c.strength_lt (Nat.not_lt.mpr hc)
  | @tighter d tokens φ h ih =>
    by_cases hsame : d = c
    · subst hsame
      exact ⟨_, .binary (.tighter h) hnext⟩
    · obtain ⟨χ, hχ⟩ := ih (Connective.strength_next_le hc hsame)
      exact ⟨χ, .tighter hχ⟩
  | @binary d left right φ ψ hleft hright _ ih =>
    by_cases hsame : d = c
    · subst hsame
      exact ⟨_, .binary (.binary hleft hright) hnext⟩
    · -- the last connective takes the longer right operand
      obtain ⟨χ, hχ⟩ := ih (Connective.strength_next_le hc hsame)
      refine ⟨.binary d φ χ, ?_⟩
      rw [List.append_assoc, List.cons_append]
      exact .binary hleft hχ

theorem Row.derives {tokens : List Token} {connectives : List Connective} {level : Level}
    (h : Row tokens connectives) (hlevel : ∀ c ∈ connectives, level.strength ≤ c.strength) :
    ∃ φ, Derives level tokens φ := by
  induction h with
  | operand h => exact ⟨_, h.loosen level.strength_le⟩
  | more h hoperand ih =>
    obtain ⟨hconnectives, hlast⟩ := List.forall_mem_append.mp hlevel
    obtain ⟨φ, hφ⟩ := ih hconnectives
    exact hφ.extend (hlast _ (List.mem_singleton_self _)) hoperand

/-- **A row is divided at the last of its loosest connectives.** -/
theorem Row.divide {left right : List Token} {lefts rights : List Connective} {c : Connective}
    {φ ψ : Formula} (hleft : Row left lefts) (hright : Row right rights)
    (hlefts : ∀ d ∈ lefts, c.strength ≤ d.strength) (hrights : ∀ d ∈ rights, c.strength < d.strength)
    (hφ : Derives (.chain .iff) left φ) (hψ : Derives (.chain .iff) right ψ) :
    Derives (.chain .iff) (left ++ .binary c :: right) (.binary c φ ψ) := by
  obtain ⟨φ', hφ'⟩ : ∃ φ', Derives (.chain c) left φ' := hleft.derives hlefts
  obtain ⟨ψ', hψ'⟩ : ∃ ψ', Derives c.next right ψ' := by
    refine hright.derives fun d hd => ?_
    rw [Level.strength_next]
    exact hrights d hd
  rw [hφ.unique hφ', hψ.unique hψ']
  exact (Derives.binary hφ' hψ').loosen (Level.strength_pos _)

/-! ## Phrases inside of phrases -/

/-- Between the tokens `before` and `after` there is a place in a phrase for a phrase of the level
`inner`, which stands for `ψ`. -/
inductive Place (inner : Level) (ψ : Formula) : Level → List Token → List Token → Formula → Prop where
  | here : Place inner ψ inner [] [] ψ
  | not {before after : List Token} {φ : Formula} (h : Place inner ψ .operand before after φ) :
      Place inner ψ .operand (.not :: before) after (.not φ)
  | group {before after : List Token} {φ : Formula} (h : Place inner ψ (.chain .iff) before after φ) :
      Place inner ψ .operand (.openParen :: before) (after ++ [.closeParen]) φ
  | tighter {c : Connective} {before after : List Token} {φ : Formula}
      (h : Place inner ψ c.next before after φ) : Place inner ψ (.chain c) before after φ
  | left {c : Connective} {before after right : List Token} {φ χ : Formula}
      (h : Place inner ψ (.chain c) before after φ) (hright : Derives c.next right χ) :
      Place inner ψ (.chain c) before (after ++ .binary c :: right) (.binary c φ χ)
  | right {c : Connective} {before after left : List Token} {φ χ : Formula}
      (hleft : Derives (.chain c) left χ) (h : Place inner ψ c.next before after φ) :
      Place inner ψ (.chain c) (left ++ .binary c :: before) after (.binary c χ φ)

theorem Place.derives {inner level : Level} {before part after : List Token} {φ ψ : Formula}
    (h : Place inner ψ level before after φ) (hpart : Derives inner part ψ) :
    Derives level (before ++ part ++ after) φ := by
  induction h with
  | here => simpa using hpart
  | not h ih => exact .not ih
  | group h ih => simpa using Derives.group ih
  | tighter h ih => exact .tighter ih
  | left h hright ih => simpa using Derives.binary ih hright
  | right hleft h ih => simpa using Derives.binary hleft ih

/-- Parentheses around a phrase make an operand of it, which may stand where the phrase did. -/
theorem Place.derives_group {inner level : Level} {before part after : List Token} {φ ψ : Formula}
    (h : Place inner ψ level before after φ) (hpart : Derives inner part ψ) :
    Derives level (before ++ (.openParen :: part ++ [.closeParen]) ++ after) φ :=
  h.derives ((Derives.group (hpart.loosen inner.strength_pos)).loosen inner.strength_le)

/-! ## Texts -/

namespace Formula

theorem ofString_eq_ok_iff {text : String} {φ : Formula} :
    ofString text = .ok φ ↔
      ∃ tokens, SplitsInto text.toList tokens ∧ Derives (.chain .iff) tokens φ := by
  rw [ofString, parse_eq_ok_iff]
  constructor
  · rintro ⟨lexemes, hlexemes, hrun⟩
    exact ⟨_, splitsInto_iff.mpr ⟨lexemes, hlexemes, rfl⟩, Progress.derives_of_run hrun⟩
  · rintro ⟨tokens, hsplits, hderives⟩
    obtain ⟨lexemes, hlexemes, rfl⟩ := splitsInto_iff.mp hsplits
    exact ⟨lexemes, hlexemes, Progress.run_of_derives hderives⟩

/-- **Exactly the phrases of the grammar are read, and as what they stand for.**

* A text is read as a formula exactly if it splits into tokens that are a phrase for the formula.
* Tokens are a phrase for one formula at most.
* In a row of operands and connectives the last of the loosest connectives comes to stand on top, and
  what is on either side of it is read by itself.
* Texts that split into the same tokens are read as the same formula: other spellings and blanks make
  no difference.
* Parentheses around any phrase inside of a phrase make no difference either. -/
theorem parse_iff_grammar :
    (∀ text φ, ofString text = .ok φ ↔
      ∃ tokens, SplitsInto text.toList tokens ∧ Derives (.chain .iff) tokens φ) ∧
    (∀ tokens φ ψ, Derives (.chain .iff) tokens φ → Derives (.chain .iff) tokens ψ → φ = ψ) ∧
    (∀ left right lefts rights c φ ψ, Row left lefts → Row right rights →
      (∀ d ∈ lefts, c.strength ≤ d.strength) → (∀ d ∈ rights, c.strength < d.strength) →
      Derives (.chain .iff) left φ → Derives (.chain .iff) right ψ →
        ∀ text : String, SplitsInto text.toList (left ++ .binary c :: right) →
          ofString text = .ok (.binary c φ ψ)) ∧
    (∀ (text other : String) tokens, SplitsInto text.toList tokens →
      SplitsInto other.toList tokens → ∀ φ, ofString text = .ok φ ↔ ofString other = .ok φ) ∧
    ∀ inner before part after φ ψ, Place inner ψ (.chain .iff) before after φ →
      Derives inner part ψ → ∀ plain grouped : String,
        SplitsInto plain.toList (before ++ part ++ after) →
        SplitsInto grouped.toList (before ++ (.openParen :: part ++ [.closeParen]) ++ after) →
          ofString plain = .ok φ ∧ ofString grouped = .ok φ := by
  refine ⟨fun text φ => ofString_eq_ok_iff, fun tokens φ ψ h h' => h.unique h', ?_, ?_, ?_⟩
  · intro left right lefts rights c φ ψ hleft hright hlefts hrights hφ hψ text hsplits
    exact ofString_eq_ok_iff.mpr ⟨_, hsplits, hleft.divide hright hlefts hrights hφ hψ⟩
  · intro text other tokens htext hother φ
    have hsame (s : String) (hs : SplitsInto s.toList tokens) :
        ofString s = .ok φ ↔ Derives (.chain .iff) tokens φ := by
      rw [ofString_eq_ok_iff]
      constructor
      · rintro ⟨others, hothers, hderives⟩
        rwa [hs.unique hothers]
      · exact fun hderives => ⟨tokens, hs, hderives⟩
    rw [hsame text htext, hsame other hother]
  · intro inner before part after φ ψ hplace hpart plain grouped hplain hgrouped
    exact ⟨ofString_eq_ok_iff.mpr ⟨_, hplain, hplace.derives hpart⟩,
      ofString_eq_ok_iff.mpr ⟨_, hgrouped, hplace.derives_group hpart⟩⟩

/-- A row of two arrows, and a phrase in parentheses that are not needed, with other spellings and
blanks. -/
theorem parse_iff_grammar_of_arrows :
    ofString "¬p & q -> r -> s" =
        .ok (.binary .implies
          (.binary .implies (.binary .and (.not (.atom "p")) (.atom "q")) (.atom "r")) (.atom "s")) ∧
      ofString " !p∧q=>r  → s" = ofString "¬p & q -> r -> s" ∧
      ofString "(~p /\\ q) -> r" = ofString "¬p & q -> r" := by
  obtain ⟨_, _, hrow, hsame, hgroup⟩ := parse_iff_grammar
  have hp : Derives .operand [.not, .atom "p"] (.not (.atom "p")) := .not (.atom "p")
  have hatom (name : String) {level : Level} : Derives level [.atom name] (.atom name) :=
    (Derives.atom name).loosen level.strength_le
  have hand : Derives (.chain .and) [.not, .atom "p", .binary .and, .atom "q"]
      (.binary .and (.not (.atom "p")) (.atom "q")) := (hp.loosen (by decide)).binary (hatom "q")
  have hfirst : Derives (.chain .implies)
      [.not, .atom "p", .binary .and, .atom "q", .binary .implies, .atom "r"]
      (.binary .implies (.binary .and (.not (.atom "p")) (.atom "q")) (.atom "r")) :=
    (hand.loosen (by decide)).binary (hatom "r")
  have hleft : Row [.not, .atom "p", .binary .and, .atom "q", .binary .implies, .atom "r"]
      [.and, .implies] := .more (.more (.operand hp) (hatom "q")) (hatom "r")
  have harrows := hrow _ _ _ _ .implies _ _ hleft (.operand (hatom "s")) (by decide) (by decide)
    (hfirst.loosen (by decide)) (hatom "s") "¬p & q -> r -> s" (by decide +kernel)
  have htokens : SplitsInto "¬p & q -> r -> s".toList [.not, .atom "p", .binary .and, .atom "q",
      .binary .implies, .atom "r", .binary .implies, .atom "s"] := by decide +kernel
  have hplace : Place (.chain .and) (.binary .and (.not (.atom "p")) (.atom "q")) (.chain .implies) []
      ([] ++ .binary .implies :: [.atom "r"])
      (.binary .implies (.binary .and (.not (.atom "p")) (.atom "q")) (.atom "r")) :=
    .left (.tighter (.tighter .here)) (hatom "r")
  obtain ⟨hplain, hgrouped⟩ := hgroup _ _ _ _ _ _ hplace.tighter hand "¬p & q -> r" "(~p /\\ q) -> r"
    (by decide +kernel) (by decide +kernel)
  refine ⟨harrows, ?_, hgrouped.trans hplain.symm⟩
  rw [harrows]
  exact (hsame "¬p & q -> r -> s" " !p∧q=>r  → s" _ htokens (by decide +kernel) _).mp harrows

end Formula

end BeliefRevision
