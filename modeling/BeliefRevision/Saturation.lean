import BeliefRevision.Clause.Resolution
import BeliefRevision.Clause.Set
import BeliefRevision.Error

/-!
# Saturation

Clauses are resolved with each other until nothing new comes up or the empty clause does. In the
first case the clauses are satisfiable, in the second they are not.

## How it works

The work goes in passes. A pass resolves every clause that was added by the pass before with every
clause listed earlier, so no pair is resolved twice. A resolvent that is new, and no tautology, is
*known* at once but *listed* only when the pass ends. A pass that stops early, at the empty clause or
at the limit on clauses, lists none of what it found, and what it found stays known.

## Termination

A finished pass that found something has room for it under the limit, so the room for further
clauses decreases from pass to pass.
-/

namespace BeliefRevision

/-- Whether some assignment makes all clauses true. -/
inductive Verdict where
  | satisfiable
  | unsatisfiable
deriving DecidableEq

/-! ## What a pass finds -/

/-- Why a pass stops before its end. -/
inductive Halt where
  /-- The empty clause was derived. -/
  | refuted
  /-- There is no room for another clause. -/
  | full
deriving DecidableEq

/-- What a pass has found so far. -/
structure Harvest where
  /-- All clauses seen, listed or not. -/
  known : ClauseSet
  /-- The clauses found in this pass, the last one first. -/
  fresh : List Clause
  /-- How many more clauses may be found. -/
  room : Nat

namespace Harvest

/-- Takes in resolvents, one after the other. -/
def absorb : List Clause → Harvest → Option Halt × Harvest
  | [], harvest => (none, harvest)
  | resolvent :: rest, ⟨known, fresh, room⟩ =>
    if resolvent.isEmpty then (some .refuted, ⟨known, fresh, room⟩)
    else if Clause.isTautology resolvent || known.contains resolvent then
      absorb rest ⟨known, fresh, room⟩
    else
      match room with
      | 0 => (some .full, ⟨known.insert resolvent, fresh, 0⟩)
      | room + 1 => absorb rest ⟨known.insert resolvent, resolvent :: fresh, room⟩

/-- Resolves each of the `added` clauses with every clause listed before it. -/
def pass : (listed added : List Clause) → Harvest → Option Halt × Harvest
  | _, [], harvest => (none, harvest)
  | listed, clause :: added, harvest =>
    match harvest.absorb (listed.flatMap (·.resolvents clause)) with
    | (none, harvest) => pass (listed ++ [clause]) added harvest
    | (some halt, harvest) => (some halt, harvest)

/-- Each clause found takes up room for one. -/
theorem absorb_room (resolvents : List Clause) (harvest : Harvest) :
    (absorb resolvents harvest).2.fresh.length + (absorb resolvents harvest).2.room
      = harvest.fresh.length + harvest.room := by
  fun_induction absorb resolvents harvest with
  | case1 => rfl
  | case2 => rfl
  | case3 rest known fresh room resolvent hempty hknown ih => exact ih
  | case4 => rfl
  | case5 rest known fresh resolvent hempty hknown room ih =>
    simp only [List.length_cons] at ih ⊢; omega

theorem pass_room (listed added : List Clause) (harvest : Harvest) :
    (pass listed added harvest).2.fresh.length + (pass listed added harvest).2.room
      = harvest.fresh.length + harvest.room := by
  fun_induction pass listed added harvest with
  | case1 => rfl
  | case2 listed clause added harvest found h ih =>
    have hroom := absorb_room (listed.flatMap (Clause.resolvents · clause)) harvest
    rw [h] at hroom
    exact ih.trans hroom
  | case3 listed clause added harvest halt found h =>
    have hroom := absorb_room (listed.flatMap (Clause.resolvents · clause)) harvest
    rw [h] at hroom
    exact hroom

end Harvest

/-! ## Saturating a list of clauses -/

/-- A list of clauses in the course of its saturation. -/
structure Saturation where
  /-- The clauses given and derived, in order of addition. -/
  clauses : List Clause
  /-- All clauses seen, listed or not. -/
  known : ClauseSet
  /-- Whether the empty clause was given. -/
  containsEmpty : Bool
  /-- The largest number of clauses that may be listed. -/
  clauseLimit : Nat
  /-- The number of passes begun. -/
  passes : Nat
  /-- The number of clauses derived and listed. -/
  resolvents : Nat

namespace Saturation

/-- The first occurrences of the clauses that are kept, behind `found` (the last one first), and the
set of all of them. -/
def collect (keep : Clause → Bool) (known : ClauseSet) (found : List Clause) :
    List Clause → List Clause × ClauseSet
  | [] => (found.reverse, known)
  | clause :: rest =>
    if keep clause && !known.contains clause then
      collect keep (known.insert clause) (clause :: found) rest
    else collect keep known found rest

/-- The saturation of the given clauses, before the first pass. -/
def start (clauseLimit : Nat) (eliminateTautologies : Bool) (given : List Clause) : Saturation :=
  let kept := collect (fun clause => !(eliminateTautologies && clause.isTautology)) ∅ [] given
  { clauses := kept.1
    known := kept.2
    containsEmpty := given.any List.isEmpty
    clauseLimit
    passes := 0
    resolvents := 0 }

/-- Makes passes until nothing new is found, where the clauses `listed` have been resolved with each
other and the clauses `added` behind them have not. -/
def makePasses (s : Saturation) (listed added : List Clause) :
    Except Error Verdict × Saturation :=
  match _h : Harvest.pass listed added ⟨s.known, [], s.clauseLimit - (listed ++ added).length⟩ with
  | (some .refuted, found) =>
    (.ok .unsatisfiable, { s with known := found.known, passes := s.passes + 1 })
  | (some .full, found) =>
    (.error .saturationLimit, { s with known := found.known, passes := s.passes + 1 })
  | (none, ⟨known, [], _⟩) => (.ok .satisfiable, { s with known, passes := s.passes + 1 })
  | (none, ⟨known, last :: others, _⟩) =>
    let fresh := (last :: others).reverse
    makePasses
      { s with
        clauses := listed ++ added ++ fresh
        known
        passes := s.passes + 1
        resolvents := s.resolvents + fresh.length }
      (listed ++ added) fresh
termination_by s.clauseLimit - (listed ++ added).length
decreasing_by
  have hroom := Harvest.pass_room listed added ⟨s.known, [], s.clauseLimit - (listed ++ added).length⟩
  rw [_h] at hroom
  simp only [List.length_cons, List.length_nil, List.length_append, List.length_reverse] at hroom ⊢
  omega

/-- Saturates the clauses, or stops when they are seen to be unsatisfiable or too many. -/
def saturate (s : Saturation) : Except Error Verdict × Saturation :=
  if s.containsEmpty then (.ok .unsatisfiable, s)
  else if s.clauseLimit < s.clauses.length then (.error .saturationLimit, s)
  else s.makePasses [] s.clauses

end Saturation

/-- Whether no assignment makes all the given clauses true. -/
def isUnsatisfiable (clauseLimit : Nat) (eliminateTautologies : Bool) (given : List Clause) :
    Except Error Bool :=
  match (Saturation.start clauseLimit eliminateTautologies given).saturate.1 with
  | .ok verdict => .ok (verdict == .unsatisfiable)
  | .error error => .error error

end BeliefRevision
