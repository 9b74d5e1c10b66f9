import BeliefRevision.Base.Basic
import BeliefRevision.Base.Event
import BeliefRevision.Conversion

/-!
# Operations on a base

An operation acts on a base and sends events. It may fail; what it did to the base before and the
events it sent stay.
-/

namespace BeliefRevision

/-- A base, and the events sent so far, the first one first. -/
structure Session where
  base : Base := {}
  events : List Event := []

/-- A computation on a session that may fail. -/
abbrev Operation := ExceptT Error (StateM Session)

namespace Operation

/-- The outcome of an operation on a session, and the session afterwards. -/
def perform {α : Type} (operation : Operation α) (session : Session) : Except Error α × Session :=
  operation session

/-- The base as it is. -/
def base : Operation Base := fun session => (.ok session.base, session)

/-- Changes the base. -/
def modifyBase (change : Base → Base) : Operation Unit :=
  fun session => (.ok (), { session with base := change session.base })

/-- Counts work. -/
def modifyTally (change : Tally → Tally) : Operation Unit :=
  modifyBase fun base => { base with tally := change base.tally }

/-- Sends an event. -/
def emit (event : Event) : Operation Unit :=
  fun session => (.ok (), { session with events := session.events ++ [event] })

/-- Sends the passes and resolvents counted since `before`. -/
def emitWork (before : Tally) : Operation Unit := do
  let after := (← base).tally
  emit (.passes (after.passes - before.passes))
  emit (.resolvents (after.resolvents - before.resolvents))

/-- Converts with the vocabulary of the base. -/
def convert {α : Type} (conversion : Conversion α) : Operation α := fun session =>
  let (result, vocabulary) := conversion session.base.vocabulary
  (result, { session with base := { session.base with vocabulary } })

/-- The clauses of a formula in the vocabulary of the base, which learns the names of the formula. -/
def clausesOf (φ : Formula) : Operation ClauseSet := do
  convert (φ.clauses (← base).settings.clauseLimit.value)

/-- Changes a setting; the answer is whether the value was admitted. -/
def configure (change : Settings.Change) : Operation Bool := do
  match (← base).settings.change? change with
  | some settings =>
    modifyBase fun base => { base with settings }
    pure true
  | none => pure false

end Operation

end BeliefRevision
