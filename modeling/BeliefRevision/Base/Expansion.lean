import BeliefRevision.Base.Operation

/-!
# Expansion and removal

A formula is added at the end of a base, unless it is believed already, and can be taken out again.
-/

namespace BeliefRevision

/-- The outcome of an expansion. -/
inductive Expansion where
  | added
  | duplicate
deriving DecidableEq

/-- The outcome of a removal. -/
inductive Removal where
  | removed
  | missing
deriving DecidableEq

namespace Operation

/-- Adds a formula with a priority, unless it is believed already, with whatever priority. -/
def expandWith (φ : Formula) (priority : Nat) : Operation Expansion := do
  if Parameter.defaultPriority.Admits priority then
    if (← base).contains φ then
      emit (.duplicate φ)
      pure .duplicate
    else
      let clauses ← clausesOf φ
      modifyBase fun base => { base with entries := base.entries ++ [⟨φ, priority, clauses⟩] }
      emit (.added φ priority)
      pure .added
  else
    throw .invalidPriority

/-- Adds a formula with the default priority. -/
def expand (φ : Formula) : Operation Expansion := do
  expandWith φ (← base).settings.defaultPriority.value

/-- Takes a formula out of the base, if it is believed. -/
def remove (φ : Formula) : Operation Removal := do
  if (← base).contains φ then
    modifyBase fun base => { base with entries := base.entries.eraseP (·.formula == φ) }
    emit (.removed φ)
    pure .removed
  else
    pure .missing

end Operation

end BeliefRevision
