/-!
# Settings

A base is governed by four settings. Each has a name and bounds, and a value is only accepted within
the bounds.
-/

namespace BeliefRevision

/-- What can be set: its name, and the least and the greatest value that it admits. -/
structure Parameter (α : Type) where
  name : String
  least : α
  greatest : α

namespace Parameter

/-- The value lies within the bounds. -/
def Admits {α : Type} [LE α] (p : Parameter α) (value : α) : Prop :=
  p.least ≤ value ∧ value ≤ p.greatest

instance {α : Type} [LE α] [DecidableLE α] (p : Parameter α) (value : α) :
    Decidable (p.Admits value) :=
  inferInstanceAs (Decidable (_ ∧ _))

/-- The priority of a belief that comes without one. Priorities are positive 32-bit numbers. -/
def defaultPriority : Parameter Nat := ⟨"default_priority", 1, 0xFFFFFFFF⟩

/-- The largest number of clauses held in a conversion or a saturation, a positive 64-bit number. -/
def clauseLimit : Parameter Nat := ⟨"clause_limit", 1, 0xFFFFFFFFFFFFFFFF⟩

/-- The largest number of beliefs whose subsets are looked through. -/
def contractionLimit : Parameter Nat := ⟨"contraction_limit", 0, 63⟩

/-- Whether tautologies are left out before a saturation. -/
def tautologyElimination : Parameter Bool := ⟨"tautology_elimination", false, true⟩

end Parameter

/-- A value that a parameter admits. -/
structure Setting {α : Type} [LE α] (p : Parameter α) where
  value : α
  admitted : p.Admits value

namespace Setting

variable {α : Type} [LE α] {p : Parameter α}

@[ext] theorem ext {s t : Setting p} (h : s.value = t.value) : s = t := by
  cases s; cases t; simp_all

/-- The setting with the given value, if the parameter admits it. -/
def ofValue? [DecidableLE α] (value : α) : Option (Setting p) :=
  if h : p.Admits value then some ⟨value, h⟩ else none

theorem value_of_ofValue? [DecidableLE α] {value : α} {s : Setting p}
    (h : ofValue? value = some s) : s.value = value := by
  unfold ofValue? at h
  split at h
  · cases h; rfl
  · cases h

end Setting

/-- The settings of a base. -/
structure Settings where
  defaultPriority : Setting Parameter.defaultPriority := ⟨1, by decide⟩
  clauseLimit : Setting Parameter.clauseLimit := ⟨100000, by decide⟩
  contractionLimit : Setting Parameter.contractionLimit := ⟨20, by decide⟩
  tautologyElimination : Setting Parameter.tautologyElimination := ⟨true, by decide⟩

namespace Settings

/-- One change of the settings. -/
inductive Change where
  | defaultPriority (value : Nat)
  | clauseLimit (value : Nat)
  | contractionLimit (value : Nat)
  | tautologyElimination (value : Bool)

/-- The settings after a change, if its value is admitted. -/
def change? (settings : Settings) : Change → Option Settings
  | .defaultPriority value =>
    (Setting.ofValue? value).map fun s => { settings with defaultPriority := s }
  | .clauseLimit value =>
    (Setting.ofValue? value).map fun s => { settings with clauseLimit := s }
  | .contractionLimit value =>
    (Setting.ofValue? value).map fun s => { settings with contractionLimit := s }
  | .tautologyElimination value =>
    (Setting.ofValue? value).map fun s => { settings with tautologyElimination := s }

end Settings

end BeliefRevision
