import BeliefRevision.Clause.Basic

/-!
# Vocabularies

A vocabulary numbers the names of atoms in the order in which they were first met. A name keeps its
number: names are only added, at the end, and none is there twice. The numbers are not bounded, so
there is always room for one more name.
-/

namespace BeliefRevision

/-- The names met so far; the number of an atom is the position of its name. -/
structure Vocabulary where
  names : List String
  nodup : names.Nodup

namespace Vocabulary

/-- The vocabulary without names. -/
def empty : Vocabulary := ⟨[], .nil⟩

instance : Inhabited Vocabulary := ⟨empty⟩

@[ext] theorem ext {v w : Vocabulary} (h : v.names = w.names) : v = w := by
  cases v; cases w; simp_all

/-- The number of names. -/
def size (v : Vocabulary) : Nat := v.names.length

/-- The atom of a name. -/
def atom? (v : Vocabulary) (name : String) : Option Nat := v.names.idxOf? name

/-- The name of an atom. -/
def name? (v : Vocabulary) (atom : Nat) : Option String := v.names[atom]?

/-- The vocabulary with a new name at the end. -/
def add (v : Vocabulary) (name : String) (h : name ∉ v.names) : Vocabulary where
  names := v.names ++ [name]
  nodup := List.nodup_append.mpr ⟨v.nodup, by simp, by
    intro a ha b hb
    rw [List.mem_singleton] at hb
    exact fun hab => h (hb ▸ hab ▸ ha)⟩

/-- The atom of a name, which is added if it was not met before. -/
def intern (v : Vocabulary) (name : String) : Nat × Vocabulary :=
  match h : v.atom? name with
  | some atom => (atom, v)
  | none => (v.size, v.add name (List.idxOf?_eq_none_iff.mp h))

/-- The vocabulary with all names of a list interned in order. -/
def internAll (v : Vocabulary) (names : List String) : Vocabulary :=
  names.foldl (fun v name => (v.intern name).2) v

/-! ## Texts -/

/-- The name of an atom, or its number behind `#` if it has none. -/
def atomText (v : Vocabulary) (atom : Nat) : String := (v.name? atom).getD s!"#{atom}"

/-- A literal by name. -/
def literalText (v : Vocabulary) (literal : Literal) : String :=
  if literal.polarity then v.atomText literal.atom else "¬" ++ v.atomText literal.atom

/-- A clause by names; the empty clause is `⊥`. -/
def clauseText (v : Vocabulary) (clause : Clause) : String :=
  if clause.isEmpty then "⊥" else " ∨ ".intercalate (clause.map v.literalText)

end Vocabulary

end BeliefRevision
