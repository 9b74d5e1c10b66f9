import BeliefRevision.CommandLine
import BeliefRevision.Proofs.BeliefLines
import BeliefRevision.Proofs.Names

/-!
# Lines that are printed

Formulas that were read have no newline in their texts, and neither have clauses, numbers and the
wording of errors. So what a run writes as one line is one line of its output, too. Only an option that
is unknown is repeated as it stands, and may come to several lines.

* `OneLine` — texts without a newline
* `OneLine.clauseText`, `Formula.oneLine_atomText` — the clauses of a formula that was read
* `IsComment` — lines that begin with `c`
* `Report.printed` — the lines of the output
* `Transcript` — comments and answers
-/

namespace BeliefRevision

/-- The names in the formula can be read. -/
def Formula.IsReadable (φ : Formula) : Prop := ∀ name ∈ φ.names, IsAtomName name

theorem Formula.isReadable_of_parse {text : List Char} {φ : Formula}
    (h : Formula.parse text = .ok φ) : φ.IsReadable := by
  have hread : Formula.ofString (String.ofList text) = .ok φ := by
    rw [Formula.ofString, String.toList_ofList]
    exact h
  exact Formula.isAtomName_of_ofString hread

/-- The text is printed on one line. -/
def OneLine (text : String) : Prop := '\n' ∉ text.toList

instance : DecidablePred OneLine := fun text => inferInstanceAs (Decidable ('\n' ∉ text.toList))

namespace OneLine

@[simp] theorem append_iff {text more : String} :
    OneLine (text ++ more) ↔ OneLine text ∧ OneLine more := by
  simp [OneLine, not_or]

@[simp] theorem repr (n : Nat) : OneLine n.repr := by
  intro hmem
  exact absurd (Text.isDigit_of_mem_repr hmem) (by decide)

@[simp] theorem quoted (text : String) : OneLine (Text.quoted text) := Text.newline_not_mem_quoted text

theorem display {φ : Formula} (hφ : φ.IsReadable) : OneLine φ.display :=
  Formula.newline_not_mem_display hφ

theorem intercalate {separator : String} {texts : List String} (hseparator : OneLine separator)
    (htexts : ∀ text ∈ texts, OneLine text) : OneLine (separator.intercalate texts) := by
  unfold OneLine
  rw [String.toList_intercalate]
  induction texts with
  | nil => exact List.not_mem_nil
  | cons text rest ih =>
    obtain ⟨htext, hrest⟩ := List.forall_mem_cons.mp htexts
    cases rest with
    | nil =>
      have hsingle : separator.toList.intercalate [text.toList] = text.toList := by
        simp [List.intercalate]
      rw [List.map_singleton, hsingle]
      exact htext
    | cons next rest =>
      have hmore := ih hrest
      simp only [List.map_cons, List.intercalate, List.intersperse, List.flatten_cons,
        List.mem_append, not_or] at hmore ⊢
      exact ⟨htext, hseparator, hmore⟩

/-! ## Wordings -/

@[simp] theorem message (error : Error) : OneLine error.message := by
  cases error with
  | malformedLine line | malformedPriority line =>
    unfold Error.message
    simp
    decide
  | _ => decide

@[simp] theorem parseMessage (fault : ParseError) : OneLine fault.message := by
  cases fault with
  | empty | unexpectedEnd => decide
  | unexpectedToken position | unbalancedParenthesis position | invalidCharacter position =>
    unfold ParseError.message
    simp
    decide

/-! ## Clauses -/

theorem clauseText {v : Vocabulary} {clause : Clause}
    (h : ∀ l ∈ clause, OneLine (v.atomText l.atom)) : OneLine (v.clauseText clause) := by
  unfold Vocabulary.clauseText
  split
  · decide
  · refine intercalate (by decide) (List.forall_mem_map.mpr fun l hl => ?_)
    unfold Vocabulary.literalText
    split
    · exact h l hl
    · exact append_iff.mpr ⟨by decide, h l hl⟩

end OneLine

theorem IsAtomName.oneLine {name : String} (h : IsAtomName name) : OneLine name := by
  intro hmem
  exact absurd (Token.isWordChar_of_isWord h.word _ hmem) (by decide)

/-- The atoms in the clauses of a formula are written as names of the formula. -/
theorem Formula.oneLine_atomText {φ : Formula} {limit : Nat} {v w : Vocabulary}
    {clauses : ClauseSet} (h : φ.clauses limit v = (.ok clauses, w)) (hφ : φ.IsReadable)
    {clause : Clause} (hclause : clause ∈ clauses) : OneLine (w.clauseText clause) := by
  obtain ⟨hw, _, rfl⟩ := clauses_eq_ok_iff.mp h
  refine OneLine.clauseText fun l hl => ?_
  obtain ⟨name, hname, hatom⟩ := NormalForm.clauseSet_atoms hclause l hl
  have hmem : name ∈ w.names := hw ▸ Vocabulary.mem_internAll.mpr (.inr hname)
  rw [Vocabulary.atomText, hatom, Vocabulary.name?_number hmem]
  exact (hφ name (mem_names_conversionForm.mp hname)).oneLine

/-! ## Kinds of lines -/

/-- The line begins with the character. -/
def beginsWith (c : Char) (line : String) : Bool := line.toList.head? == some c

/-- A comment on one line. -/
def IsComment (line : String) : Prop := OneLine line ∧ line.toList.head? = some 'c'

instance : DecidablePred IsComment := fun _ => inferInstanceAs (Decidable (_ ∧ _))

theorem IsComment.append {line more : String} (h : IsComment line) (hmore : OneLine more) :
    IsComment (line ++ more) := by
  refine ⟨OneLine.append_iff.mpr ⟨h.1, hmore⟩, ?_⟩
  rw [String.toList_append, List.head?_append, h.2, Option.some_or]

theorem IsComment.beginsWith {line : String} (h : IsComment line) (c : Char) :
    beginsWith c line = ('c' == c) := by
  rw [BeliefRevision.beginsWith, h.2]
  rfl

namespace CommandLine

/-- The lines of the output that a text comes to, which is cut at every newline. -/
def cut (text : String) : List String := (text.toList.splitOn '\n').map String.ofList

/-- The lines of the output. -/
def Report.printed (report : Report) : List String := report.lines.flatMap cut

theorem cut_of_oneLine {line : String} (h : OneLine line) : cut line = [line] := by
  rw [cut, List.splitOn, List.splitOnP_eq_singleton]
  · simp
  · intro c hc
    simpa using ne_of_mem_of_not_mem hc h

theorem flatMap_cut_of_oneLine {lines : List String} (h : ∀ line ∈ lines, OneLine line) :
    lines.flatMap cut = lines := by
  induction lines with
  | nil => rfl
  | cons line rest ih =>
    obtain ⟨hline, hrest⟩ := List.forall_mem_cons.mp h
    rw [List.flatMap_cons, cut_of_oneLine hline, ih hrest, List.singleton_append]

/-! ## Comments and answers -/

/-- The line that answers whether something is entailed. -/
def answerLine (entailed : Bool) : String := if entailed then "s Entailed" else "s Not entailed"

/-- Lines that are comments, but for the answers. -/
inductive Transcript : List String → List Bool → Prop where
  | nil : Transcript [] []
  | comment {lines : List String} {answers : List Bool} {line : String}
      (h : Transcript lines answers) (hline : IsComment line) : Transcript (lines ++ [line]) answers
  | answer {lines : List String} {answers : List Bool} (h : Transcript lines answers)
      (entailed : Bool) : Transcript (lines ++ [answerLine entailed]) (answers ++ [entailed])

namespace Transcript

variable {lines : List String} {answers : List Bool}

theorem comments (h : Transcript lines answers) {more : List String}
    (hmore : ∀ line ∈ more, IsComment line) : Transcript (lines ++ more) answers := by
  induction more generalizing lines with
  | nil => rwa [List.append_nil]
  | cons line rest ih =>
    obtain ⟨hline, hrest⟩ := List.forall_mem_cons.mp hmore
    rw [List.append_cons]
    exact ih (h.comment hline) hrest

theorem oneLine (h : Transcript lines answers) : ∀ line ∈ lines, OneLine line := by
  induction h with
  | nil => exact List.forall_mem_nil _
  | comment _ hline ih =>
    exact List.forall_mem_append.mpr ⟨ih, List.forall_mem_singleton.mpr hline.1⟩
  | answer _ entailed ih =>
    refine List.forall_mem_append.mpr ⟨ih, List.forall_mem_singleton.mpr ?_⟩
    cases entailed with
    | true | false => decide

/-- The answers are where lines begin with `s`. -/
theorem filter_answers (h : Transcript lines answers) :
    lines.filter (beginsWith 's') = answers.map answerLine := by
  induction h with
  | nil => rfl
  | comment _ hline ih => rw [List.filter_append, ih, List.filter_singleton, hline.beginsWith]; simp
  | answer _ entailed ih =>
    rw [List.filter_append, ih, List.map_append]
    cases entailed with
    | true | false => rfl

/-- No line begins with `b`. -/
theorem filter_beliefs (h : Transcript lines answers) : lines.filter (beginsWith 'b') = [] := by
  induction h with
  | nil => rfl
  | comment _ hline ih => rw [List.filter_append, ih, List.filter_singleton, hline.beginsWith]; simp
  | answer _ entailed ih =>
    rw [List.filter_append, ih]
    cases entailed with
    | true | false => rfl

/-- Without answers there are comments only. -/
theorem isComment (h : Transcript lines []) : ∀ line ∈ lines, IsComment line := by
  generalize hnone : ([] : List Bool) = answers at h
  induction h with
  | nil => exact List.forall_mem_nil _
  | comment _ hline ih =>
    exact List.forall_mem_append.mpr ⟨ih hnone, List.forall_mem_singleton.mpr hline⟩
  | answer => simp at hnone

/-- A transcript is printed as it is, whatever comes behind it. -/
theorem printed (h : Transcript lines answers) (more : List String) (code : UInt32) :
    (Report.mk (lines ++ more) code).printed = lines ++ more.flatMap cut := by
  rw [Report.printed, List.flatMap_append, flatMap_cut_of_oneLine h.oneLine]

end Transcript

end CommandLine

end BeliefRevision
