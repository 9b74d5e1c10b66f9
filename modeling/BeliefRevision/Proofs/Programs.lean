import BeliefRevision.Proofs.Options
import BeliefRevision.Proofs.ReferenceMachine

/-!
# Programs from options and files

What a run of the command line tells the reference machine: to expand by the beliefs of the file, line
by line, and then what the options ask for. A file that is read without an error carries out its part.

* `fileProgram?`, `program?` — the instructions
* `Runs.readable` — formulas that were read are all that is ever believed
* `Represents.readBeliefs` — reading a file does what the machine does
-/

namespace BeliefRevision

/-! ## Formulas that were read -/

/-- The formula of an instruction. -/
def Instruction.formula : Instruction → Formula
  | .expand φ _ | .entails φ | .contract φ | .revise φ _ => φ

namespace Beliefs

/-- The formulas that are believed can be read. -/
def IsReadable (b : Beliefs) : Prop := ∀ φ ∈ b.formulas, φ.IsReadable

variable {b c : Beliefs}

theorem IsReadable.expand (h : b.IsReadable) {φ : Formula} (hφ : φ.IsReadable) (priority : Nat) :
    (b.expand φ priority).IsReadable := by
  unfold Beliefs.expand
  split
  · exact h
  · intro ψ hψ
    rw [formulas, List.map_append] at hψ
    rcases List.mem_append.mp hψ with hold | hnew
    · exact h ψ hold
    · obtain rfl := List.mem_singleton.mp hnew
      exact hφ

theorem IsReadable.contracted (h : b.IsReadable) {φ : Formula} (hc : b.Contracted φ c) :
    c.IsReadable := by
  cases hc with
  | notEntailed | tautology => exact h
  | best _ _ _ hlist =>
    intro ψ hψ
    rw [formulas, hlist, pick] at hψ
    obtain ⟨belief, hbelief, rfl⟩ := List.mem_map.mp hψ
    obtain ⟨position, _, hposition⟩ := List.mem_filterMap.mp hbelief
    exact h _ (List.mem_map_of_mem (List.mem_of_getElem? hposition))

theorem Executes.readable {instruction : Instruction} {answers : List Bool}
    (h : b.Executes instruction answers c) (hb : b.IsReadable)
    (hinstruction : instruction.formula.IsReadable) : c.IsReadable := by
  cases h with
  | expand φ priority => exact hb.expand hinstruction priority
  | entailed | notEntailed => exact hb
  | contract hcontracted => exact hb.contracted hcontracted
  | revise priority hcontracted => exact (hb.contracted hcontracted).expand hinstruction priority

/-- **Nothing else is believed than what the program says.** -/
theorem Runs.readable {program : List Instruction} {answers : List Bool}
    (h : b.Runs program answers c) (hb : b.IsReadable)
    (hprogram : ∀ instruction ∈ program, instruction.formula.IsReadable) : c.IsReadable := by
  induction h with
  | nil => exact hb
  | cons hfirst _ ih =>
    obtain ⟨hinstruction, hrest⟩ := List.forall_mem_cons.mp hprogram
    exact ih (hfirst.readable hb hinstruction) hrest

end Beliefs

/-! ## Files -/

/-- What the machine is told by a line, where `default` is the priority of beliefs without one. -/
def BeliefLine.instructions (default : Nat) : BeliefLine → List Instruction
  | .skipped => []
  | .belief priority φ => [.expand φ (priority.getD default)]

/-- What the machine is told by lines, all of which can be read. The number of a line only matters to
an error. -/
def linesProgram? (default : Nat) (lines : List (List UInt8)) : Option (List Instruction) :=
  (lines.mapM fun line => (BeliefLine.ofBytes 0 line).toOption).map
    (·.flatMap (BeliefLine.instructions default))

/-- What the machine is told by a belief file. -/
def fileProgram? (default : Nat) (file : List UInt8) : Option (List Instruction) :=
  linesProgram? default (Text.lines file)

/-- What a trimmed line says, if it can be read. -/
inductive BeliefLine.Says (text : List Char) : BeliefLine → Prop where
  | skipped (hskipped : text.isEmpty || text.head? == some '#') : Says text .skipped
  | plain {φ : Formula} (hkept : ¬ (text.isEmpty || text.head? == some '#'))
      (hpriority : priority? text = none) (hparse : Formula.parse text = .ok φ) :
      Says text (.belief none φ)
  | prioritized {φ : Formula} {priority : Nat} {rest : List Char}
      (hkept : ¬ (text.isEmpty || text.head? == some '#'))
      (hpriority : priority? text = some (priority, rest))
      (hadmitted : Parameter.defaultPriority.Admits priority) (hparse : Formula.parse rest = .ok φ) :
      Says text (.belief (some priority) φ)

namespace BeliefLine

variable {number : Nat} {content : BeliefLine}

/-- The number of a line does not matter to what it says. -/
theorem ofText_eq_ok_iff {text : List Char} :
    ofText number text = .ok content ↔ Says text content := by
  constructor
  · intro h
    unfold ofText at h
    split at h
    · cases h
      exact .skipped ‹_›
    split at h
    · split at h
      · split at h
        · cases h
          exact .prioritized ‹_› ‹_› ‹_› ‹_›
        · cases h
      · cases h
    · split at h
      · cases h
        exact .plain ‹_› ‹_› ‹_›
      · cases h
  · intro h
    unfold ofText
    cases h with
    | skipped hskipped => rw [if_pos hskipped]
    | plain hkept hpriority hparse =>
      rw [if_neg hkept, hpriority]
      dsimp only
      rw [hparse]
    | prioritized hkept hpriority hadmitted hparse =>
      rw [if_neg hkept, hpriority]
      dsimp only
      rw [if_pos hadmitted, hparse]

theorem ofBytes_eq_ok_iff {bytes : List UInt8} :
    ofBytes number bytes = .ok content ↔
      ∃ text, Text.decode? bytes = some text ∧ Says (Text.trim text) content := by
  unfold ofBytes
  cases Text.decode? bytes with
  | none => simp
  | some text => simp [ofText_eq_ok_iff]

theorem Says.isReadable {text : List Char} {priority : Option Nat} {φ : Formula}
    (h : Says text (.belief priority φ)) : φ.IsReadable := by
  cases h with
  | plain _ _ hparse | prioritized _ _ _ hparse => exact Formula.isReadable_of_parse hparse

end BeliefLine

theorem linesProgram?_cons {default number : Nat} {line : List UInt8} {lines : List (List UInt8)}
    {content : BeliefLine} {rest : List Instruction}
    (hline : BeliefLine.ofBytes number line = .ok content)
    (hrest : linesProgram? default lines = some rest) :
    linesProgram? default (line :: lines) = some (content.instructions default ++ rest) := by
  have hread : BeliefLine.ofBytes 0 line = .ok content :=
    BeliefLine.ofBytes_eq_ok_iff.mpr (BeliefLine.ofBytes_eq_ok_iff.mp hline)
  obtain ⟨contents, hcontents, rfl⟩ := Option.map_eq_some_iff.mp hrest
  rw [linesProgram?, List.mapM_cons, hread, hcontents]
  rfl

namespace Session.Represents

variable {s t : Session} {b : Beliefs}

/-- **Reading lines does what the lines say**, and what they say was read. -/
theorem readLines {default : Nat} (h : s.Represents b)
    (hdefault : s.base.settings.defaultPriority.value = default) {lines : List (List UInt8)}
    {number : Nat} {summary counted : FileSummary}
    (hrun : Operation.readLines number summary lines s = (.ok counted, t)) :
    ∃ program c, linesProgram? default lines = some program ∧
      (∀ instruction ∈ program, instruction.formula.IsReadable) ∧ b.Runs program [] c ∧
      t.Represents c := by
  induction lines generalizing s b number summary with
  | nil =>
    cases hrun
    exact ⟨[], b, rfl, List.forall_mem_nil _, .nil b, h⟩
  | cons line lines ih =>
    unfold Operation.readLines at hrun
    cases hline : BeliefLine.ofBytes number line with
    | error error =>
      rw [hline] at hrun
      cases hrun
    | ok content =>
      rw [hline] at hrun
      cases content with
      | skipped =>
        obtain ⟨program, c, hprogram, hreadable, hruns, ht⟩ := ih h hdefault hrun
        exact ⟨program, c, linesProgram?_cons hline hprogram, hreadable, hruns, ht⟩
      | belief priority φ =>
        have hexpand : ∃ expansion u,
            Operation.expandWith φ (priority.getD default) s = (.ok expansion, u) ∧
            Operation.readLines (number + 1) (summary.count expansion) lines u = (.ok counted, t) := by
          cases priority with
          | some priority => exact Computation.bind_eq_ok hrun
          | none =>
            subst hdefault
            exact Computation.bind_eq_ok hrun
        obtain ⟨expansion, u, hexpand, hrest⟩ := hexpand
        have hsettings : u.base.settings = s.base.settings := by
          have hsteps := Operation.proceeds_expandWith φ (priority.getD default) s
          rw [hexpand] at hsteps
          exact hsteps.settings
        obtain ⟨program, c, hprogram, hreadable, hruns, ht⟩ :=
          ih (h.expandWith hexpand) (hsettings ▸ hdefault) hrest
        obtain ⟨text, _, hmeant⟩ := BeliefLine.ofBytes_eq_ok_iff.mp hline
        exact ⟨_, c, linesProgram?_cons hline hprogram,
          List.forall_mem_cons.mpr ⟨hmeant.isReadable, hreadable⟩, .cons (.expand φ _) hruns, ht⟩

theorem readBeliefs {default : Nat} (h : s.Represents b)
    (hdefault : s.base.settings.defaultPriority.value = default) {file : List UInt8}
    {summary : FileSummary} (hrun : (Operation.readBeliefs file).perform s = (.ok summary, t)) :
    ∃ program c, fileProgram? default file = some program ∧
      (∀ instruction ∈ program, instruction.formula.IsReadable) ∧ b.Runs program [] c ∧
      t.Represents c := by
  obtain ⟨counted, u, hread, hrest⟩ := Computation.bind_eq_ok hrun
  cases hrest
  obtain ⟨program, c, hprogram, hreadable, hruns, hu⟩ := h.readLines hdefault hread
  exact ⟨program, c, hprogram, hreadable, hruns, hu⟩

end Session.Represents

/-! ## Queries -/

/-- What the machine is told by a query, where revisions have the priority `default`. -/
def CommandLine.Query.instruction (default : Nat) : CommandLine.Query → Instruction
  | .entails φ => .entails φ
  | .contract φ => .contract φ
  | .revise φ => .revise φ default

/-- What the machine is told by options and a belief file. -/
def CommandLine.program? (options : List String) (file : List UInt8) : Option (List Instruction) :=
  let default := priorityGiven options
  (fileProgram? default file).map
    (· ++ (options.filterMap asked?).map (Query.instruction default))

end BeliefRevision
