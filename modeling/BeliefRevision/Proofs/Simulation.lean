import BeliefRevision.Proofs.LimitErrors
import BeliefRevision.Proofs.Programs

/-!
# Runs go with the machine

A run of the command line is followed by the reference machine: after each part the base has the beliefs
of the machine, and what was written are comments and the answers of the machine. A part that fails
leaves it at that.

* `Follows` — the machine has come as far as the run
* `ensures_readFile`, `ensures_queries` — the parts
* `ensures_process` — the whole
-/

namespace BeliefRevision.CommandLine

/-- The machine has carried out a program: the base has its beliefs, and the lines have its answers. -/
structure Follows (default : Nat) (program : List Instruction) (answers : List Bool)
    (beliefs : Beliefs) (progress : Progress) : Prop where
  reachable : progress.session.Reachable
  default : progress.session.base.settings.defaultPriority.value = default
  represents : progress.session.Represents beliefs
  runs : Beliefs.empty.Runs program answers beliefs
  readable : beliefs.IsReadable
  transcript : Transcript progress.lines answers

namespace Follows

variable {default : Nat} {program : List Instruction} {answers : List Bool} {beliefs : Beliefs}
  {before : Progress}

theorem readable_formulas (h : Follows default program answers beliefs before) :
    ∀ φ ∈ before.session.base.formulas, φ.IsReadable := by
  rw [h.represents.formulas]
  exact h.readable

theorem comments (h : Follows default program answers beliefs before) {more : List String}
    (hmore : ∀ line ∈ more, IsComment line) :
    Follows default program answers beliefs { before with lines := before.lines ++ more } :=
  { h with transcript := h.transcript.comments hmore }

/-- An operation leads on to reachable sessions and keeps the default priority. -/
theorem perform (h : Follows default program answers beliefs before) (action : Action) {α : Type}
    {operation : Operation α} (haction : action.operation = Operation.forget operation)
    (hproceeds : Operation.Proceeds operation) {outcome : Except Error α} {t : Session}
    (hrun : operation.perform before.session = (outcome, t)) :
    t.Reachable ∧ t.base.settings.defaultPriority.value = default :=
  ⟨h.reachable.perform action haction hrun, (hproceeds.steps hrun).settings ▸ h.default⟩

/-- One instruction more. -/
theorem execute (h : Follows default program answers beliefs before) {instruction : Instruction}
    {more : List Bool} {next : Beliefs} (hexecutes : beliefs.Executes instruction more next)
    (hreadable : instruction.formula.IsReadable) {t : Session}
    (ht : t.Reachable ∧ t.base.settings.defaultPriority.value = default)
    (hrepresents : t.Represents next) {lines : List String}
    (htranscript : Transcript lines (answers ++ more)) :
    Follows default (program ++ [instruction]) (answers ++ more) next ⟨lines, t⟩ where
  reachable := ht.1
  default := ht.2
  represents := hrepresents
  runs := by
    have hruns := h.runs.append (.cons hexecutes (.nil next))
    rwa [List.append_nil] at hruns
  readable := hexecutes.readable h.readable hreadable
  transcript := htranscript

/-- Learning names from a conversion changes nothing that the machine knows of. -/
theorem clausesOf (h : Follows default program answers beliefs before) {φ : Formula}
    {outcome : Except Error ClauseSet} {t : Session}
    (hrun : (Operation.clausesOf φ).perform before.session = (outcome, t)) :
    Follows default program answers beliefs { before with session := t } := by
  obtain ⟨hreachable, hdefault⟩ :=
    h.perform (.clausesOf φ) rfl (Operation.proceeds_clausesOf φ) hrun
  have hrepresents : t.Represents beliefs := by
    cases hrun
    exact h.represents
  exact { h with reachable := hreachable, default := hdefault, represents := hrepresents }

/-- A file that is read. -/
theorem readBeliefs (h : Follows default [] [] .empty before) {file : List UInt8}
    {summary : FileSummary} {t : Session}
    (hrun : (Operation.readBeliefs file).perform before.session = (.ok summary, t)) :
    ∃ program beliefs, fileProgram? default file = some program ∧
      Follows default program [] beliefs { before with session := t } := by
  obtain ⟨program, beliefs, hprogram, hreadable, hruns, hrepresents⟩ :=
    h.represents.readBeliefs h.default hrun
  obtain ⟨hreachable, hdefault⟩ :=
    h.perform (.readBeliefs file) rfl (Operation.proceeds_readBeliefs file) hrun
  exact ⟨program, beliefs, hprogram, hreachable, hdefault, hrepresents, hruns,
    hruns.readable h.readable hreadable, h.transcript⟩

end Follows

/-! ## Comments -/

theorem isComment_of_contract {φ : Formula} {s t : Session} {outcome : Contraction}
    (hrun : Operation.contract φ s = (.ok outcome, t)) (hφ : φ.IsReadable)
    (hformulas : ∀ ψ ∈ s.base.formulas, ψ.IsReadable) :
    ∀ line ∈ contractionLines φ outcome, IsComment line := by
  have hdisplay := OneLine.display hφ
  cases Operation.contract_run hrun with
  | notEntailed | tautology =>
    refine List.forall_mem_singleton.mpr ?_
    exact IsComment.append (IsComment.append (by decide) hdisplay) (by decide)
  | contracted =>
    refine List.forall_mem_cons.mpr ⟨?_, ?_⟩
    · exact IsComment.append (IsComment.append (IsComment.append (IsComment.append (by decide)
        hdisplay) (by decide)) (OneLine.repr _)) (by decide)
    · rw [List.forall_mem_map, List.forall_mem_map]
      intro entry hentry
      have hmem := List.mem_map_of_mem (f := Entry.formula) (mem_of_mem_entriesAt hentry)
      exact IsComment.append (by decide) (OneLine.display (hformulas _ hmem))

theorem oneLine_of_clausesOf {φ : Formula} {s t : Session} {clauses : ClauseSet}
    (hrun : (Operation.clausesOf φ).perform s = (.ok clauses, t)) (hφ : φ.IsReadable)
    {clause : Clause} (hclause : clause ∈ clauses) :
    OneLine (t.base.vocabulary.clauseText clause) := by
  rw [Operation.perform, Operation.clausesOf_run] at hrun
  obtain ⟨hclauses, rfl⟩ := Prod.mk.inj hrun
  exact Formula.oneLine_atomText (Prod.ext hclauses rfl) hφ hclause

theorem isComment_expansionLine {φ : Formula} (hφ : φ.IsReadable) (expansion : Expansion) :
    IsComment (expansionLine φ expansion) := by
  have hdisplay := OneLine.display hφ
  cases expansion with
  | added => exact IsComment.append (by decide) hdisplay
  | duplicate => exact IsComment.append (IsComment.append (by decide) hdisplay) (by decide)

/-! ## Queries -/

/-- The failure is that the query ran into a limit. -/
def StopsAtLimit (query : Query) (failure : Failure) : Prop :=
  ∃ error, failure = .queryFailed query error ∧ error.IsLimit

section

variable {default : Nat} {program : List Instruction} {answers : List Bool} {beliefs : Beliefs}
  {before : Progress} {query : Query}

theorem ensures_answer (h : Follows default program answers beliefs before)
    (hreadable : query.formula.IsReadable) :
    Ensures (answer query) before
      (fun _ after => ∃ more next,
        Follows default (program ++ [query.instruction default]) (answers ++ more) next after)
      (fun failure after => StopsAtLimit query failure ∧ Transcript after.lines answers) := by
  unfold answer
  cases query with
  | entails φ =>
    refine ensures_bind (ensures_perform (fun entailed t hrun => ?_) fun error t hrun => ?_)
    · have hexecutes := h.represents.entails h.reachable (congrArg Prod.fst hrun)
      have ht := h.perform (.entails φ) rfl (Operation.proceeds_entails φ) hrun
      refine ensures_write.mpr ⟨[entailed], beliefs, h.execute hexecutes hreadable ht ?_ ?_⟩
      · rw [Session.Represents, (Operation.entails_run hrun).1]
        exact h.represents
      · exact h.transcript.answer entailed
    · exact ⟨⟨error, rfl, Operation.limited_entails φ _ error t hrun⟩, h.transcript⟩
  | contract φ =>
    refine ensures_bind (ensures_perform (fun outcome t hrun => ?_) fun error t hrun => ?_)
    · obtain ⟨next, hcontracted, hnext⟩ := h.represents.contract h.reachable hrun
      have ht := h.perform (.contract φ) rfl (Operation.proceeds_contract φ) hrun
      refine ensures_writeAll.mpr ⟨[], next, h.execute (.contract hcontracted) hreadable ht hnext ?_⟩
      rw [List.append_nil]
      exact h.transcript.comments (isComment_of_contract hrun hreadable h.readable_formulas)
    · exact ⟨⟨error, rfl, Operation.limited_contract φ _ error t hrun⟩, h.transcript⟩
  | revise φ =>
    obtain rfl := h.default
    refine ensures_bind (ensures_perform (fun outcome t hrun => ?_) fun error t hrun => ?_)
    · obtain ⟨next, hcontracted, hnext⟩ := h.represents.revise h.reachable hrun
      obtain ⟨u, v, hcontract, _, _⟩ := Operation.revise_eq_ok hrun
      have hcomments := isComment_of_contract hcontract hreadable h.readable_formulas
      have ht := h.perform (.revise φ _) rfl (Operation.proceeds_revise φ _) hrun
      refine ensures_bind (ensures_writeAll.mpr (ensures_write.mpr
        ⟨[], _, h.execute (.revise _ hcontracted) hreadable ht hnext ?_⟩))
      rw [List.append_nil]
      exact (h.transcript.comments hcomments).comment (isComment_expansionLine hreadable _)
    · have hadmitted := before.session.base.settings.defaultPriority.admitted
      exact ⟨⟨error, rfl, Operation.limited_revise φ hadmitted _ error t hrun⟩, h.transcript⟩

/-- **Queries are carried out as the machine does**, up to the first that is given up. -/
theorem ensures_queries (h : Follows default program answers beliefs before) {queries : List Query}
    (hreadable : ∀ query ∈ queries, query.formula.IsReadable) :
    Ensures (queries.forM answer) before
      (fun _ after => ∃ more next,
        Follows default (program ++ queries.map (Query.instruction default)) more next after)
      (fun failure after => ∃ query ∈ queries, StopsAtLimit query failure ∧
        ∃ more, Transcript after.lines more) := by
  rw [forM_eq_foldlM]
  refine ensures_foldlM (fun seen _ after => ∃ more next,
    Follows default (program ++ seen.map (Query.instruction default)) more next after) ?_ ?_
  · rintro seen query _ before hquery ⟨more, next, hfollows⟩
    refine (ensures_answer hfollows (hreadable query hquery)).mono ?_ ?_
    · rintro _ after ⟨_, last, hlast⟩
      rw [List.append_assoc, ← List.map_singleton, ← List.map_append] at hlast
      exact ⟨_, last, hlast⟩
    · rintro failure after ⟨hstops, htranscript⟩
      exact ⟨query, hquery, hstops, _, htranscript⟩
  · rw [List.map_nil, List.append_nil]
    exact ⟨_, _, h⟩

/-! ## Before the queries -/

theorem ensures_writeClauses (h : Follows default program answers beliefs before)
    {formulas : List Formula} (hreadable : ∀ φ ∈ formulas, φ.IsReadable)
    {Bad : Failure → Progress → Prop} :
    Ensures (writeClauses formulas) before
      (fun _ => Follows default program answers beliefs) Bad := by
  induction formulas generalizing before with
  | nil => exact ensures_pure.mpr h
  | cons φ rest ih =>
    obtain ⟨hφ, hrest⟩ := List.forall_mem_cons.mp hreadable
    unfold writeClauses
    refine ensures_bind (ensures_attempt fun outcome t hrun => ?_)
    have hnext := h.clausesOf hrun
    cases outcome with
    | error error =>
      have hcomment : IsComment ("c Conversion error: " ++ error.message) :=
        IsComment.append (by decide) (OneLine.message error)
      refine ensures_bind (ensures_write.mpr ?_)
      exact ih (hnext.comments (List.forall_mem_singleton.mpr hcomment)) hrest
    | ok clauses =>
      refine ensures_bind (ensures_base.mpr (ensures_bind (ensures_write.mpr
        (ensures_bind (ensures_writeAll.mpr (ih ?_ hrest))))))
      have hformula : IsComment ("c " ++ φ.display) := IsComment.append (by decide) (OneLine.display hφ)
      refine (hnext.comments (List.forall_mem_singleton.mpr hformula)).comments ?_
      rw [List.forall_mem_map]
      intro clause hclause
      exact IsComment.append (by decide) (oneLine_of_clausesOf hrun hφ (ClauseSet.mem_toList.mp hclause))

/-- **Reading a file does what its lines say.** -/
theorem ensures_readFile (h : Follows default [] [] .empty before) (path : String)
    (file : Option (List UInt8)) :
    Ensures (readFile path file) before
      (fun _ after => ∃ bytes program beliefs, file = some bytes ∧
        fileProgram? default bytes = some program ∧ Follows default program [] beliefs after)
      (fun failure after => failure.exitCode = 1 ∧ OneLine failure.message ∧
        Transcript after.lines []) := by
  have hpath : IsComment ("c Reading beliefs from " ++ Text.quoted path) :=
    IsComment.append (by decide) (OneLine.quoted path)
  unfold readFile
  refine ensures_bind (ensures_write.mpr ?_)
  cases file with
  | none => exact ensures_throw.mpr ⟨rfl, by decide, h.transcript.comment hpath⟩
  | some bytes =>
    refine ensures_bind (ensures_perform (fun summary t hrun => ?_) fun error t hrun => ?_)
    · obtain ⟨program, beliefs, hprogram, hfollows⟩ :=
        (h.comments (List.forall_mem_singleton.mpr hpath)).readBeliefs hrun
      have hcount {text : String} (htext : IsComment text) (n : Nat) :
          ∀ line ∈ [text ++ n.repr], IsComment line :=
        List.forall_mem_singleton.mpr (htext.append (OneLine.repr n))
      refine ensures_bind (ensures_write.mpr (ensures_bind (ensures_write.mpr (ensures_write.mpr
        ⟨bytes, program, beliefs, rfl, hprogram, ?_⟩))))
      refine ((hfollows.comments ?_).comments ?_).comments ?_
      · exact hcount (by decide) summary.beliefs
      · exact hcount (by decide) summary.added
      · exact hcount (by decide) summary.duplicates
    · refine ⟨rfl, ?_, h.transcript.comment hpath⟩
      have hmessage : OneLine ("Parse error: '" ++ error.message ++ "'.") :=
        OneLine.append_iff.mpr ⟨OneLine.append_iff.mpr ⟨by decide, OneLine.message error⟩, by decide⟩
      exact hmessage

end

/-! ## The whole run -/

/-- The line for a belief that is left. -/
def beliefLine (belief : Formula × Nat) : String := s!"b {belief.2} {belief.1.display}"

/-- The machine has carried out the program, and the lines report on it: its answers among comments, and
behind them the beliefs that are left. -/
def Reports (program : List Instruction) (lines : List String) : Prop :=
  ∃ answers final log, Beliefs.empty.Runs program answers final ∧ final.IsReadable ∧
    Transcript log answers ∧ lines = log ++ final.list.map beliefLine

/-- The end of a run: the queries, and the beliefs that are left. -/
def answerAll (queries : List Query) : Run Unit := do
  queries.forM answer
  Run.write "c Beliefs:"
  Run.writeAll ((← Run.base).entries.map fun entry => s!"b {entry.display}")

theorem ensures_answerAll {default : Nat} {program : List Instruction} {beliefs : Beliefs}
    {before : Progress} (h : Follows default program [] beliefs before) {queries : List Query}
    (hreadable : ∀ query ∈ queries, query.formula.IsReadable) :
    Ensures (answerAll queries) before
      (fun _ after => Reports (program ++ queries.map (Query.instruction default)) after.lines)
      (fun failure after => ∃ query ∈ queries, StopsAtLimit query failure ∧
        ∃ answers, Transcript after.lines answers) := by
  refine ensures_bind ((ensures_queries h hreadable).mono ?_ fun _ _ => id)
  rintro _ after ⟨answers, final, hfollows⟩
  have hlog : Transcript (after.lines ++ ["c Beliefs:"]) answers :=
    hfollows.transcript.comment (by decide)
  refine ensures_bind (ensures_write.mpr (ensures_bind (ensures_base.mpr (ensures_writeAll.mpr
    ⟨answers, final, _, hfollows.runs, hfollows.readable, hlog, ?_⟩))))
  rw [← hfollows.represents, List.map_map]
  rfl

/-- The lines report on what the arguments and the file come to. -/
def Completes (arguments : List String) (file : Option (List UInt8)) (lines : List String) : Prop :=
  ∃ options path bytes program, arguments = options ++ [path] ∧ file = some bytes ∧
    program? options bytes = some program ∧ Reports program lines

/-- What stops a run, and what it has written by then. -/
inductive Stops (options : List String) (after : Progress) (failure : Failure) : Prop where
  /-- The arguments or the file are at fault. -/
  | refused (hcode : failure.exitCode = 1)
      (hmessage : OneLine failure.message ∨ ∃ option ∈ options, failure = .unknownOption option)
      (htranscript : Transcript after.lines [])
  /-- A query ran into a limit. -/
  | limited {query : Query} {answers : List Bool} (hquery : query ∈ options.filterMap asked?)
      (hlimit : StopsAtLimit query failure) (htranscript : Transcript after.lines answers)

theorem Asks.follows {options : List String} {request : Request} {before : Progress}
    (h : Asks options request before) :
    Follows (priorityGiven options) [] [] .empty
      { before with session := { base := { settings := request.settings } } } where
  reachable := .start request.settings
  default := h.priority
  represents := rfl
  runs := .nil _
  readable := List.forall_mem_nil _
  transcript := h.transcript

theorem Asks.readable {options : List String} {request : Request} {before : Progress}
    (h : Asks options request before) : ∀ query ∈ request.queries, query.formula.IsReadable := by
  rw [h.queries]
  intro query hquery
  obtain ⟨argument, _, hasked⟩ := List.mem_filterMap.mp hquery
  exact isReadable_of_asked? hasked

/-- **A run goes with the machine until it stops.** -/
theorem ensures_process (arguments : List String) (file : Option (List UInt8)) :
    Ensures (process arguments file) {} (fun _ after => Completes arguments file after.lines)
      (fun failure after => Stops arguments.dropLast after failure) := by
  unfold process
  refine ensures_bind ((ensures_readOptions arguments.dropLast).mono ?_ ?_)
  · intro request before hasks
    cases hpath : path? arguments with
    | none => exact ensures_throw.mpr (.refused rfl (.inl (by decide)) hasks.transcript)
    | some path =>
      refine ensures_bind (ensures_begin.mpr ?_)
      refine ensures_bind ((ensures_readFile hasks.follows path file).mono ?_ ?_)
      · rintro _ before ⟨bytes, program, beliefs, rfl, hprogram, hfollows⟩
        have hfile : program? arguments.dropLast bytes = some
            (program ++ request.queries.map (Query.instruction (priorityGiven arguments.dropLast))) := by
          rw [program?, hprogram, hasks.queries]
          rfl
        have hend {before : Progress}
            (h : Follows (priorityGiven arguments.dropLast) program [] beliefs before) :
            Ensures (answerAll request.queries) before
              (fun _ after => Completes arguments (some bytes) after.lines)
              (fun failure after => Stops arguments.dropLast after failure) := by
          refine (ensures_answerAll h hasks.readable).mono ?_ ?_
          · intro _ after hreports
            have harguments := (List.dropLast_append_getLast? path hpath).symm
            exact ⟨_, path, bytes, _, harguments, rfl, hfile, hreports⟩
          · rintro failure after ⟨query, hquery, hlimit, answers, htranscript⟩
            exact .limited (hasks.queries ▸ hquery) hlimit htranscript
        split
        · refine ensures_bind (ensures_base.mpr (ensures_bind
            ((ensures_writeClauses hfollows hfollows.readable_formulas).mono ?_ fun _ _ => id)))
          exact fun _ after hafter => hend hafter
        · exact hend hfollows
      · rintro failure after ⟨hcode, hmessage, htranscript⟩
        exact .refused hcode (.inl hmessage) htranscript
  · rintro failure after ⟨htranscript, option, hoption, hcode, hmessage⟩
    refine .refused hcode (hmessage.imp_right ?_) htranscript
    exact fun hunknown => ⟨option, hoption, hunknown⟩

end BeliefRevision.CommandLine
