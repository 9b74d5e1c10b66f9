import BeliefRevision.Proofs.Simulation

/-!
# The command line implements the machine

What is printed by a run that gets to its end is what the reference machine answers and what it believes
in the end. A run that does not get there prints no beliefs, and none of the answers unless it has come
to the queries. For the lines of the output it matters that they are cut at newlines: an option that is
unknown is repeated as it stands, and if it has newlines, it looks like several lines.

* `Reports.printed`, `printed_of_refused`, `printed_of_limited` — the output, by how the run ends
* `run_refines_machine` — what the exit codes tell
-/

namespace BeliefRevision.CommandLine

/-! ## What is printed -/

theorem beginsWith_beliefLine (c : Char) (belief : Formula × Nat) :
    beginsWith c (beliefLine belief) = ('b' == c) := by
  have hline : beliefLine belief = "b " ++ belief.2.repr ++ " " ++ belief.1.display := rfl
  simp [hline, beginsWith]

theorem oneLine_beliefLine {belief : Formula × Nat} (h : belief.1.IsReadable) :
    OneLine (beliefLine belief) := by
  have hline : OneLine ("b " ++ belief.2.repr ++ " " ++ belief.1.display) := by
    simp only [OneLine.append_iff, OneLine.repr, OneLine.display h, and_true]
    decide
  exact hline

theorem Reports.printed {program : List Instruction} {lines : List String}
    (h : Reports program lines) (code : UInt32) :
    ∃ answers final, Beliefs.empty.Runs program answers final ∧
      (Report.mk lines code).printed.filter (beginsWith 's') = answers.map answerLine ∧
      (Report.mk lines code).printed.filter (beginsWith 'b') = final.list.map beliefLine := by
  obtain ⟨answers, final, log, hruns, hreadable, htranscript, rfl⟩ := h
  have honeLine : ∀ line ∈ final.list.map beliefLine, OneLine line := by
    rw [List.forall_mem_map]
    exact fun belief hbelief => oneLine_beliefLine (hreadable _ (List.mem_map_of_mem hbelief))
  refine ⟨answers, final, hruns, ?_, ?_⟩
  · rw [htranscript.printed, flatMap_cut_of_oneLine honeLine, List.filter_append,
      htranscript.filter_answers]
    simp [Function.comp_def, beginsWith_beliefLine, List.filter_map]
  · rw [htranscript.printed, flatMap_cut_of_oneLine honeLine, List.filter_append,
      htranscript.filter_beliefs, List.nil_append]
    simp [Function.comp_def, beginsWith_beliefLine, List.filter_map]

theorem StopsAtLimit.oneLine {query : Query} {failure : Failure} (h : StopsAtLimit query failure) :
    OneLine failure.message := by
  obtain ⟨error, rfl, _⟩ := h
  cases query with
  | entails | contract | revise =>
    exact OneLine.append_iff.mpr ⟨by decide, OneLine.message error⟩

/-- A run that is refused writes comments, but it repeats an unknown option as it stands. -/
theorem printed_of_refused {options : List String} {failure : Failure} {lines : List String}
    (hmessage : OneLine failure.message ∨ ∃ option ∈ options, failure = .unknownOption option)
    (htranscript : Transcript lines []) (code : UInt32) :
    let report : Report := ⟨lines ++ ["c " ++ failure.message], code⟩
    (∀ line ∈ report.printed, IsComment line) ∨
      ∃ option ∈ options, '\n' ∈ option.toList ∧ ∃ comments, (∀ line ∈ comments, IsComment line) ∧
        report.printed = comments ++ cut s!"c Unknown option: {option}" := by
  intro report
  have hprinted : report.printed = lines ++ cut ("c " ++ failure.message) := by
    rw [htranscript.printed, List.flatMap_singleton]
  rw [hprinted]
  by_cases honeLine : OneLine failure.message
  · have hcomment : IsComment ("c " ++ failure.message) := IsComment.append (by decide) honeLine
    refine .inl (List.forall_mem_append.mpr ⟨htranscript.isComment, ?_⟩)
    rw [cut_of_oneLine hcomment.1]
    exact List.forall_mem_singleton.mpr hcomment
  · obtain ⟨option, hoption, rfl⟩ := hmessage.resolve_left honeLine
    have hnewline : ¬ OneLine option :=
      fun h => honeLine (OneLine.append_iff.mpr ⟨by decide, h⟩)
    have hline : "c " ++ ("Unknown option: " ++ option) = "c Unknown option: " ++ option := by
      rw [← String.append_assoc]
      rfl
    refine .inr ⟨option, hoption, Classical.not_not.mp hnewline, lines, htranscript.isComment, ?_⟩
    exact congrArg (lines ++ cut ·) hline

/-- A run that was stopped by a limit writes no beliefs. -/
theorem printed_of_limited {query : Query} {failure : Failure} {lines : List String}
    {answers : List Bool} (hlimit : StopsAtLimit query failure) (htranscript : Transcript lines answers)
    (code : UInt32) :
    (Report.mk (lines ++ ["c " ++ failure.message]) code).printed.filter (beginsWith 'b') = [] := by
  have hcomment : IsComment ("c " ++ failure.message) := IsComment.append (by decide) hlimit.oneLine
  rw [htranscript.printed, List.flatMap_singleton, cut_of_oneLine hcomment.1, List.filter_append,
    htranscript.filter_beliefs, List.nil_append, List.filter_singleton, hcomment.beginsWith]
  rfl

/-- **The command line implements the reference machine.** With exit code 0 the last argument is the path
of a file, and there is one outcome of the program that the options and the file come to: its answers
are the lines that begin with `s`, and its beliefs are the lines that begin with `b`. With exit code 1
all lines are comments, or they end with an unknown option that has a newline. With exit code 2 a query
has run into a limit, and there are no lines that begin with `b`. -/
theorem run_refines_machine (arguments : List String) (file : Option (List UInt8)) :
    let report : Report := run arguments file
    (report.exitCode = 0 → ∃ options path bytes program answers final,
        arguments = options ++ [path] ∧ file = some bytes ∧
        program? options bytes = some program ∧
        (∀ others other, Beliefs.empty.Runs program others other ↔
          others = answers ∧ other = final) ∧
        report.printed.filter (beginsWith 's') = answers.map answerLine ∧
        report.printed.filter (beginsWith 'b') = final.list.map beliefLine) ∧
      (report.exitCode = 1 → (∀ line ∈ report.printed, IsComment line) ∨
        ∃ option ∈ arguments.dropLast, '\n' ∈ option.toList ∧
          ∃ comments, (∀ line ∈ comments, IsComment line) ∧
            report.printed = comments ++ cut s!"c Unknown option: {option}") ∧
      (report.exitCode = 2 → report.printed.filter (beginsWith 'b') = [] ∧
        ∃ query ∈ arguments.dropLast.filterMap asked?, ∃ error progress,
          process arguments file {} = (.error (.queryFailed query error), progress) ∧
          error.IsLimit) := by
  intro report
  have hensures := ensures_process arguments file
  have hreport : report = run arguments file := rfl
  unfold Ensures at hensures
  unfold run at hreport
  rcases hprocess : process arguments file {} with ⟨failure | _, after⟩
  · rw [hprocess] at hensures hreport
    dsimp only at hensures hreport
    cases hensures with
    | refused hcode hmessage htranscript =>
      have hrefused := printed_of_refused hmessage htranscript failure.exitCode
      rw [hreport]
      dsimp only
      rw [hcode] at *
      exact ⟨by simp, fun _ => hrefused, by simp⟩
    | @limited query answers hquery hlimit htranscript =>
      have hprinted := printed_of_limited hlimit htranscript failure.exitCode
      obtain ⟨error, rfl, herror⟩ := hlimit
      rw [hreport]
      refine ⟨by simp [Failure.exitCode], by simp [Failure.exitCode], fun _ => ⟨hprinted, ?_⟩⟩
      exact ⟨query, hquery, error, after, rfl, herror⟩
  · rw [hprocess] at hensures hreport
    dsimp only at hensures hreport
    obtain ⟨options, path, bytes, program, harguments, hfile, hprogram, hreports⟩ := hensures
    obtain ⟨answers, final, hruns, hanswers, hbeliefs⟩ := hreports.printed 0
    rw [hreport]
    refine ⟨fun _ => ?_, by simp, by simp⟩
    refine ⟨options, path, bytes, program, answers, final, harguments, hfile, hprogram, ?_, hanswers,
      hbeliefs⟩
    intro others other
    constructor
    · exact fun h => h.unique hruns
    · rintro ⟨rfl, rfl⟩
      exact hruns

/-- Two questions with a revision between them, which gives up a belief that came with the priority of
the options. -/
theorem run_refines_machine_of_revision :
    let p : Formula := .atom "p"
    let q : Formula := .atom "q"
    let options := ["--default_priority=3", "--entails=p", "--revise=~p", "--entails=p"]
    let file := Text.encode "2 q\n\n# comment\np & q\n"
    let report : Report := run (options ++ ["beliefs.txt"]) (some file)
    let program : List Instruction := [.expand q 2, .expand (.binary .and p q) 3, .entails p,
      .revise (.not p) 3, .entails p]
    report.exitCode = 0 ∧ program? options file = some program ∧
      ∃ answers final, Beliefs.empty.Runs program answers final ∧
        answers.map answerLine = ["s Entailed", "s Not entailed"] ∧
        final.list.map beliefLine = ["b 2 q", "b 3 ¬p"] := by
  intro p q options file report program
  have hcode : report.exitCode = 0 := by decide +kernel
  have hprogram : program? options file = some program := by decide +kernel
  have hanswers : report.printed.filter (beginsWith 's') = ["s Entailed", "s Not entailed"] := by
    decide +kernel
  have hbeliefs : report.printed.filter (beginsWith 'b') = ["b 2 q", "b 3 ¬p"] := by decide +kernel
  obtain ⟨others, path, bytes, program', answers, final, harguments, hfile, hprogram', hruns, hlines,
    hlines'⟩ := (run_refines_machine (options ++ ["beliefs.txt"]) (some file)).1 hcode
  obtain ⟨rfl, _⟩ := List.append_inj' harguments rfl
  cases hfile
  obtain rfl : program' = program := Option.some.inj (hprogram'.symm.trans hprogram)
  exact ⟨hcode, hprogram, answers, final, (hruns answers final).mpr ⟨rfl, rfl⟩,
    hlines.symm.trans hanswers, hlines'.symm.trans hbeliefs⟩

/-- An option that nobody knows, of two lines, the second of which looks like an answer. -/
theorem answer_line_of_unknown_option :
    let report : Report := run ["--x\ns Entailed", "beliefs.txt"] (some (Text.encode "p\n"))
    report.exitCode = 1 ∧ report.printed.filter (beginsWith 's') = ["s Entailed"] := by
  decide +kernel

end BeliefRevision.CommandLine
