import BeliefRevision.Proofs.Parts
import BeliefRevision.Proofs.PrintedLines

/-!
# Options

What the arguments ask for can be said of each by itself: an option is its name and an equals sign in
front of a value, so the first equals sign is the one that counts. Reading the options comes to the same,
unless one of them is refused, and writes comments only.

* `asked?`, `priorityGiven` — the queries and the default priority that are asked for
* `valueOf?_eq` — an argument is split at its first equals sign
* `ensures_readOptions` — reading the options
-/

namespace BeliefRevision.CommandLine

/-! ## What is asked for -/

/-- The value of the option in the argument, which is behind the name of the option and an equals
sign. -/
def valueOf? (option argument : String) : Option (List Char) :=
  argument.toList.dropPrefix? (option.toList ++ ['='])

/-- The formula given to the option. -/
def formulaOf? (option argument : String) : Option Formula :=
  (valueOf? option argument).bind fun text => (Formula.parse text).toOption

/-- The query that an argument asks for. -/
def asked? (argument : String) : Option Query :=
  (formulaOf? "--entails" argument).map Query.entails <|>
    (formulaOf? "--contract" argument).map Query.contract <|>
    (formulaOf? "--revise" argument).map Query.revise

/-- The default priority that an argument gives. -/
def priority? (argument : String) : Option Nat :=
  (valueOf? "--default_priority" argument).bind Text.signedDecimal?

/-- The default priority, which is the last one that is given. -/
def priorityGiven (options : List String) : Nat := (options.filterMap priority?).getLast?.getD 1

theorem priorityGiven_append (options : List String) (argument : String) :
    priorityGiven (options ++ [argument]) = (priority? argument).getD (priorityGiven options) := by
  unfold priorityGiven
  rw [List.filterMap_append, List.filterMap_cons, List.filterMap_nil]
  cases priority? argument with
  | none => simp
  | some number => simp

/-! ## Splitting arguments -/

theorem splitOption_of_value {argument : String} {name value : List Char} (h : '=' ∉ name)
    (hargument : argument.toList = name ++ '=' :: value) :
    splitOption argument = (String.ofList name, some value) := by
  have hname : (name ++ '=' :: value).takeWhile (· ≠ '=') = name := by
    rw [List.takeWhile_append_of_pos fun c hc => by simpa using ne_of_mem_of_not_mem hc h]
    simp
  unfold splitOption
  dsimp only
  rw [hargument, hname, List.drop_left]

theorem value_of_splitOption {argument name : String} {value : List Char}
    (h : splitOption argument = (name, some value)) :
    argument.toList = name.toList ++ '=' :: value := by
  unfold splitOption at h
  dsimp only at h
  have hwhole := List.takeWhile_append_dropWhile (p := (· ≠ '=')) (l := argument.toList)
  have hhead := List.head?_dropWhile_not (· ≠ '=') argument.toList
  generalize argument.toList.takeWhile (· ≠ '=') = front at *
  generalize argument.toList.dropWhile (· ≠ '=') = back at *
  rw [← hwhole, List.drop_left] at h
  cases back with
  | nil => cases h
  | cons c rest =>
    cases h
    rw [← hwhole, String.toList_ofList]
    simpa using hhead

/-- The first equals sign is the one behind the name. -/
theorem valueOf?_eq {option : String} (h : '=' ∉ option.toList) (argument : String) :
    valueOf? option argument =
      if (splitOption argument).1 = option then (splitOption argument).2 else none := by
  rcases hsplit : splitOption argument with ⟨name, value⟩
  rw [valueOf?]
  refine Option.ext fun text => ?_
  rw [List.dropPrefix?_eq_some_iff]
  constructor
  · rintro ⟨front, hargument, hfront⟩
    rw [beq_iff_eq] at hfront
    rw [hfront, List.append_assoc] at hargument
    have hsame := splitOption_of_value h hargument
    rw [hsplit, String.ofList_toList] at hsame
    cases hsame
    exact if_pos rfl
  · intro hvalue
    split at hvalue
    · next hname =>
      subst hname hvalue
      refine ⟨_, ?_, beq_self_eq_true _⟩
      rw [value_of_splitOption hsplit, List.append_assoc]
      rfl
    · cases hvalue

/-! ## Reading options -/

/-- The formula of a query. -/
def Query.formula : Query → Formula
  | .entails φ | .contract φ | .revise φ => φ

theorem isReadable_of_formulaOf? {option argument : String} {φ : Formula}
    (h : formulaOf? option argument = some φ) : φ.IsReadable := by
  obtain ⟨text, _, hparse⟩ := Option.bind_eq_some_iff.mp h
  cases hresult : Formula.parse text with
  | error fault =>
    rw [hresult] at hparse
    cases hparse
  | ok ψ =>
    rw [hresult] at hparse
    cases hparse
    exact Formula.isReadable_of_parse hresult

theorem isReadable_of_asked? {argument : String} {query : Query} (h : asked? argument = some query) :
    query.formula.IsReadable := by
  simp only [asked?, Option.orElse_eq_orElse, Option.orElse_eq_or, Option.or_eq_some_iff, Option.map_eq_some_iff] at h
  rcases h with ⟨φ, hφ, rfl⟩ | ⟨_, ⟨φ, hφ, rfl⟩ | ⟨_, φ, hφ, rfl⟩⟩
  all_goals exact isReadable_of_formulaOf? hφ

/-- An option is refused for a reason that is one line, or because it is unknown. -/
def Refuses (argument : String) (failure : Failure) : Prop :=
  failure.exitCode = 1 ∧ (OneLine failure.message ∨ failure = .unknownOption argument)

theorem ensures_formulaFor {option argument : String} {value : Option (List Char)} {before : Progress}
    (hoption : OneLine option) :
    Ensures (formulaFor option value) before
      (fun φ after => after = before ∧ (value.bind fun text => (Formula.parse text).toOption) = some φ)
      (fun failure after => after = before ∧ Refuses argument failure) := by
  unfold formulaFor
  cases value with
  | none =>
    have hmessage : OneLine (option ++ " requires a formula") :=
      OneLine.append_iff.mpr ⟨hoption, by decide⟩
    rw [Option.map_none]
    dsimp only
    rw [ensures_throw]
    exact ⟨rfl, rfl, .inl hmessage⟩
  | some text =>
    rw [Option.map_some, Option.bind_some]
    cases hparse : Formula.parse text with
    | ok φ => exact ensures_pure.mpr ⟨rfl, rfl⟩
    | error fault =>
      have hmessage : OneLine (option ++ " requires a formula: " ++ fault.message) := by
        simp only [OneLine.append_iff, hoption, OneLine.parseMessage, and_true, true_and]
        decide
      exact ensures_throw.mpr ⟨rfl, rfl, .inl hmessage⟩

section

variable {argument name : String} {value : Option (List Char)}

theorem asked?_eq (h : splitOption argument = (name, value)) :
    asked? argument =
      let formula := value.bind fun text => (Formula.parse text).toOption
      if name = "--entails" then formula.map Query.entails
      else if name = "--contract" then formula.map Query.contract
      else if name = "--revise" then formula.map Query.revise
      else none := by
  have hvalue {option : String} (hoption : '=' ∉ option.toList) :
      valueOf? option argument = if name = option then value else none := by
    rw [valueOf?_eq hoption, h]
  unfold asked? formulaOf?
  rw [hvalue (by decide), hvalue (by decide), hvalue (by decide)]
  by_cases hentails : name = "--entails"
  · subst hentails
    simp
  by_cases hcontract : name = "--contract"
  · subst hcontract
    simp
  by_cases hrevise : name = "--revise"
  · subst hrevise
    simp
  simp [hentails, hcontract, hrevise]

theorem priority?_eq (h : splitOption argument = (name, value)) :
    priority? argument =
      if name = "--default_priority" then value.bind Text.signedDecimal? else none := by
  unfold priority?
  rw [valueOf?_eq (by decide), h]
  split
  · rfl
  · rfl

end

theorem defaultPriority_of_change? {settings changed : Settings} {change : Settings.Change}
    (h : settings.change? change = some changed) :
    changed.defaultPriority.value =
      match change with
      | .defaultPriority value => value
      | _ => settings.defaultPriority.value := by
  cases change with
  | defaultPriority value =>
    obtain ⟨setting, hsetting, rfl⟩ := Option.map_eq_some_iff.mp h
    exact Setting.value_of_ofValue? hsetting
  | clauseLimit value | contractionLimit value | tautologyElimination value =>
    obtain ⟨setting, _, rfl⟩ := Option.map_eq_some_iff.mp h
    rfl

/-- The request is what the options ask for, and only comments were written. -/
structure Asks (options : List String) (request : Request) (progress : Progress) : Prop where
  transcript : Transcript progress.lines []
  queries : request.queries = options.filterMap asked?
  priority : request.settings.defaultPriority.value = priorityGiven options

namespace Asks

variable {options : List String} {request next : Request} {before after : Progress}
  {argument : String}

theorem start : Asks [] {} {} := ⟨.nil, rfl, rfl⟩

theorem append (h : Asks options request before) (htranscript : Transcript after.lines [])
    (hqueries : next.queries = request.queries ++ (asked? argument).toList)
    (hpriority : next.settings.defaultPriority.value =
      (priority? argument).getD request.settings.defaultPriority.value) :
    Asks (options ++ [argument]) next after := by
  refine ⟨htranscript, ?_, ?_⟩
  · rw [hqueries, h.queries, List.filterMap_append, List.filterMap_cons, List.filterMap_nil]
    cases asked? argument with
    | none | some query => rfl
  · rw [hpriority, h.priority, priorityGiven_append]

end Asks

/-! ## Reading them -/

section

variable {options : List String} {request : Request} {before : Progress} {argument : String}
  {value : Option (List Char)}

/-- An option with a formula. -/
theorem Asks.ensures_query (h : Asks options request before) {option : String} {query : Formula → Query}
    (hoption : OneLine option)
    (hasked : asked? argument = (value.bind fun text => (Formula.parse text).toOption).map query)
    (hpriority : priority? argument = none) :
    Ensures (do return request.ask (query (← formulaFor option value))) before
      (Asks (options ++ [argument])) (fun failure after => after = before ∧ Refuses argument failure) := by
  refine ensures_bind ((ensures_formulaFor hoption).mono ?_ fun _ _ => id)
  rintro φ after ⟨rfl, hφ⟩
  rw [hφ] at hasked
  refine ensures_pure.mpr (h.append h.transcript ?_ ?_)
  · rw [hasked]
    rfl
  · rw [hpriority]
    rfl

/-- An option with a number. -/
theorem Asks.ensures_number (h : Asks options request before) {parameter : Parameter Nat}
    {change : Nat → Settings.Change} (hname : OneLine parameter.name)
    (hasked : asked? argument = none)
    (hpriority : ∀ number settings, value.bind Text.signedDecimal? = some number →
      request.settings.change? (change number) = some settings →
      settings.defaultPriority.value =
        (priority? argument).getD request.settings.defaultPriority.value) :
    Ensures (setNumber request parameter change value) before (Asks (options ++ [argument]))
      (fun failure after => after = before ∧ Refuses argument failure) := by
  have hmessage : OneLine (Failure.valueRequired parameter).message := by
    have htext : OneLine (parameter.name ++ " requires a value between " ++ parameter.least.repr ++
        " and " ++ parameter.greatest.repr) := by
      simp only [OneLine.append_iff, hname, OneLine.repr, and_true, true_and]
      decide
    exact htext
  unfold setNumber
  cases hnumber : value.bind Text.signedDecimal? with
  | none => exact ensures_throw.mpr ⟨rfl, rfl, .inl hmessage⟩
  | some number =>
    dsimp only
    cases hsettings : request.settings.change? (change number) with
    | none => exact ensures_throw.mpr ⟨rfl, rfl, .inl hmessage⟩
    | some settings =>
      refine ensures_bind (ensures_write.mpr (ensures_pure.mpr ?_))
      have hcomment : IsComment ("c " ++ parameter.name ++ " set to: " ++ number.repr) := by
        refine ((IsComment.append ?_ hname).append ?_).append (OneLine.repr number)
        · decide
        · decide
      refine h.append (h.transcript.comment hcomment) ?_ (hpriority number settings hnumber hsettings)
      rw [hasked]
      exact (List.append_nil _).symm

/-- **One option does what can be said of it alone.** -/
theorem ensures_readOption (h : Asks options request before) :
    Ensures (readOption request argument) before (Asks (options ++ [argument]))
      (fun failure after => after = before ∧ Refuses argument failure) := by
  unfold readOption
  rcases hsplit : splitOption argument with ⟨name, value⟩
  have hasked := asked?_eq hsplit
  have hpriority := priority?_eq hsplit
  dsimp only
  split
  · refine ensures_bind (ensures_write.mpr (ensures_pure.mpr ?_))
    exact h.append (h.transcript.comment (by decide)) (by simp [hasked]) (by simp [hpriority])
  · exact h.ensures_query (by decide) (by simp [hasked]) (by simp [hpriority])
  · exact h.ensures_query (by decide) (by simp [hasked]) (by simp [hpriority])
  · exact h.ensures_query (by decide) (by simp [hasked]) (by simp [hpriority])
  · refine h.ensures_number (by decide) (by simp [hasked]) fun number settings _ hsettings => ?_
    simp [hpriority, defaultPriority_of_change? hsettings]
  · refine h.ensures_number (by decide) (by simp [hasked]) fun number settings _ hsettings => ?_
    simp [hpriority, defaultPriority_of_change? hsettings]
  · refine h.ensures_number (by decide) (by simp [hasked]) fun number settings hnumber hsettings => ?_
    simp [hpriority, hnumber, defaultPriority_of_change? hsettings]
  · refine ensures_bind (ensures_write.mpr (ensures_pure.mpr ?_))
    refine h.append (h.transcript.comment (by decide)) (by simp [hasked]) ?_
    rw [hpriority, if_neg (by decide)]
    rfl
  · exact ensures_throw.mpr ⟨rfl, rfl, .inr rfl⟩

end

/-- **Reading options.** They are refused because of one of them, or what they ask for is gathered. -/
theorem ensures_readOptions (options : List String) :
    Ensures (options.foldlM readOption {}) {} (Asks options)
      (fun failure after => Transcript after.lines [] ∧ ∃ option ∈ options, Refuses option failure) := by
  refine ensures_foldlM Asks (fun seen argument request before hmem h => ?_) Asks.start
  refine (ensures_readOption h).mono (fun _ _ => id) ?_
  rintro failure after ⟨rfl, hrefuses⟩
  exact ⟨h.transcript, argument, hmem, hrefuses⟩

end BeliefRevision.CommandLine
