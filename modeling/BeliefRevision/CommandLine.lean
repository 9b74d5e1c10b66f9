import BeliefRevision.Base.Revision
import BeliefRevision.BeliefFile
import BeliefRevision.Text.Quoted

/-!
# The command line

The last argument is the path of a belief file; the arguments before it are options. Options change
settings or ask for queries. The file is read into an empty base, the queries are carried out in the
order given, and the beliefs that are left are written.

Lines of output begin with `c` for comments, `s` for answers and `b` for beliefs. The first failure
ends the run: the exit code is 1 if the arguments or the file are at fault and 2 if a query could not
be answered.
-/

namespace BeliefRevision.CommandLine

/-! ## What is asked for -/

/-- Something to do with the base once it has been read. -/
inductive Query where
  | entails (formula : Formula)
  | contract (formula : Formula)
  | revise (formula : Formula)
deriving DecidableEq

/-- What the options ask for. -/
structure Request where
  settings : Settings := {}
  /-- Whether the clauses of each belief are written. -/
  writeClauses : Bool := false
  /-- The queries in the order given. -/
  queries : List Query := []

/-! ## Failures -/

/-- Why a run ends early. -/
inductive Failure where
  /-- The option needs a formula, and none was given or the one given could not be read. -/
  | formulaRequired (option : String) (fault : Option ParseError)
  /-- The option needs a value that the parameter admits. -/
  | valueRequired (parameter : Parameter Nat)
  | unknownOption (argument : String)
  /-- There are no arguments. -/
  | noPath
  | fileNotOpened
  | fileNotRead (error : Error)
  /-- The query could not be answered. -/
  | queryFailed (query : Query) (error : Error)

namespace Failure

/-- The wording of a failure. -/
def message : Failure → String
  | .formulaRequired option (some fault) => s!"{option} requires a formula: {fault.message}"
  | .formulaRequired option none => s!"{option} requires a formula"
  | .valueRequired parameter =>
    s!"{parameter.name} requires a value between {parameter.least} and {parameter.greatest}"
  | .unknownOption argument => s!"Unknown option: {argument}"
  | .noPath => "Some path to a belief file is required."
  | .fileNotOpened => "Failed to open belief file."
  | .fileNotRead error => s!"Parse error: '{error.message}'."
  | .queryFailed (.entails _) error => s!"Entailment error: {error.message}"
  | .queryFailed (.contract _) error => s!"Contraction error: {error.message}"
  | .queryFailed (.revise _) error => s!"Revision error: {error.message}"

/-- The exit code of a run that ends with the failure. -/
def exitCode : Failure → UInt32
  | .queryFailed .. => 2
  | _ => 1

end Failure

/-! ## Writing lines -/

/-- The lines written so far, and the base in its present state. -/
structure Progress where
  lines : List String := []
  session : Session := {}

/-- A part of a run. -/
abbrev Run := ExceptT Failure (StateM Progress)

namespace Run

/-- Writes a line. -/
def write (line : String) : Run Unit :=
  fun progress => (.ok (), { progress with lines := progress.lines ++ [line] })

/-- Writes several lines. -/
def writeAll (lines : List String) : Run Unit :=
  fun progress => (.ok (), { progress with lines := progress.lines ++ lines })

/-- The base in its present state. -/
def base : Run Base := fun progress => (.ok progress.session.base, progress)

/-- Starts with an empty base. -/
def begin (settings : Settings) : Run Unit :=
  fun progress => (.ok (), { progress with session := { base := { settings } } })

/-- Performs an operation on the base and goes on, whatever its outcome. -/
def attempt {α : Type} (operation : Operation α) : Run (Except Error α) := fun progress =>
  let (outcome, session) := operation.perform progress.session
  (.ok outcome, { progress with session })

/-- Performs an operation on the base; its error is a failure of the run. -/
def perform {α : Type} (operation : Operation α) (failure : Error → Failure) : Run α := do
  match ← attempt operation with
  | .ok outcome => pure outcome
  | .error error => throw (failure error)

end Run

open Run

/-! ## Options -/

/-- The name of an option, and what stands behind its first equals sign. -/
def splitOption (argument : String) : String × Option (List Char) :=
  let name := argument.toList.takeWhile (· ≠ '=')
  match argument.toList.drop name.length with
  | [] => (String.ofList name, none)
  | _ :: value => (String.ofList name, some value)

/-- The formula given to an option. -/
def formulaFor (option : String) (value : Option (List Char)) : Run Formula :=
  match value.map Formula.parse with
  | some (.ok φ) => pure φ
  | some (.error fault) => throw (.formulaRequired option (some fault))
  | none => throw (.formulaRequired option none)

/-- Sets a parameter to the number given to its option. -/
def setNumber (request : Request) (parameter : Parameter Nat) (change : Nat → Settings.Change)
    (value : Option (List Char)) : Run Request := do
  match value.bind Text.signedDecimal? with
  | none => throw (.valueRequired parameter)
  | some number =>
    match request.settings.change? (change number) with
    | none => throw (.valueRequired parameter)
    | some settings =>
      write s!"c {parameter.name} set to: {number}"
      pure { request with settings }

/-- Adds a query. -/
def Request.ask (request : Request) (query : Query) : Request :=
  { request with queries := request.queries ++ [query] }

/-- Reads one option. -/
def readOption (request : Request) (argument : String) : Run Request := do
  let (name, value) := splitOption argument
  match name with
  | "--clauses" =>
    write "c The clauses of each belief will be written."
    pure { request with writeClauses := true }
  | "--contract" => return request.ask (.contract (← formulaFor "contract" value))
  | "--entails" => return request.ask (.entails (← formulaFor "entails" value))
  | "--revise" => return request.ask (.revise (← formulaFor "revise" value))
  | "--clause_limit" => setNumber request .clauseLimit .clauseLimit value
  | "--contraction_limit" => setNumber request .contractionLimit .contractionLimit value
  | "--default_priority" => setNumber request .defaultPriority .defaultPriority value
  | "--no_tautology_elimination" =>
    write s!"c {Parameter.tautologyElimination.name} set to: false"
    let settings := request.settings.change? (.tautologyElimination false)
    pure { request with settings := settings.getD request.settings }
  | _ => throw (.unknownOption argument)

/-! ## The belief file -/

/-- Reads the belief file into the base and reports on it. -/
def readFile (path : String) (file : Option (List UInt8)) : Run Unit := do
  write s!"c Reading beliefs from {Text.quoted path}"
  match file with
  | none => throw .fileNotOpened
  | some bytes =>
    let summary ← perform (Operation.readBeliefs bytes) .fileNotRead
    write s!"c Beliefs read:     {summary.beliefs}"
    write s!"c Beliefs added:    {summary.added}"
    write s!"c Duplicates:       {summary.duplicates}"

/-- Writes the clauses of formulas. -/
def writeClauses : List Formula → Run Unit
  | [] => pure ()
  | φ :: rest => do
    match ← attempt (Operation.clausesOf φ) with
    | .ok clauses =>
      let vocabulary := (← base).vocabulary
      write s!"c {φ}"
      writeAll (clauses.toList.map fun clause => s!"c   {vocabulary.clauseText clause}")
    | .error error => write s!"c Conversion error: {error.message}"
    writeClauses rest

/-! ## Queries -/

/-- The report on a contraction. -/
def contractionLines (φ : Formula) : Contraction → List String
  | .contracted removed =>
    s!"c Contracted by {φ}, removing {removed.length} beliefs" ::
      removed.map fun belief => s!"c   {belief}"
  | .notEntailed => [s!"c Contraction by {φ} not applicable: not entailed"]
  | .tautology => [s!"c Contraction by {φ} not applicable: tautology"]

/-- The report on an expansion that ends a revision. -/
def expansionLine (φ : Formula) : Expansion → String
  | .added => s!"c Revised by {φ}"
  | .duplicate => s!"c Revised by {φ}, already believed"

/-- Carries out a query. -/
def answer (query : Query) : Run Unit := do
  match query with
  | .entails φ =>
    let entailed ← perform (Operation.entails φ) (.queryFailed query)
    write (if entailed then "s Entailed" else "s Not entailed")
  | .contract φ =>
    let contraction ← perform (Operation.contract φ) (.queryFailed query)
    writeAll (contractionLines φ contraction)
  | .revise φ =>
    let revision ← perform
      (do Operation.revise φ (← Operation.base).settings.defaultPriority.value)
      (.queryFailed query)
    writeAll (contractionLines (.not φ) revision.contraction)
    write (expansionLine φ revision.expansion)

/-! ## The whole run -/

/-- What a run leaves behind. -/
structure Report where
  lines : List String
  exitCode : UInt32
deriving DecidableEq

/-- The path of the belief file: the last argument. -/
def path? (arguments : List String) : Option String := arguments.getLast?

/-- Everything from the options to the beliefs that are left. -/
def process (arguments : List String) (file : Option (List UInt8)) : Run Unit := do
  let request ← arguments.dropLast.foldlM readOption {}
  match path? arguments with
  | none => throw .noPath
  | some path =>
    begin request.settings
    readFile path file
    if request.writeClauses then
      writeClauses (← base).formulas
    request.queries.forM answer
    write "c Beliefs:"
    writeAll ((← base).entries.map fun entry => s!"b {entry.display}")

/-- The run for some arguments and the content of the file at the path, if there is such a file. -/
def run (arguments : List String) (file : Option (List UInt8)) : Report :=
  match process arguments file {} with
  | (.ok (), progress) => ⟨progress.lines, 0⟩
  | (.error failure, progress) => ⟨progress.lines ++ [s!"c {failure.message}"], failure.exitCode⟩

end BeliefRevision.CommandLine
