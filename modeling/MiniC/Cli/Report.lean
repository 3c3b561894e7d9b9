import MiniC.Check.Program
import MiniC.Cli.Files
import MiniC.Cli.Options
import MiniC.Language.Parse
import MiniC.Run.Program
import MiniC.Token.Intern
import MiniC.Tree.Outline
import MiniC.View.TokenTable

set_option autoImplicit false

/-! # What the tool answers

A program goes through phases: its text is split into tokens, the tokens are parsed, the program is
checked, and it runs. The first phase that fails ends the way, with a message; the mode says after
which phase the way ends otherwise. Every phase notes down what it does, and the notes are shown in
a verbose answer. -/

namespace MiniC.Cli

/-- What the tool answers: the exit code, and what is printed to the standard output and to the
standard error output. -/
structure Answer where
  code : Nat
  out : String
  err : String
deriving DecidableEq, Repr

/-- Lines as a text. -/
def unlines (lines : List String) : String :=
  String.join (lines.map (· ++ "\n"))

/-- A line of the standard error output that begins with the name of the tool. -/
def complaint (message : String) : String :=
  toolName ++ ": " ++ message ++ "\n"

/-! ## Reports -/

/-- What came of a program: the exit code, what is printed, the notes, and the complaint if a phase
failed. -/
structure Report where
  code : Nat
  out : String
  notes : List String
  problem : Option String
deriving DecidableEq, Repr

namespace Report

/-- A program that went through all its phases. -/
def done (out : String) : Report := ⟨0, out, [], none⟩

/-- A report of what comes after the given notes. -/
def after (notes : List String) (r : Report) : Report :=
  { r with notes := notes ++ r.notes }

/-- A report of a phase that failed, after it printed `out`. -/
def failed (phase message out : String) : Report :=
  ⟨1, out, [], some (phase ++ " error: " ++ message)⟩

/-- A report of a phase that failed, with a row in place of the view that a mode shows. -/
def failedView (mode : Mode) (phase message : String) : Report :=
  failed phase message (if mode = .run then "" else "-1  Error  " ++ message ++ "\n")

/-- The answer for a report. -/
def answer (verbose : Bool) (r : Report) : Answer :=
  let notes := if verbose then unlines r.notes else ""
  ⟨r.code, r.out, notes ++ (r.problem.map complaint).getD ""⟩

end Report

/-! ## Notes -/

/-- A note of a part of the tool. -/
def note (part message : String) : String :=
  toolName ++ "." ++ part ++ ": " ++ message

/-- The notes of a parse that failed. -/
def syntaxNotes : SyntaxCause → List String
  | .committed message token =>
    [note "grammar" ("committed step failed at token " ++ toString token ++ ": " ++ message)]
  | _ => []

/-- The notes of an analysis: one for every scope that was opened. -/
def checkNotes (a : Analysis) : List String :=
  a.scopes.toList.zipIdx.map fun (scope, i) =>
    note "check" ("enter " ++ scope.kind.word ++ " scope #" ++ toString i)

/-- The note of an event of a run. -/
def eventNote : Event → String
  | .started => note "runtime" "running main"
  | .called name => note "runtime" ("call " ++ name)

/-! ## Phases -/

/-- The report of the run of a program. -/
def reportRun (p : Program) (annotations : Annotations) : Report :=
  let (outcome, m) := p.run (fun slot => annotations[slot]?) ampleFuel
  .after (m.events.toList.map eventNote)
    (match outcome with
    | .ok () => .done m.output
    | .error stop => .failed "runtime" (stop.message m.records) m.output)

/-- The report of the check of a program, and of what comes after it. -/
def reportCheck (mode : Mode) (tree : Tree) (p : Program) : Report :=
  let (outcome, a) := p.check
  .after (checkNotes a)
    (match outcome with
    | .error e => .failedView mode "semantic" e.message
    | .ok () =>
      match mode with
      | .run => reportRun p a.annotations
      | _ => .done (unlines (tree.outline true)))

/-- The report of a tree. -/
def reportTree (mode : Mode) (tree : Tree) : Report :=
  if mode = .tree then .done (unlines (tree.outline false))
  else
    match Program.ofTree? tree with
    | none => .failedView mode "syntax" "Not a program"
    | some p => reportCheck mode tree p

/-- The words of a failed parse. -/
def parseMessage : ParseFailure → String
  | .error e => e.message
  | .badCount => "count must be positive"
  | .exhausted => "Parse not finished."

/-- The notes of a failed parse. -/
def parseNotes : ParseFailure → List String
  | .error e => syntaxNotes e.cause
  | _ => []

/-- The report of tokens. -/
def reportTokens (mode : Mode) (tokens : List Token) : Report :=
  if mode = .tokens then .done (unlines (tokenTable tokens))
  else
    match parseTree tokens with
    | .error e => .after (parseNotes e) (.failedView mode "syntax" (parseMessage e))
    | .ok tree =>
      .after [note "parse" ("parsed " ++ toString tokens.length ++ " tokens")]
        (reportTree mode tree)

/-- The report of the text of a program. -/
def reportSource (mode : Mode) (source : String) : Report :=
  match tokenize source with
  | .error e => .failedView mode "lexical" e.message
  | .ok tokens =>
    .after [note "tokens" ("lexed " ++ toString tokens.length ++ " tokens")]
      (reportTokens mode tokens)

/-! ## Answers -/

/-- The answer to a request for a file, of which the given bytes or error were read. -/
def answerFile (o : Options) (input : Except ReadError ByteArray) : Answer :=
  let refuse (reason : String) : Answer := ⟨1, "", complaint (o.shownFile ++ ": " ++ reason)⟩
  match input with
  | .error e => refuse (e.message o.shownFile)
  | .ok bytes =>
    match String.fromUTF8? bytes with
    | none => refuse "invalid utf-8"
    | some source => (reportSource o.mode source).answer o.verbose

/-- The answer to a request, where files are read by `read`. -/
def answerRequest {m : Type → Type} [Monad m] (read : String → m (Except ReadError ByteArray)) :
    Request → m Answer
  | .help => return ⟨0, usage, ""⟩
  | .refuse e => return ⟨2, "", complaint e.message⟩
  | .process o => do return answerFile o (← read o.file)

/-- The answer to a command line in a directory that is held in memory, with the given standard
input. -/
def answerIn (d : Directory) (stdin : ByteArray) (args : List String) : Answer :=
  let read (file : String) : Except ReadError ByteArray :=
    if file = Options.standardInput then .ok stdin else d.read file
  Id.run (answerRequest (fun file => pure (read file)) (request args))

end MiniC.Cli
