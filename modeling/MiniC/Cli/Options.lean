set_option autoImplicit false

/-! # The command line

What the words of a command line ask for. They are looked at one after another, and the first that
asks for help or makes no sense decides. -/

namespace MiniC.Cli

/-- The name that messages begin with. -/
def toolName : String := "ctrans"

/-- How far a program is processed, and what is shown of it. -/
inductive Mode
  | tokens
  | tree
  | semantic
  | run
deriving DecidableEq, Repr

/-- The mode that a flag asks for. -/
def Mode.ofFlag? : String → Option Mode
  | "--tokens" => some .tokens
  | "--tree" => some .tree
  | "--semantic" => some .semantic
  | "--run" => some .run
  | _ => none

/-- What to do with which file. An empty name stands for no file. -/
structure Options where
  mode : Mode
  verbose : Bool
  file : String
deriving DecidableEq, Repr

namespace Options

/-- The options of an empty command line. -/
def default : Options := ⟨.run, false, ""⟩

/-- The file name that stands for the standard input. -/
def standardInput : String := "-"

/-- The name of the file in messages. -/
def shownFile (o : Options) : String :=
  if o.file = standardInput then "<stdin>" else o.file

end Options

/-- Why a command line makes no sense. -/
inductive UsageError
  | unknownFlag (arg : String)
  | unexpectedArgument (arg : String)
  | missingFile
deriving DecidableEq, Repr

/-- The words of a usage error. -/
def UsageError.message : UsageError → String
  | .unknownFlag arg => "unknown flag '" ++ arg ++ "'"
  | .unexpectedArgument arg => "unexpected argument '" ++ arg ++ "'"
  | .missingFile => "missing file argument"

/-- What a command line asks for. -/
inductive Request
  | help
  | refuse (e : UsageError)
  | process (o : Options)
deriving DecidableEq, Repr

/-- Whether a word is a flag: a lone dash is a file name. -/
def isFlag (arg : String) : Bool :=
  arg.startsWith "-" && arg ≠ Options.standardInput

/-- What a command line asks for, where the words before gave the options `o`. -/
def requestFrom (o : Options) : List String → Request
  | [] => if o.file = "" then .refuse .missingFile else .process o
  | arg :: rest =>
    if arg = "--help" || arg = "-h" then .help
    else
      match Mode.ofFlag? arg with
      | some mode => requestFrom { o with mode } rest
      | none =>
        if arg = "--verbose" || arg = "-v" then requestFrom { o with verbose := true } rest
        else if isFlag arg then .refuse (.unknownFlag arg)
        else if o.file = "" then requestFrom { o with file := arg } rest
        else .refuse (.unexpectedArgument arg)

/-- What a command line asks for. -/
def request (args : List String) : Request :=
  requestFrom .default args

/-- The help text. -/
def usage : String :=
  "ctrans [OPTIONS] FILE\n"
    ++ "\n"
    ++ "Analyze and run a C program. FILE may be '-' to read standard input.\n"
    ++ "\n"
    ++ "Options:\n"
    ++ "  --tokens     Print the token table\n"
    ++ "  --tree       Print the parse tree\n"
    ++ "  --semantic   Check the program and print the collapsed tree\n"
    ++ "  --run        Check and run the program (default)\n"
    ++ "  --verbose    Enable debug logging\n"
    ++ "  --help       Show this help message\n"

end MiniC.Cli
