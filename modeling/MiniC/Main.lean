import MiniC.Cli.Report

set_option autoImplicit false

/-! # The program

Reads what the command line asks for, and prints the answer. -/

namespace MiniC.Cli

/-- The error of a file that the system does not give out. -/
def readErrorOf : IO.Error → ReadError
  | .noFileOrDirectory _ _ _ => .missing
  | .inappropriateType _ code reason => .ofSystem code reason
  | .permissionDenied _ code reason => .ofSystem code reason
  | .resourceExhausted _ code reason => .ofSystem code reason
  | .invalidArgument _ code reason => .ofSystem code reason
  | .otherError code reason => .ofSystem code reason
  | e => .ofSystem 5 (toString e)

/-- The contents of a file, or of the standard input. -/
def readInput (file : String) : IO (Except ReadError ByteArray) := do
  try
    if file = Options.standardInput then
      return .ok (← (← IO.getStdin).readBinToEnd)
    else return .ok (← IO.FS.readBinFile file)
  catch e => return .error (readErrorOf e)

end MiniC.Cli

/-- Answers a command line. -/
def main (args : List String) : IO UInt32 := do
  let answer ← MiniC.Cli.answerRequest MiniC.Cli.readInput (MiniC.Cli.request args)
  (← IO.getStdout).putStr answer.out
  (← IO.getStderr).putStr answer.err
  return UInt32.ofNat answer.code
