import MiniC.Text.Quoted

set_option autoImplicit false

/-! # Reading files

What can go wrong when a file is read, and a directory that is held in memory. A path is followed
one component after another: only directories can be gone through, and the way back up out of the
outermost directory leads to nothing that is known. -/

namespace MiniC.Cli

/-- Why a file cannot be read. -/
inductive ReadError
  | missing
  /-- Another reason, with the number and the words that the system has for it. -/
  | failed (code : Nat) (reason : String)
deriving DecidableEq, Repr

namespace ReadError

/-- What is read is a directory. -/
def isDirectory : ReadError := .failed 21 "Is a directory"

/-- The path goes through a file. -/
def notADirectory : ReadError := .failed 20 "Not a directory"

/-- The path, or a component of it, has too many bytes. -/
def nameTooLong : ReadError := .failed 36 "File name too long"

/-- The error that the system reports with a number and with words of its own. The number may have a
sign, as a word of 32 bits. -/
def ofSystem (code : UInt32) (reason : String) : ReadError :=
  let code := (if code < 0x80000000 then code else 0 - code).toNat
  let known := [isDirectory, notADirectory, nameTooLong].find? fun
    | .failed n _ => n = code
    | .missing => false
  known.getD (.failed code reason.capitalize)

end ReadError

/-! ## Messages -/

/-- The words for a file that could not be read. -/
def ReadError.message (file : String) : ReadError → String
  | .missing => "No such file or directory"
  | .failed code reason => "[Errno " ++ toString code ++ "] " ++ reason ++ ": " ++ Text.quoted file

/-! ## A directory in memory -/

/-- The files of a directory and of those inside it, under the components of their paths. -/
structure Directory where
  files : List (List String × ByteArray)

namespace Directory

/-- The number of bytes that a component of a path has at most. -/
def maxComponent : Nat := 255

/-- The number of bytes that a path has at most. -/
def maxPath : Nat := 4095

/-- The components of a path. -/
def components (path : String) : List String :=
  path.splitOn "/"

/-- The directory that holds the given files, each under its path. -/
def ofFiles (files : List (String × ByteArray)) : Directory :=
  ⟨files.map fun (path, bytes) => (components path, bytes)⟩

/-- The file under the given components. -/
def file? (d : Directory) (path : List String) : Option ByteArray :=
  d.files.lookup path

/-- Whether there is a directory under the given components. -/
def hasDirectory (d : Directory) (path : List String) : Bool :=
  path.isEmpty || d.files.any fun (p, _) => path.isPrefixOf p

/-- What there is where components lead from outside of the outermost directory. Nothing is known
there, but the ways that go nowhere or further up end at a directory. -/
def outside (path : List String) : ReadError :=
  if path.all fun name => ["", ".", ".."].contains name then .isDirectory else .missing

/-- Follows components from the directory `here`, which is given by its components, innermost
first. -/
def follow (d : Directory) (here : List String) : List String → Except ReadError ByteArray
  | [] => .error .isDirectory
  | name :: rest =>
    if maxComponent < name.utf8ByteSize then .error .nameTooLong
    else if name = "" || name = "." then follow d here rest
    else if name = ".." then
      match here with
      | [] => .error (outside rest)
      | _ :: above => follow d above rest
    else
      let there := name :: here
      match d.file? there.reverse with
      | some bytes => if rest.isEmpty then .ok bytes else .error .notADirectory
      | none =>
        if d.hasDirectory there.reverse then follow d there rest else .error .missing

/-- The contents of the file with the given path. An absolute path leads out of the directory. -/
def read (d : Directory) (path : String) : Except ReadError ByteArray :=
  if maxPath < path.utf8ByteSize then .error .nameTooLong
  else
    match components path with
    | "" :: rest => .error (outside rest)
    | path => follow d [] path

end Directory

end MiniC.Cli
