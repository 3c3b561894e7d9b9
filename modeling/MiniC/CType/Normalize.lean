import MiniC.CType.Basic

set_option autoImplicit false

/-! # From words to types

A type is written as a sequence of words: the words of its base in any order, and then its pointer
levels. The words say how often each property was asked for, and that alone decides whether the base
is a type and which one. -/

namespace MiniC

/-- Why words are not a type. -/
inductive TypeError
  | invalid
  | unknownWord (word : String)
  | signedAndUnsigned
  | tooLong
  | tooManyInts
  | duplicated (word : String)
  | modifiedAuto
  | unknownStruct (tag : String)
deriving DecidableEq, Repr

/-- The words of a type error. -/
def TypeError.message : TypeError → String
  | .invalid => "Invalid type."
  | .unknownWord word => "Invalid type part: " ++ word ++ "."
  | .signedAndUnsigned => "Signed or unsigned?"
  | .tooLong => "So long."
  | .tooManyInts => "So many ints."
  | .duplicated word => "Duplicated " ++ word ++ "."
  | .modifiedAuto => "Auto with type modifiers."
  | .unknownStruct tag => "Unknown struct " ++ tag ++ "."

namespace CType

/-- The words that name a base. -/
def baseKeywords : List String :=
  ["char", "short", "int", "long", "float", "double", "void", "auto"]

/-- The words that may stand before the pointer levels, apart from a struct and its tag. -/
def modifiers : List String := ["const", "signed", "unsigned"]

/-- The words that must not be repeated, in the order in which they are complained about. -/
def singleWords : List String :=
  ["const", "signed", "unsigned", "short", "char", "float", "double", "void", "auto"]

/-- The words of a type sorted by what they describe: the base, the tag of a struct, and the pointer
levels, outermost first. -/
structure Sorted where
  base : List String
  tag : Option String
  levels : List Level
deriving DecidableEq, Repr

/-- Sorts words, where the words in `seen` came before. Nothing but pointer levels may follow a
pointer level, and a struct is named at most once. -/
def sortFrom (seen : Sorted) : List String → Except TypeError Sorted
  | [] => .ok seen
  | word :: rest =>
    if word = "*" then
      match rest with
      | next :: rest' =>
        if next = "const" then
          sortFrom { seen with levels := .readOnly :: seen.levels } rest'
        else sortFrom { seen with levels := .writable :: seen.levels } (next :: rest')
      | [] => .ok { seen with levels := .writable :: seen.levels }
    else if word = "*const" then
      sortFrom { seen with levels := .readOnly :: seen.levels } rest
    else if !seen.levels.isEmpty then .error .invalid
    else if word = "struct" then
      match rest with
      | [] => .error .invalid
      | tag :: rest' =>
        if seen.tag.isSome then .error .invalid
        else sortFrom { seen with tag := some tag } rest'
    else sortFrom { seen with base := seen.base ++ [word] } rest
termination_by words => words.length

/-- The first complaint about the words of a base that does not depend on which base they name. -/
def complaint? (words : List String) : Option TypeError :=
  match words.find? fun w => !baseKeywords.contains w && !modifiers.contains w with
  | some word => some (.unknownWord word)
  | none =>
    if 0 < words.count "signed" && 0 < words.count "unsigned" then some .signedAndUnsigned
    else if 2 < words.count "long" then some .tooLong
    else if 1 < words.count "int" then some .tooManyInts
    else (singleWords.find? fun w => 1 < words.count w).map .duplicated

/-- The base that words without a struct name, where each word is allowed. -/
def baseOfWords (words : List String) : Except TypeError Base :=
  let longs := words.count "long"
  let ints := words.count "int"
  let unsigned := 0 < words.count "unsigned"
  let hasSign := 0 < words.count "signed" || unsigned
  let kinds := words.filter fun w => baseKeywords.contains w && w ≠ "int" && w ≠ "long"
  match kinds with
  | [] =>
    if 0 < longs then .ok (.integer .long unsigned)
    else if 0 < ints || words.contains "const" || hasSign then .ok (.integer .int unsigned)
    else .error .invalid
  | [kind] =>
    if kind = "char" then
      if ints = 0 && longs = 0 then .ok (.integer .char unsigned) else .error .invalid
    else if kind = "short" then
      if longs = 0 then .ok (.integer .short unsigned) else .error .invalid
    else if hasSign || 0 < ints then .error .invalid
    else if kind = "double" && longs = 1 then .ok .longDouble
    else if 0 < longs then .error .invalid
    else if kind = "double" then .ok .double
    else if kind = "float" then .ok .float
    else .ok .void
  | _ => .error .invalid

/-- The type that words name. `find?` gives the declaration that the tag of a struct stands for. -/
def ofWords (find? : String → Option Nat) (words : List String) : Except TypeError CType := do
  let sorted ← sortFrom ⟨[], none, []⟩ words
  match complaint? sorted.base with
  | some e => throw e
  | none =>
    let isConst := sorted.base.contains "const"
    match sorted.tag with
    | some tag =>
      if sorted.base.any (· ≠ "const") then throw .invalid
      match find? tag with
      | none => throw (.unknownStruct tag)
      | some decl => return ⟨isConst, .struct tag decl, sorted.levels⟩
    | none =>
      if sorted.base.contains "auto" then
        if 1 < sorted.base.length then throw .modifiedAuto
        return ⟨false, .auto, sorted.levels⟩
      return ⟨isConst, ← baseOfWords sorted.base, sorted.levels⟩

end CType

end MiniC
