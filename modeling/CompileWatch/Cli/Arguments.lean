import CompileWatch.Files.Path

/-!
# The command line

`PATH...`, `--export FILE`, `-r`/`--references`, `-q`/`--quiet` and `-h`/`--help`. Short
options can stand together behind one dash; after `--` every word is a path; no option
is given twice.

- `Arguments`: what was asked for.
- `Arguments.parse`: the words of a command line.
-/

namespace CompileWatch

/-- What a command line asks for. -/
structure Arguments where
  paths : List Path := []
  /-- The file that a snapshot is written to. -/
  export? : Option Path := none
  /-- Whether the units that each unit names are listed. -/
  references : Bool := false
  /-- Whether only the summary is printed. -/
  quiet : Bool := false
deriving DecidableEq, Repr, Inhabited

/-- Why the words of a command line are not followed. -/
inductive Declined where
  /-- They ask how the command is used. -/
  | help
  /-- They are not how the command is used. -/
  | usage
deriving DecidableEq, Repr, Inhabited

namespace Arguments

/-- A word as a path. No path is empty. -/
def path (word : String) : Except Declined Path :=
  if word.isEmpty then .error .usage else .ok ⟨word⟩

/-- One more path. -/
def addPath (a : Arguments) (word : String) : Except Declined Arguments := do
  return { a with paths := a.paths ++ [← path word] }

/-- The file for the snapshot. -/
def setExport (a : Arguments) (word : String) : Except Declined Arguments := do
  let p ← path word
  if a.export?.isSome then .error .usage else return { a with export? := some p }

/-- List what units name. -/
def setReferences (a : Arguments) : Except Declined Arguments :=
  if a.references then .error .usage else .ok { a with references := true }

/-- Print the summary only. -/
def setQuiet (a : Arguments) : Except Declined Arguments :=
  if a.quiet then .error .usage else .ok { a with quiet := true }

/-- A short option. -/
def short (a : Arguments) (letter : Char) : Except Declined Arguments :=
  if letter = 'r' then a.setReferences
  else if letter = 'q' then a.setQuiet
  else if letter = 'h' then .error .help
  else .error .usage

/-- A long option that takes no value. -/
def long (a : Arguments) (name : String) : Except Declined Arguments :=
  if name = "references" then a.setReferences
  else if name = "quiet" then a.setQuiet
  else if name = "help" then .error .help
  else .error .usage

/-- Whether a word can be the value of an option. -/
def isValue (word : String) : Bool := !word.startsWith "-" || word = "-"

/-- Take the words in order. -/
def take (a : Arguments) : List String → Except Declined Arguments
  | [] => .ok a
  | word :: rest =>
    if word = "--" then rest.foldlM addPath a
    else if isValue word then do take (← a.addPath word) rest
    else if word = "--export" then
      match rest with
      | value :: rest => if isValue value then do take (← a.setExport value) rest else .error .usage
      | [] => .error .usage
    else
      match word.toList with
      | '-' :: '-' :: 'e' :: 'x' :: 'p' :: 'o' :: 'r' :: 't' :: '=' :: value => do
        take (← a.setExport (String.ofList value)) rest
      | '-' :: '-' :: name => do take (← a.long (String.ofList name)) rest
      | letters => do take (← letters.tail.foldlM short a) rest

/-- What a command line asks for: at least one path. -/
def parse (words : List String) : Except Declined Arguments := do
  let a ← take {} words
  if a.paths.isEmpty then .error .usage else return a

end Arguments

end CompileWatch
