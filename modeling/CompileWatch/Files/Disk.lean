import CompileWatch.Files.Path
import CompileWatch.Text.Utf8

/-!
# Files

A disk is a tree of directories with files at its leaves, seen from a working directory.

- `FileTree`: a file or a directory.
- `Disk.locate`: where a path leads.
- `Disk.read`, `Disk.write`: the contents of a file.
-/

namespace CompileWatch

/-- A file, or a directory with its entries by name. -/
inductive FileTree where
  | file (bytes : Bytes)
  | dir (entries : List (String × FileTree))

namespace FileTree

instance : Inhabited FileTree := ⟨.dir []⟩

/-- Whether the tree is a directory. -/
def isDir : FileTree → Bool
  | .dir _ => true
  | .file _ => false

/-- The entry of a directory. -/
def entry? : FileTree → String → Option FileTree
  | .dir entries, name => entries.lookup name
  | .file _, _ => none

/-- What lies below a tree at the end of some names. -/
def get? (t : FileTree) : List String → Option FileTree
  | [] => some t
  | name :: rest => (t.entry? name).bind (·.get? rest)

/-- A directory with one entry replaced or added. A file stays as it is. -/
def setEntry : FileTree → String → FileTree → FileTree
  | .dir entries, name, t =>
    if (entries.lookup name).isSome then
      .dir (entries.map fun e => if e.1 = name then (name, t) else e)
    else .dir (entries ++ [(name, t)])
  | .file bytes, _, _ => .file bytes

/-- Change what lies at the end of some names; directories on the way are made. -/
def alter (t : FileTree) (f : Option FileTree → FileTree) : List String → FileTree
  | [] => f (some t)
  | [name] => t.setEntry name (f (t.entry? name))
  | name :: rest => t.setEntry name (((t.entry? name).getD (.dir [])).alter f rest)

/-- Make a directory at the end of some names. What is there already stays. -/
def makeDir (t : FileTree) (names : List String) : FileTree := t.alter (·.getD (.dir [])) names

/-- Make a directory of every place that some paths pass through, one after the other. -/
def makeDirs (t : FileTree) (home : List String) (paths : List Path) : FileTree :=
  paths.foldl (fun t p => t.makeDir (p.namesFrom home)) t

end FileTree

/-- Why a file cannot be used. -/
inductive FileFault where
  | missing
  | notDirectory
  | isDirectory
  | nameTooLong
  | badName
deriving DecidableEq, Repr, Inhabited

/-- The text of a fault. -/
def FileFault.message : FileFault → String
  | .missing => "No such file or directory (os error 2)"
  | .notDirectory => "Not a directory (os error 20)"
  | .isDirectory => "Is a directory (os error 21)"
  | .nameTooLong => "File name too long (os error 36)"
  | .badName => "file name contained an unexpected NUL byte"

/-- A tree seen from one of its directories. -/
structure Disk where
  root : FileTree := .dir []
  /-- The names from the root to the working directory. -/
  home : List String := []

instance : Inhabited Disk := ⟨{}⟩

namespace Disk

/-- A disk with some directories and files, each by its path from the working directory.
Every directory that a path passes through is made. -/
def ofFiles (home : List String) (dirs : List Path) (files : List (Path × Bytes)) : Disk where
  root :=
    let t := ((FileTree.dir []).makeDir home).makeDirs home (dirs.flatMap Path.stretches)
    files.foldl (fun t (p, bytes) =>
      (t.makeDirs home p.stretches.dropLast).alter (fun _ => .file bytes) (p.namesFrom home)) t
  home

/-- Look up a name among the entries of a directory. -/
def entry (entries : List (String × FileTree)) (name : String) :
    Except FileFault (Option FileTree) :=
  if Path.nameByteLimit < name.utf8ByteSize then .error .nameTooLong
  else .ok (entries.lookup name)

/-- Take one segment of a path. Every segment, also one that says nothing, is taken in a
directory. -/
def step (d : Disk) (place : List String) (segment : String) : Except FileFault (List String) :=
  match d.root.get? place with
  | none => .error .missing
  | some (.file _) => .error .notDirectory
  | some (.dir entries) =>
    if segment = "" ∨ segment = "." then .ok place
    else if segment = ".." then .ok place.dropLast
    else do
      match ← entry entries segment with
      | some _ => return place ++ [segment]
      | none => .error .missing

/-- The place from which a path is taken. -/
def start (d : Disk) (p : Path) : List String := if p.isAbsolute then [] else d.home

/-- What is wrong with the text of a path, wherever it is taken. -/
def checkText (p : Path) : Except FileFault Unit :=
  if p.text.isEmpty then .error .missing
  else if p.text.contains '\x00' then .error .badName
  else if p.isTooLong then .error .nameTooLong
  else .ok ()

/-- Where a path leads, as names from the root. -/
def locate (d : Disk) (p : Path) : Except FileFault (List String) := do
  checkText p
  p.segments.foldlM d.step (d.start p)

/-- What a path leads to. -/
def find? (d : Disk) (p : Path) : Option FileTree :=
  (d.locate p).toOption.bind d.root.get?

/-- The contents of a file. -/
def read (d : Disk) (p : Path) : Except FileFault Bytes := do
  match d.root.get? (← d.locate p) with
  | none => .error .missing
  | some (.dir _) => .error .isDirectory
  | some (.file bytes) => .ok bytes

/-- Where a file would be written: a file that is there, or a new name in a directory. What
leads to the last segment has to be a directory. A separator after the last segment, or a
last segment that says nothing or leads up, names a directory itself. -/
def target (d : Disk) (p : Path) : Except FileFault (List String) := do
  checkText p
  let trailing := p.segments.reverse.takeWhile String.isEmpty
  let segments := p.segments.take (p.segments.length - trailing.length)
  let place ← segments.dropLast.foldlM d.step (d.start p)
  let last := segments.getLast?.getD ""
  match d.root.get? place with
  | none => .error .missing
  | some (.file _) => .error .notDirectory
  | some (.dir entries) =>
    if ¬trailing.isEmpty ∨ last = "" ∨ last = "." ∨ last = ".." then .error .isDirectory
    else
      match ← entry entries last with
      | some (.dir _) => .error .isDirectory
      | _ => return place ++ [last]

/-- Write a file, new or in place of its earlier contents. -/
def write (d : Disk) (p : Path) (bytes : Bytes) : Except FileFault Disk := do
  let place ← d.target p
  return { d with root := d.root.alter (fun _ => .file bytes) place }

end Disk

end CompileWatch
