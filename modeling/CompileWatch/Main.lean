import CompileWatch.Cli.Run

/-!
# The program

The part of a run that touches the world: what the paths of a command line lead to is
read beforehand, the run itself is pure, and its outcome is printed and written.
-/

namespace CompileWatch

/-- What is at a path, if anything is. -/
partial def treeAt (path : String) : IO (Option FileTree) := do
  let place := (← IO.currentDir) / path
  if ← place.isDir then
    let mut entries : List (String × FileTree) := []
    for entry in ← place.readDir do
      if let some t ← treeAt (path ++ "/" ++ entry.fileName) then
        entries := (entry.fileName, t) :: entries
    return some (.dir entries)
  else if ← place.pathExists then
    return some (.file (← IO.FS.readBinFile place).toList)
  else
    return none

/-- What is at a path, a directory without its entries. -/
def shallowAt (path : String) : IO (Option FileTree) := do
  let place := (← IO.currentDir) / path
  if ← place.isDir then return some (.dir [])
  else if ← place.pathExists then return some (.file [])
  else return none

/-- Put on a disk what a path passes through. -/
def addPassage (d : Disk) (p : Path) : IO Disk := do
  let mut d := d
  for q in p.stretches do
    if let some t ← shallowAt q.text then
      d := { d with root := d.root.alter (fun old => old.getD t) (q.namesFrom d.home) }
  return d

/-- Put on a disk what a path leads to. -/
def addWhole (d : Disk) (p : Path) : IO Disk := do
  let d ← addPassage d p
  match ← treeAt p.text with
  | some t => return { d with root := d.root.alter (fun _ => t) (p.namesFrom d.home) }
  | none => return d

/-- As much of the disk as a run looks at. -/
def diskFor (a : Arguments) : IO Disk := do
  let home := Path.namesFrom [] ⟨(← IO.currentDir).toString⟩
  let mut d : Disk := ⟨FileTree.alter (.dir []) (fun old => old.getD (.dir [])) home, home⟩
  for p in a.paths do
    d ← addWhole d p
  for p in a.export?.toList do
    d ← addPassage d p
  return d

/-- How the command is used. -/
def usageText : String := "usage: formscope PATH... [--export FILE] [-r] [-q]\n"

/-- Follow a command line. -/
def follow (words : List String) (a : Arguments) : IO Nat := do
  let outcome := (run words (← diskFor a)).value
  (← IO.getStdout).putStr outcome.stdout
  if let some text := outcome.complaint then (← IO.getStderr).putStr text
  if outcome.code = 0 then
    for p in a.export?.toList do
      if let .ok bytes := outcome.disk.read p then
        IO.FS.writeBinFile p.text ⟨bytes.toArray⟩
  return outcome.code

end CompileWatch

open CompileWatch in
/-- The entry of the program. -/
def main (words : List String) : IO UInt32 := do
  match Arguments.parse words with
  | .ok a => return (← follow words a).toUInt32
  | .error .help =>
    (← IO.getStdout).putStr usageText
    return 0
  | .error .usage =>
    (← IO.getStderr).putStr usageText
    return 2
