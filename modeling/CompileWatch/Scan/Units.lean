import CompileWatch.Capture.Session
import CompileWatch.Files.Disk

/-!
# Units on disk

Compiled units that were written to disk are captured like those that a host defines.

- `collectUnits`: the files under some paths.
- `unitNameFor`: the name of a unit on disk.
- `loadUnits`: capture the units of some files.
-/

namespace CompileWatch

/-- Why a scan fails. -/
inductive ScanError where
  | notFound (p : Path)
  | unreadable (p : Path) (fault : FileFault)
deriving DecidableEq, Repr, Inhabited

/-- The text of a scan error. -/
def ScanError.message : ScanError → String
  | .notFound p => "Path not found: " ++ p.text
  | .unreadable p fault => "Failed to read " ++ p.text ++ ": " ++ fault.message

/-! ### Finding files -/

/-- What follows the last dot of a unit's file name. -/
def unitExtension : String := "class"

/-- Whether a path names a unit file. -/
def isUnitFile (p : Path) : Bool := p.extension? = some unitExtension

mutual

/-- The unit files below an entry of a directory. A directory whose path leads nowhere
counts by its name alone. -/
def FileTree.unitFiles (p : Path) : FileTree → List Path
  | .file _ => if isUnitFile p then [p] else []
  | .dir entries =>
    if !p.isTooLong then entryFiles p entries
    else if isUnitFile p then [p]
    else []

/-- The unit files below some entries of a directory. -/
def entryFiles (p : Path) : List (String × FileTree) → List Path
  | [] => []
  | (name, t) :: rest => t.unitFiles (p.join name) ++ entryFiles p rest

end

/-- The files of one path: a file that was named is taken, whatever its name. -/
def filesAt (d : Disk) (p : Path) : Except ScanError (List Path) :=
  match d.find? p with
  | none => .error (.notFound p)
  | some (.file _) => .ok [p]
  | some (.dir entries) => .ok (entryFiles p entries)

/-- The files under some paths in order, each once. -/
def collectUnits (d : Disk) (paths : List Path) : Except ScanError (List Path) := do
  return Path.sorted (← paths.mapM (filesAt d)).flatten

/-! ### Capturing -/

/-- The name of a unit on disk: the one that it gives itself, else that of its file. -/
def unitNameFor (p : Path) (bytes : Bytes) : Logged String :=
  match ClassFile.ownName bytes with
  | .ok name => return name
  | .error e => do
    let stem := p.stem?.getD p.text
    Logged.note .warn
      (p.text ++ ": unreadable unit header (" ++ e.message ++ "), recording as " ++ stem)
    return stem

/-- Capture the unit of a file. -/
def loadUnit (d : Disk) (p : Path) (s : Session) : Logged (Except ScanError Session) :=
  match d.read p with
  | .error fault => return .error (.unreadable p fault)
  | .ok bytes => do
    let name ← unitNameFor p bytes
    Logged.note .debug
      ("Loading " ++ p.text ++ " (" ++ toString bytes.length ++ " bytes) as " ++ name)
    return .ok (← s.captureUnit name bytes)

/-- Capture the units of some files, as far as they can be read. -/
def loadUnits (d : Disk) : List Path → Session → Logged (Option ScanError × Session)
  | [], s => return (none, s)
  | p :: rest, s => do
    match ← loadUnit d p s with
    | .error e => return (some e, s)
    | .ok s => loadUnits d rest s

end CompileWatch
