import CompileWatch.Cli.Arguments
import CompileWatch.Report.Snapshot
import CompileWatch.Scan.Units

/-!
# A run of the command

The units under the given paths are loaded and listed, and a snapshot is written if one
was asked for. A run reads a disk, and gives what it prints, what it leaves on the disk,
and its exit code.

- `unitTable`, `summaryLines`: what is printed of the units.
- `RunError`: why a run fails.
- `run`: the whole command.
-/

namespace CompileWatch

/-! ### Tables -/

/-- A text with blanks after it, up to a number of characters. -/
def padRight (width : Nat) (s : String) : String :=
  s ++ String.ofList (List.replicate (width - s.length) ' ')

/-- A text with blanks before it, up to a number of characters. -/
def padLeft (width : Nat) (s : String) : String :=
  String.ofList (List.replicate (width - s.length) ' ') ++ s

/-- One row: a name and four numbers. -/
def tableRow (width : Nat) (name bytes fields instructions references : String) : String :=
  padRight width name ++ "  " ++ padLeft 8 bytes ++ "  " ++ padLeft 6 fields ++ "  " ++
    padLeft 6 instructions ++ "  " ++ padLeft 4 references

/-- A count, or a question mark for one that is not known. -/
def countText (n : Option Nat) : String := (n.map toString).getD "?"

/-- The width of the name column: the bytes of the longest name. -/
def nameWidth (units : List UnitRecord) : Nat :=
  (units.map (·.name.utf8ByteSize)).foldl max 4

/-- The lines of one unit. -/
def unitLines (width : Nat) (withReferences : Bool) (r : UnitRecord) : List String :=
  tableRow width r.name (toString r.byteSize) (countText r.knownFields?)
      (countText r.knownInstructions?) (toString r.references.size) ::
    (if withReferences then r.references.members.map ("    → " ++ ·) else [])

/-- The table of the units. -/
def unitTable (withReferences : Bool) (units : List UnitRecord) : List String :=
  let width := nameWidth units
  tableRow width "unit" "bytes" "fields" "insns" "refs" ::
    units.flatMap (unitLines width withReferences)

/-- The line that sums up. -/
def totalLine (s : UnitSummary) : String :=
  toString s.unitCount ++ " units, " ++ toString s.totalBytes ++ " bytes, " ++
    toString s.totalInstructions ++ " instructions (" ++ toString s.unknownCount ++ " unreadable)"

/-- How many shared units are listed. -/
def sharedShown : Nat := 10

/-- The units that most units name. -/
def sharedLines (s : UnitSummary) : List String :=
  if s.sharedDependencies.isEmpty then []
  else "shared dependencies:" ::
    (s.sharedDependencies.take sharedShown).map fun d =>
      "  " ++ padLeft 4 (toString d.count) ++ "  " ++ d.name

/-- What is printed of the units. -/
def reportLines (a : Arguments) (units : List UnitRecord) : List String :=
  let summary := UnitSummary.ofUnits units
  if a.quiet then [totalLine summary]
  else "formscope v0.1.0" :: unitTable a.references units ++ totalLine summary :: sharedLines summary

/-! ### Failures -/

/-- Why a run fails. -/
inductive RunError where
  | collect (e : ScanError)
  | noUnits
  | load (e : ScanError)
  | create (p : Path) (fault : FileFault)
deriving DecidableEq, Repr, Inhabited

namespace RunError

/-- The texts of a scan error and of its causes. -/
def causes : ScanError → List String
  | .notFound p => [(ScanError.notFound p).message]
  | .unreadable p fault => [(ScanError.unreadable p fault).message, fault.message]

/-- What went wrong, and why, from the outside in. -/
def chain : RunError → List String
  | .collect e => "Failed to collect compiled units" :: causes e
  | .noUnits => ["No .class files found under the given paths"]
  | .load e => "Failed to load compiled units" :: causes e
  | .create p fault => ["Failed to create " ++ p.text, fault.message]

/-- The line that reports the error. -/
def line (e : RunError) : String := "error: " ++ ": ".intercalate e.chain

/-- The exit code: a path that is not there is wrong use. -/
def code : RunError → Nat
  | .collect (.notFound _) | .load (.notFound _) => 2
  | _ => 1

end RunError

/-! ### The run -/

/-- What comes of a run. -/
structure Outcome where
  code : Nat := 0
  printed : List String := []
  /-- What is printed to the operator; nothing is said here of wrong use. -/
  complaint : Option String := some ""
  disk : Disk

/-- Print some lines, and fail. -/
def Outcome.failed (d : Disk) (printed : List String) (e : RunError) : Outcome :=
  { code := e.code, printed, complaint := some (e.line ++ "\n"), disk := d }

/-- Print lines. -/
def Outcome.stdout (o : Outcome) : String := String.join (o.printed.map (· ++ "\n"))

/-- Do what the arguments ask for. -/
def runWith (a : Arguments) (d : Disk) : Logged Outcome := do
  match collectUnits d a.paths with
  | .error e => return .failed d [] (.collect e)
  | .ok [] => return .failed d [] .noUnits
  | .ok files =>
    let (fault, session) ← loadUnits d files {}
    if let some e := fault then return .failed d [] (.load e)
    Logged.note .info ("Loaded " ++ toString files.length ++ " compiled units")
    let report := reportLines a session.units.toList
    match a.export? with
    | none => return { printed := report, disk := d }
    | some p =>
      match d.write p (Utf8.encode (Snapshot.ofSession session).text) with
      | .error fault => return .failed d report (.create p fault)
      | .ok d =>
        return { printed := report ++ (if a.quiet then [] else ["export: " ++ p.text]), disk := d }

/-- Run a command line. -/
def run (words : List String) (d : Disk) : Logged Outcome :=
  match Arguments.parse words with
  | .ok a => runWith a d
  | .error .help => return { disk := d }
  | .error .usage => return { code := 2, complaint := none, disk := d }

end CompileWatch
