import CompileWatch.Form.Text
import CompileWatch.Report.Definitions
import CompileWatch.Report.Json
import CompileWatch.Report.Units
import CompileWatch.Capture.Session

/-!
# Snapshots

Everything that a session holds, as one document that other tools read.

- `Snapshot`: what is exported.
- `Snapshot.document`: the document.
- `Snapshot.export`: the text as a writer takes it, or the fault that stops it.
-/

namespace CompileWatch

/-- The captures of a session at one moment. -/
structure Snapshot where
  healthy : Bool
  forms : List FormEvent := []
  references : CallerMap := SortedMap.empty
  units : List UnitRecord := []

namespace Snapshot

/-- The captures of a session, which keeps them. -/
def ofSession (s : Session) : Snapshot :=
  ⟨s.isHealthy, s.forms.toList, s.references.callers, s.units.toList⟩

/-! ### The document -/

/-- Texts as an array. -/
def texts (l : List String) : Json := .array (l.map .string)

/-- A captured form, as source text. A line that is not known is left out. -/
def formEntry (e : FormEvent) : Json :=
  let lines := (e.line.toList.map fun n => ("line", Json.nat n)) ++
    (e.endLine.toList.map fun n => ("end_line", Json.nat n))
  .object ([("namespace", .string e.ns), ("symbol_name", .string e.name),
    ("phase", .string e.phase.text), ("kind", .string e.kind.operator)] ++ lines ++
    [("form", .string e.form.text)])

/-- The size of a form. -/
def sizeEntry (s : FormSize) : Json :=
  .object [("expressions", .nat s.expressions), ("depth", .nat s.depth)]

/-- A definition. What is not known is null. -/
def definitionEntry (d : DefinitionSummary) : Json :=
  .object [("namespace", .string d.name.ns), ("symbol_name", .string d.name.name),
    ("kind", .string d.kind.operator), ("line", .orNull .nat d.line),
    ("raw", .orNull sizeEntry d.raw), ("expanded", .orNull sizeEntry d.expanded)]

/-- A compiled unit. A count that is not known keeps the number that stands for it. -/
def unitEntry (r : UnitRecord) : Json :=
  .object [("name", .string r.name), ("byte_size", .nat r.byteSize),
    ("field_count", .number r.fieldCount), ("instruction_count", .number r.instructionCount),
    ("references", texts r.references.members)]

/-- What the units amount to. -/
def summaryEntry (s : UnitSummary) : Json :=
  .object [("unit_count", .nat s.unitCount), ("total_bytes", .nat s.totalBytes),
    ("unknown_count", .nat s.unknownCount), ("total_instructions", .nat s.totalInstructions),
    ("shared_dependencies", .array (s.sharedDependencies.map fun d =>
      .array [.string d.name, .nat d.count]))]

/-- The whole document. -/
def document (s : Snapshot) : Json :=
  .object [("healthy", .bool s.healthy), ("forms", .array (s.forms.map formEntry)),
    ("definitions", .array ((summarizeDefinitions s.forms).map definitionEntry)),
    ("references", .object (s.references.entries.map fun (callee, callers) =>
      (callee, texts callers.members))),
    ("units", .array (s.units.map unitEntry)),
    ("unit_summary", summaryEntry (UnitSummary.ofUnits s.units))]

/-- The exported text: the document and the end of its last line. -/
def text (s : Snapshot) : String := s.document.text ++ "\n"

end Snapshot

/-! ### Writers -/

/-- What a writer allows. -/
structure Writer where
  /-- How many bytes it takes, if there is a bound. -/
  limit : Option Nat := none
  /-- Whether what it took gets to its place. -/
  flushes : Bool := true
deriving DecidableEq, Repr, Inhabited

/-- Whether a writer takes a text as a whole. -/
def Writer.takes (w : Writer) (s : String) : Bool := w.limit.all fun n => s.utf8ByteSize ≤ n

/-- Why an export fails. -/
inductive ExportError where
  /-- The writer was full before the document ended. -/
  | fullInDocument
  /-- The writer was full when the document had ended. -/
  | fullAtEnd
  /-- What the writer took got lost. -/
  | flush
deriving DecidableEq, Repr, Inhabited

/-- The text of an export error. -/
def ExportError.message : ExportError → String
  | .fullInDocument | .fullAtEnd => "writer full"
  | .flush => "flush failed"

/-- Export a snapshot to a writer: the text that was written, or the first fault. -/
def Snapshot.export (s : Snapshot) (w : Writer) : Except ExportError String :=
  if !w.takes s.document.text then .error .fullInDocument
  else if !w.takes s.text then .error .fullAtEnd
  else if !w.flushes then .error .flush
  else .ok s.text

end CompileWatch
