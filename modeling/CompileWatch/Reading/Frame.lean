import CompileWatch.Reading.Token

/-!
# Unfinished forms

Tokens are put together on a stack of frames. A frame is something that waits for
forms: a bracket that collects them, or a mark that acts on the next one. A finished
form goes to the frame on top, and a mark that has its form passes the result on.

- `Frame`: what waits.
- `Pile.deliver`: a finished form reaches the frames.
- `Pile.push`: one token.
-/

namespace CompileWatch

/-- Something that waits for a form. -/
inductive Frame where
  /-- An open bracket with the items so far, last first. -/
  | bracket (b : Bracket) (line : Nat) (items : List Form)
  /-- A quote mark. -/
  | quote
  /-- A metadata mark that waits for the metadata. -/
  | metadata (line : Nat)
  /-- Metadata that waits for its target. -/
  | flags (line : Nat) (flags : List String)
  /-- A discard mark that waits for the form to drop. -/
  | discard
  /-- A discard mark that has dropped a form and waits for the one to read. -/
  | afterDiscard

/-- The frames, innermost first, and the finished forms of the source, last first. -/
structure Pile where
  frames : List Frame := []
  forms : List Form := []

namespace Frame

/-- The keys of a map whose value is `true`, as far as they are keywords. -/
def trueKeys : List Form → List String
  | .keyword k :: .bool true :: rest => k :: trueKeys rest
  | _ :: _ :: rest => trueKeys rest
  | _ => []

/-- The flags that a metadata form sets. -/
def flagsOf? : Form → Option (List String)
  | .keyword k => some [k]
  | .map items => some (trueKeys items)
  | _ => none

/-- The form with more flags, when it can carry any. -/
def addFlags? (flags : List String) : Form → Option Form
  | .symbol s => some (.symbol { s with metadata := s.metadata.addFlags flags })
  | .list items m => some (.list items (m.addFlags flags))
  | .vector items m => some (.vector items (m.addFlags flags))
  | _ => none

/-- The collection that a closed bracket is. -/
def close (b : Bracket) (line endLine : Nat) (items : List Form) : Except ReadError Form :=
  match b with
  | .round => .ok (.list items (.span line endLine))
  | .square => .ok (.vector items (.span line endLine))
  | .hashCurly => .ok (.set items)
  | .curly =>
    if items.length % 2 = 0 then .ok (.map items)
    else .error (.invalidToken "map with odd number of forms" line)

end Frame

namespace Pile

/-- Hand a finished form to the frames that wait for it. -/
def deliver (f : Form) (forms : List Form) : List Frame → Except ReadError Pile
  | [] => .ok ⟨[], f :: forms⟩
  | .bracket b line items :: rest => .ok ⟨.bracket b line (f :: items) :: rest, forms⟩
  | .quote :: rest => deliver (.call [.sym "quote", f]) forms rest
  | .metadata line :: rest =>
    match Frame.flagsOf? f with
    | some flags => .ok ⟨.flags line flags :: rest, forms⟩
    | none => .error (.danglingMetadata line)
  | .flags line flags :: rest =>
    match Frame.addFlags? flags f with
    | some g => deliver g forms rest
    | none => .error (.danglingMetadata line)
  | .discard :: rest => .ok ⟨.afterDiscard :: rest, forms⟩
  | .afterDiscard :: rest => deliver f forms rest

/-- Add one token. -/
def push (p : Pile) : Token → Except ReadError Pile
  | .opening b line => .ok { p with frames := .bracket b line [] :: p.frames }
  | .quote => .ok { p with frames := .quote :: p.frames }
  | .metadata line => .ok { p with frames := .metadata line :: p.frames }
  | .discard => .ok { p with frames := .discard :: p.frames }
  | .atom f => deliver f p.forms p.frames
  | .closing c line =>
    match p.frames with
    | .bracket b start items :: rest =>
      if b.closer = c then do
        let f ← Frame.close b start line items.reverse
        deliver f p.forms rest
      else .error (.unbalanced c line)
    | _ => .error (.unbalanced c line)

end Pile

end CompileWatch
