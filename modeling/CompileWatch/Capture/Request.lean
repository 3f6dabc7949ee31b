import CompileWatch.Report.Unused

/-!
# Requests to a session

What the owner of a session asks of it, one request at a time. Most requests are about the
captures; the others are about the feeds and leave every buffer alone.

- `CaptureRequest`, `FeedRequest`: the two kinds of requests.
- `Session.perform`: one request, with what it answers and the session after it.
- `Session.after`, `Session.history`: requests in a row.
-/

namespace CompileWatch

/-- The kinds of captures. -/
inductive Category where
  | forms
  | references
  | units
deriving DecidableEq, Repr, Inhabited

/-- What is asked about captures. -/
inductive CaptureRequest where
  | form (e : FormEvent)
  | reference (e : Edge)
  | unit (name : String) (bytes : Bytes)
  | enable (c : Category) (on : Bool)
  | peek (c : Category)
  | drain (c : Category)
  | clear (c : Category)
  | clearAll
  | isHealthy
  | findUnused (view : HostView) (namespaces : List String)

/-- What is asked about feeds. -/
inductive FeedRequest where
  | subscribe (capacity : Nat)
  | unsubscribe
  | receive (number : Nat) (max : Option Nat)
  | leave (number : Nat)
deriving DecidableEq, Repr, Inhabited

/-- What is asked of a session. -/
inductive Request where
  | captures (r : CaptureRequest)
  | feeds (r : FeedRequest)

/-- The captures of one kind. -/
inductive Contents where
  | forms (l : List FormEvent)
  | references (callers : CallerMap)
  | units (l : List UnitRecord)

/-- What a request is answered. -/
inductive Answer where
  | done
  | contents (c : Contents)
  | healthy (yes : Bool)
  | unused (found : Detected)
  | subscribed (number : Nat)
  | notices (l : List Notice)

/-- A request about feeds, with what it answers. -/
def FeedDesk.perform (d : FeedDesk) : FeedRequest → Answer × FeedDesk
  | .subscribe capacity =>
    let (number, d) := d.subscribe capacity
    (.subscribed number, d)
  | .unsubscribe => (.done, d.unsubscribe)
  | .receive number max =>
    let (notices, d) := d.receive number max
    (.notices notices, d)
  | .leave number => (.done, d.leave number)

namespace Session

/-- The captures of a kind, in order. -/
def contents (s : Session) : Category → Contents
  | .forms => .forms s.forms.toList
  | .references => .references s.references.callers
  | .units => .units s.units.toList

/-- Forget the captures of a kind. -/
def clear (s : Session) : Category → Session
  | .forms => { s with forms := s.forms.clear }
  | .references => { s with references := s.references.clear }
  | .units => { s with units := s.units.clear }

/-- Switch the buffer of a kind on or off. -/
def enable (s : Session) (enabled : Bool) : Category → Session
  | .forms => { s with forms := { s.forms with enabled } }
  | .references => { s with references := { s.references with enabled } }
  | .units => { s with units := { s.units with enabled } }

/-- A request about captures, with what it answers. -/
def performCaptures (s : Session) : CaptureRequest → Logged (Answer × Session)
  | .form e => return (.done, ← s.captureForm e)
  | .reference e => return (.done, ← s.captureReference e)
  | .unit name bytes => return (.done, ← s.captureUnit name bytes)
  | .enable c on => return (.done, s.enable on c)
  | .peek c => return (.contents (s.contents c), s)
  | .drain c => return (.contents (s.contents c), s.clear c)
  | .clear c => return (.done, s.clear c)
  | .clearAll => return (.done, s.clearAll)
  | .isHealthy => return (.healthy s.isHealthy, s)
  | .findUnused view namespaces => do
    let (found, s) ← s.findUnused view namespaces
    return (.unused found, s)

/-- A request, with what it answers. -/
def perform (s : Session) : Request → Logged (Answer × Session)
  | .captures r => s.performCaptures r
  | .feeds r =>
    let (answer, desk) := s.desk.perform r
    return (answer, { s with desk })

end Session

/-- A request that was made: what it found, and what it was answered. -/
structure Performed where
  found : Session
  request : Request
  answer : Answer

namespace Session

/-- The session after requests in a row. -/
def after (s : Session) (requests : List Request) : Session :=
  requests.foldl (fun s r => (s.perform r).value.2) s

/-- Requests in a row, as each of them was performed. -/
def history (s : Session) : List Request → List Performed
  | [] => []
  | r :: rest => ⟨s, r, (s.perform r).value.1⟩ :: ((s.perform r).value.2).history rest

end Session

end CompileWatch
