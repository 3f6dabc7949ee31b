import CompileWatch.Capture.Session
import CompileWatch.Text.Blank

/-!
# Configuration

What the operator can set: two switches, and the categories that are captured. It is
read from named variables; a variable that is not set leaves the default.
-/

namespace CompileWatch

/-- The settings of an installation. -/
structure Config where
  /-- Whether failures inside observers are logged. -/
  debug : Bool := false
  /-- Whether the steps of the installation are logged. -/
  verbose : Bool := false
  captureForms : Bool := true
  captureReferences : Bool := true
  captureUnits : Bool := true
deriving DecidableEq, Repr, Inhabited

namespace Config

/-- The variable that logs failures inside observers. -/
def debugVar : String := "FORMSCOPE_DEBUG"

/-- The variable that logs the steps of the installation. -/
def verboseVar : String := "FORMSCOPE_VERBOSE"

/-- The variable that lists what is captured. -/
def captureVar : String := "FORMSCOPE_CAPTURE"

/-- The variables that are read. -/
def vars : List String := [debugVar, verboseVar, captureVar]

/-- Whether the text of a switch turns it on. -/
def isOn (s : String) : Bool := ["1", "true", "yes", "on"].contains (lowerAscii (trimBlanks s))

/-- Switch on the category of one list item. -/
def addCategory (c : Config) (item : String) : Logged Config :=
  if item = "forms" then return { c with captureForms := true }
  else if item = "references" ∨ item = "refs" then return { c with captureReferences := true }
  else if item = "units" then return { c with captureUnits := true }
  else if item = "all" then
    return { c with captureForms := true, captureReferences := true, captureUnits := true }
  else if item = "none" then return c
  else do
    Logged.note .warn ("Ignoring unknown capture category '" ++ item ++ "' in " ++ captureVar)
    return c

/-- The items of a comma list, without blanks around them and in small letters; empty
items are passed over. -/
def listItems (s : String) : List String :=
  (((s.splitOn ",").map trimBlanks).filter (!·.isEmpty)).map lowerAscii

/-- Capture only what a list names. -/
def setCategories (c : Config) (list : String) : Logged Config :=
  (listItems list).foldlM addCategory
    { c with captureForms := false, captureReferences := false, captureUnits := false }

/-- The configuration of a set of variables. -/
def ofVars (lookup : String → Option String) : Logged Config := do
  let c : Config := {}
  let c := { c with debug := ((lookup debugVar).map isOn).getD c.debug }
  let c := { c with verbose := ((lookup verboseVar).map isOn).getD c.verbose }
  match lookup captureVar with
  | some list => c.setCategories list
  | none => return c

/-- Switch the buffers of a session. -/
def apply (c : Config) (s : Session) : Session :=
  { s with
    forms := { s.forms with enabled := c.captureForms }
    references := { s.references with enabled := c.captureReferences }
    units := { s.units with enabled := c.captureUnits } }

end Config

end CompileWatch
