import CompileWatch.ClassFile.Name
import CompileWatch.Form.Basic

/-!
# What is asked of a host

A host is the compiler under observation. It lets observers in at four points, and
answers questions about the state of the compiling thread through bindings that may
be missing in some builds.

- `Point`: where observers are let in.
- `Capability`: the bindings, and the points that suffer without each.
- `HostError`: why a host says no.
- `Reply`: an answer, a refusal, or a crash.
- `HostView`: everything a host answers at one moment.
-/

namespace CompileWatch

/-! ### Points -/

/-- The routines of a host that can be observed. -/
inductive Point where
  /-- Expansion of a form, which calls itself. -/
  | transform
  /-- A reference to a definition is made. -/
  | referenceConstruction
  /-- A symbol is about to be analyzed; inlined constants show only here. -/
  | constantResolution
  /-- A compiled unit is defined. -/
  | unitDefinition
deriving DecidableEq, Repr, Inhabited

namespace Point

/-- Every point, in order. -/
def all : List Point := [.transform, .referenceConstruction, .constantResolution, .unitDefinition]

/-- The name of a point. -/
def text : Point → String
  | .transform => "transform"
  | .referenceConstruction => "reference-construction"
  | .constantResolution => "constant-resolution"
  | .unitDefinition => "unit-definition"

/-- The point of a name. -/
def ofText? (s : String) : Option Point := all.find? (·.text == s)

end Point

/-! ### Capabilities -/

/-- The bindings into a host that observation relies on. -/
inductive Capability where
  | varNamespace
  | varSymbol
  | namespaceName
  | symbolResolution
  | varMetadata
  | constantMarker
  | metadataLookup
  | compilerLine
  | currentNamespace
  | enclosingDefinition
deriving DecidableEq, Repr, Inhabited

namespace Capability

/-- Every capability, in the order in which they are probed. -/
def all : List Capability :=
  [.varNamespace, .varSymbol, .namespaceName, .symbolResolution, .varMetadata, .constantMarker,
    .metadataLookup, .compilerLine, .currentNamespace, .enclosingDefinition]

/-- The name of a capability. -/
def name : Capability → String
  | .varNamespace => "VarNamespace"
  | .varSymbol => "VarSymbol"
  | .namespaceName => "NamespaceName"
  | .symbolResolution => "SymbolResolution"
  | .varMetadata => "VarMetadata"
  | .constantMarker => "ConstantMarker"
  | .metadataLookup => "MetadataLookup"
  | .compilerLine => "CompilerLine"
  | .currentNamespace => "CurrentNamespace"
  | .enclosingDefinition => "EnclosingDefinition"

/-- The capability of a name. -/
def ofName? (s : String) : Option Capability := all.find? (·.name == s)

/-- What a capability is, in messages. -/
def description : Capability → String
  | .varNamespace => "var namespace accessor"
  | .varSymbol => "var symbol accessor"
  | .namespaceName => "namespace name accessor"
  | .symbolResolution => "compiler symbol resolution"
  | .varMetadata => "var metadata accessor"
  | .constantMarker => "constant marker keyword"
  | .metadataLookup => "metadata map lookup"
  | .compilerLine => "compiler line position"
  | .currentNamespace => "current namespace binding"
  | .enclosingDefinition => "enclosing definition binding"

/-- The points that work worse without a capability. -/
def usedBy : Capability → List Point
  | .varNamespace | .varSymbol | .namespaceName | .enclosingDefinition =>
    [.referenceConstruction, .constantResolution]
  | .symbolResolution | .varMetadata | .constantMarker | .metadataLookup => [.constantResolution]
  | .compilerLine | .currentNamespace => [.transform]

/-- A missing capability makes itself felt somewhere. -/
theorem usedBy_ne_nil (c : Capability) : c.usedBy ≠ [] := by cases c <;> decide

end Capability

/-! ### Answers -/

/-- Why a host says no. -/
inductive HostError where
  | bindingUnavailable (binding reason : String)
  | attachRefused (point reason : String)
  | unresolved (symbol : String)
  | namespaceNotFound (ns : String)
  | other (text : String)
deriving DecidableEq, Repr, Inhabited

/-- The text of a host error. -/
def HostError.message : HostError → String
  | .bindingUnavailable binding reason =>
    "Host binding " ++ binding ++ " unavailable: " ++ reason
  | .attachRefused point reason => "Failed to attach " ++ point ++ ": " ++ reason
  | .unresolved symbol => "Unable to resolve symbol: " ++ symbol
  | .namespaceNotFound ns => "Namespace " ++ ns ++ " not found"
  | .other text => "Host call failed: " ++ text

/-- What comes of a call into a host. -/
inductive Reply (α : Type) where
  | answer (a : α)
  | refusal (e : HostError)
  /-- The host crashed, with a text if it gave one. -/
  | crash (text : Option String)
deriving DecidableEq, Repr, Inhabited

namespace Reply

/-- Calls in a row: the first that is no answer ends them. -/
def bind (r : Reply α) (f : α → Reply β) : Reply β :=
  match r with
  | .answer a => f a
  | .refusal e => .refusal e
  | .crash text => .crash text

instance : Monad Reply where
  pure := .answer
  bind := bind

/-- The text of a crash, with a stand-in for a crash without text. -/
def crashText (text : Option String) : String := text.getD "non-string panic payload"

end Reply

/-- A definition as a host shows it where it is referred to. -/
structure VarRef where
  name : QualifiedName
  /-- Whether its value is inlined, so that no reference to it is ever made. -/
  constant : Bool := false
deriving DecidableEq, Repr, Inhabited

/-- What a host answers at one moment on one thread. -/
structure HostView where
  probe : Capability → Reply Unit
  currentNamespace : Reply String
  compilerLine : Reply (Option Nat)
  enclosingDefinition : Reply (Option QualifiedName)
  resolve : Symbol → Reply (Option VarRef)
  definedSymbols : String → Reply (List QualifiedName)

end CompileWatch
