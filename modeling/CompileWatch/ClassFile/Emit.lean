import CompileWatch.ClassFile.Builder
import CompileWatch.ClassFile.Name

/-!
# The unit of a function

Every function definition has a unit of its own. What its body refers to shows in the
unit: a variable as a static field that is set when the unit is loaded, another
function as a direct call, and a constant not at all, since its value is inlined.

- `Reference`: a resolved reference from a body.
- `emitFunction`: the unit of a function.
-/

namespace CompileWatch

/-- A definition that a body refers to. -/
structure Reference where
  name : QualifiedName
  constant : Bool
  function : Bool
deriving DecidableEq, Repr, Inhabited

namespace Emit

def functionClass : String := "clojure/lang/AFunction"
def varClass : String := "clojure/lang/Var"
def varDescriptor : String := "Lclojure/lang/Var;"
def runtimeClass : String := "clojure/lang/RT"
def objectDescriptor : String := "Ljava/lang/Object;"

/-- The descriptor of a function of so many parameters. -/
def invokeDescriptor (arity : Nat) : String :=
  "(" ++ String.join (List.replicate arity objectDescriptor) ++ ")" ++ objectDescriptor

/-- The different variables among the references, in order of first mention. -/
def heldVars (refs : List Reference) : List QualifiedName :=
  refs.foldl (fun vars r =>
    if r.constant || vars.contains r.name then vars else vars ++ [r.name]) []

/-- The name of the field of a variable. -/
def fieldName (index : Nat) : String := "const__" ++ toString index

/-- Looking up one variable and keeping it in its field. -/
def initSteps (this : String) (index : Nat) (var : QualifiedName) : List CodeStep :=
  [.load (.string var.ns), .load (.string var.name),
   .invoke Opcode.invokeStatic runtimeClass "var"
     "(Ljava/lang/String;Ljava/lang/String;)Lclojure/lang/Var;",
   .type Opcode.checkCast varClass,
   .field Opcode.putStatic this (fieldName index) varDescriptor]

/-- What a body does for one reference. -/
def referenceSteps (this : String) (vars : List QualifiedName) (r : Reference) : List CodeStep :=
  if r.constant then [.op Opcode.aconstNull [], .op Opcode.pop []]
  else if r.function then
    [.invoke Opcode.invokeStatic r.name.unitName "invokeStatic" (invokeDescriptor 0),
     .op Opcode.pop []]
  else
    [.field Opcode.getStatic this (fieldName ((vars.findIdx? (· == r.name)).getD 0)) varDescriptor,
     .invoke Opcode.invokeVirtual varClass "getRawRoot" "()Ljava/lang/Object;",
     .op Opcode.pop []]

/-- Loading the parameters of a call; a slot beyond a byte reads as the last one. -/
def parameterSteps (arity : Nat) : List CodeStep :=
  (List.range arity).map fun i => .aload (min (i + 1) 255)

end Emit

/-- The unit of a function: its name inside units, and its bytes. -/
def emitFunction (name : QualifiedName) (arity : Nat) (refs : List Reference)
    (line : Option Nat) : String × Bytes :=
  let this := name.unitName
  let vars := Emit.heldVars refs
  let descriptor := Emit.invokeDescriptor arity
  let b := ClassBuilder.start this Emit.functionClass
  let b := (List.range vars.length).foldl (fun b i =>
    b.field (accessBits [.isPublic, .isStatic, .isFinal]) (Emit.fieldName i)
      Emit.varDescriptor) b
  let b := b.method (accessBits [.isStatic]) "<clinit>" "()V"
    ((vars.zipIdx.flatMap fun (var, i) => Emit.initSteps this i var) ++
      [.op Opcode.voidReturn []])
  let b := b.method (accessBits [.isPublic, .isStatic]) "invokeStatic" descriptor
    (line.toList.map .line ++ refs.flatMap (Emit.referenceSteps this vars) ++
      [.op Opcode.aconstNull [], .op Opcode.areturn []])
  let b := b.method (accessBits [.isPublic]) "invoke" descriptor
    (Emit.parameterSteps arity ++
      [.invoke Opcode.invokeStatic this "invokeStatic" descriptor, .op Opcode.areturn []])
  let b := b.method (accessBits [.isPublic]) "getRequiredArity" "()I"
    [.load (.integer (min arity maxInt32)), .op Opcode.ireturn []]
  (this, ((b.source name.sourceFile).build).1)

end CompileWatch
