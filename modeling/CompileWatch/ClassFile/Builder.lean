import CompileWatch.ClassFile.CodeBuilder
import CompileWatch.ClassFile.Visit

/-!
# Building units

A unit is put together from its name, its super class, and then interfaces, fields,
methods and a source file in any order.

- `ClassBuilder.start`: a unit with neither fields nor methods.
- `ClassBuilder.method`: one more method, its body written by steps.
- `ClassBuilder.build`: the bytes.
- `ClassStep`: what can be added to a unit, as data.
-/

namespace CompileWatch

/-- Access marks of classes and members. -/
inductive Access where
  | isPublic
  | isStatic
  | isFinal
  | isSuper
deriving DecidableEq, Repr

/-- The bit of an access mark. -/
def Access.bit : Access → Nat
  | .isPublic => 0x0001
  | .isStatic => 0x0008
  | .isFinal => 0x0010
  | .isSuper => 0x0020

/-- Access marks put together; each is given once. -/
def accessBits (marks : List Access) : Nat := (marks.map Access.bit).foldl (· + ·) 0

/-- A field whose name and type are constants of the unit. -/
structure BuiltField where
  access : Nat
  nameIndex : Nat
  descriptorIndex : Nat
deriving Repr

/-- A unit in the making. -/
structure ClassBuilder where
  pool : PoolBuilder
  access : Nat
  thisClass : Nat
  superClass : Nat
  interfaces : Array Nat := #[]
  fields : Array BuiltField := #[]
  /-- The bytes of each method. -/
  methods : Array Bytes := #[]
  sourceFile : Option Nat := none

namespace ClassBuilder

/-- A public unit that can be neither extended nor changed. -/
def start (name superName : String) : ClassBuilder :=
  let (thisClass, pool) := PoolBuilder.classEntry name {}
  let (superClass, pool) := PoolBuilder.classEntry superName pool
  { pool, access := accessBits [.isPublic, .isSuper, .isFinal], thisClass, superClass }

/-- One more interface. -/
def interface (b : ClassBuilder) (name : String) : ClassBuilder :=
  let (index, pool) := PoolBuilder.classEntry name b.pool
  { b with pool, interfaces := b.interfaces.push index }

/-- One more field. -/
def field (b : ClassBuilder) (access : Nat) (name descriptor : String) : ClassBuilder :=
  let (nameIndex, pool) := PoolBuilder.utf8 name b.pool
  let (descriptorIndex, pool) := PoolBuilder.utf8 descriptor pool
  { b with pool, fields := b.fields.push ⟨access, nameIndex, descriptorIndex⟩ }

/-- The name of the source file. -/
def source (b : ClassBuilder) (file : String) : ClassBuilder :=
  let (index, pool) := PoolBuilder.utf8 file b.pool
  { b with pool, sourceFile := some index }

/-- The table of source lines, as the body of an attribute. -/
def lineTable (lines : List (Nat × Nat)) : Bytes :=
  bytesOf16 (clamp16 lines.length) ++ lines.flatMap fun l => bytesOf16 l.1 ++ bytesOf16 l.2

/-- The body of a code attribute; `lineName` is the number of the name of the line
table, if there is one. -/
def codeBody (c : CodeBuilder) (lineName : Option Nat) : Bytes :=
  bytesOf16 c.maxStack ++ bytesOf16 c.maxLocals ++ bytesOf32 (clamp32 c.length) ++ c.code ++
    bytesOf16 0 ++
    match lineName with
    | none => bytesOf16 0
    | some index =>
      let lines := c.lines.toList
      bytesOf16 1 ++ bytesOf16 index ++ bytesOf32 (clamp32 (2 + lines.length * 4)) ++
        lineTable lines

/-- The body of the code attribute of a finished method body, and the constants with the
name of the line table, which is stored where there are lines. -/
def finishBody (c : CodeBuilder) : Bytes × PoolBuilder :=
  if c.lines.isEmpty then (codeBody c none, c.pool)
  else
    let (index, pool) := PoolBuilder.utf8 "LineNumberTable" c.pool
    (codeBody c (some index), pool)

/-- The numbers of the constants that every method refers to. -/
structure MethodNames where
  name : Nat
  descriptor : Nat
  /-- The name of the code attribute. -/
  code : Nat

/-- Store the constants that every method refers to, and start its body on them. -/
def openMethod (b : ClassBuilder) (name descriptor : String) : MethodNames × CodeBuilder :=
  let (name, pool) := PoolBuilder.utf8 name b.pool
  let (descriptor, pool) := PoolBuilder.utf8 descriptor pool
  let (code, pool) := PoolBuilder.utf8 "Code" pool
  (⟨name, descriptor, code⟩, { pool })

/-- The bytes of a method whose only attribute is its code. -/
def methodBytes (access : Nat) (names : MethodNames) (content : Bytes) : Bytes :=
  bytesOf16 access ++ bytesOf16 names.name ++ bytesOf16 names.descriptor ++ bytesOf16 1 ++
    bytesOf16 names.code ++ bytesOf32 (clamp32 content.length) ++ content

/-- One more method, its body being finished. -/
def closeMethod (b : ClassBuilder) (access : Nat) (names : MethodNames) (c : CodeBuilder) :
    ClassBuilder :=
  let (content, pool) := finishBody c
  { b with pool, methods := b.methods.push (methodBytes access names content) }

/-- One more method. The body is written on the constants of the unit, and may say
something about itself. -/
def methodWith (b : ClassBuilder) (access : Nat) (name descriptor : String)
    (body : StateM CodeBuilder α) : α × ClassBuilder :=
  let (names, c) := b.openMethod name descriptor
  let (a, c) := body c
  (a, b.closeMethod access names c)

/-- One more method, its body given by its steps. -/
def method (b : ClassBuilder) (access : Nat) (name descriptor : String) (steps : List CodeStep) :
    ClassBuilder :=
  (b.methodWith access name descriptor (modify fun c => c.steps steps)).2

/-- The bytes of a field, which has no attributes. -/
def fieldBytes (f : BuiltField) : Bytes :=
  bytesOf16 f.access ++ bytesOf16 f.nameIndex ++ bytesOf16 f.descriptorIndex ++ bytesOf16 0

/-- The bytes of a unit whose constants are complete; `sourceName` is the number of the
name of the source attribute, if there is one. -/
def serialize (b : ClassBuilder) (sourceName : Option Nat) : Bytes :=
  bytesOf32 ClassFile.magic ++ bytesOf16 0 ++ bytesOf16 52 ++
    bytesOf16 b.pool.nextIndex ++ b.pool.bytes ++
    bytesOf16 b.access ++ bytesOf16 b.thisClass ++ bytesOf16 b.superClass ++
    bytesOf16 (clamp16 b.interfaces.size) ++ b.interfaces.toList.flatMap bytesOf16 ++
    bytesOf16 (clamp16 b.fields.size) ++ b.fields.toList.flatMap fieldBytes ++
    bytesOf16 (clamp16 b.methods.size) ++ b.methods.toList.flatten ++
    match sourceName, b.sourceFile with
    | some name, some file => bytesOf16 1 ++ bytesOf16 name ++ bytesOf32 2 ++ bytesOf16 file
    | _, _ => bytesOf16 0

/-- The bytes of the unit, and the builder with the constants they needed. -/
def build (b : ClassBuilder) : Bytes × ClassBuilder :=
  match b.sourceFile with
  | none => (b.serialize none, b)
  | some _ =>
    let (name, pool) := PoolBuilder.utf8 "SourceFile" b.pool
    let b := { b with pool }
    (b.serialize (some name), b)

end ClassBuilder

/-! ### Steps -/

/-- A step in putting a unit together. -/
inductive ClassStep where
  | interface (name : String)
  | field (access : Nat) (name descriptor : String)
  | method (access : Nat) (name descriptor : String) (body : List CodeStep)
  | source (file : String)
deriving Repr

namespace ClassBuilder

/-- One step. -/
def step (b : ClassBuilder) : ClassStep → ClassBuilder
  | .interface name => b.interface name
  | .field access name descriptor => b.field access name descriptor
  | .method access name descriptor body => b.method access name descriptor body
  | .source file => b.source file

/-- Several steps. -/
def steps (b : ClassBuilder) (l : List ClassStep) : ClassBuilder := l.foldl step b

end ClassBuilder

end CompileWatch
