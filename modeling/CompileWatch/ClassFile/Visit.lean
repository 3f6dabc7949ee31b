import CompileWatch.ClassFile.Instruction

/-!
# Visiting a unit

A unit is read once from front to back, and what it declares is reported in that
order. What was reported before a fault stays reported.

- `Event`: what is reported.
- `ClassFile.visit`: the events of a byte string and how the visit ended.
- `ClassFile.readName`: the unit's own name, reading no further than that.
-/

namespace CompileWatch

/-- What a unit says about itself before its members. -/
structure Header where
  major : Nat
  minor : Nat
  access : Nat
  thisClass : String
  superClass : Option String
  interfaces : List String
deriving DecidableEq, Repr, Inhabited

/-- A declared field or method. -/
structure Member where
  access : Nat
  name : String
  descriptor : String
deriving DecidableEq, Repr, Inhabited

/-- What a visit reports. -/
inductive Event where
  | header (h : Header)
  | field (m : Member)
  | method (m : Member)
  | instruction (i : Instruction)
  /-- The unit was read to its last attribute. -/
  | finished
deriving DecidableEq, Repr, Inhabited

namespace ClassFile

/-- The first four bytes of every unit. -/
def magic : Nat := 0xCAFEBABE

/-! ### The front of a unit -/

/-- The format version of a unit and its constants. -/
structure Prelude where
  minor : Nat
  major : Nat
  pool : ConstantPool

/-- Everything up to the constants. -/
def readPrelude : Read Prelude := do
  let found ← Read.u32
  if found ≠ magic then Read.fail (.badMagic found)
  else
    let minor ← Read.u16
    let major ← Read.u16
    return ⟨minor, major, ← ConstantPool.read⟩

/-- Read `n` things in a row. -/
def readMany (p : Read α) : Nat → Read (List α)
  | 0 => return []
  | n + 1 => do
    let a ← p
    return a :: (← readMany p n)

/-- The name of the class whose number comes next. -/
def readClassName (pool : ConstantPool) : Read String := do
  let index ← Read.u16
  pool.className index

/-- The name of the super class; number zero is for the class that has none. -/
def readSuperName (pool : ConstantPool) : Read (Option String) := do
  let index ← Read.u16
  if index = 0 then return none else return some (← pool.className index)

/-- What the unit says about itself, after its constants. -/
def readHeader (p : Prelude) : Read Header := do
  let access ← Read.u16
  let thisClass ← readClassName p.pool
  let superClass ← readSuperName p.pool
  let count ← Read.u16
  let interfaces ← readMany (readClassName p.pool) count
  return ⟨p.major, p.minor, access, thisClass, superClass, interfaces⟩

/-- A field or method without its attributes. -/
def readMember (pool : ConstantPool) : Read Member := do
  let access ← Read.u16
  let name ← pool.utf8 (← Read.u16)
  let descriptor ← pool.utf8 (← Read.u16)
  return ⟨access, name, descriptor⟩

/-- The code array in the body of a code attribute. What follows it is not read. -/
def readCodeArray : Read Bytes := do
  Read.skip 4
  Read.take (← Read.u32)

/-! ### Reporting -/

/-- The state of a visit. -/
structure Progress where
  cursor : Cursor
  events : Array Event := #[]

/-- A visit in progress: it reads, reports, and may stop. -/
abbrev Walk := ExceptT FormatError (StateM Progress)

namespace Walk

/-- Read something and report nothing. -/
def read (p : Read α) : Walk α := fun s =>
  match p s.cursor with
  | .ok (a, cursor) => (.ok a, { s with cursor })
  | .error e => (.error e, s)

/-- Report an event. -/
def report (e : Event) : Walk Unit := fun s => (.ok (), { s with events := s.events.push e })

/-- Do something `n` times. -/
def times (p : Walk Unit) : Nat → Walk Unit
  | 0 => return ()
  | n + 1 => do
    p
    times p n

/-- Report the instructions of a code array. -/
def code (pool : ConstantPool) (bytes : Bytes) : Walk Unit := fun s =>
  let (instructions, status) := Instruction.decode pool bytes
  (status, { s with events := instructions.foldl (fun es i => es.push (.instruction i)) s.events })

/-- Pass over one attribute. -/
def skipAttribute : Walk Unit := read do
  Read.skip 2
  Read.skip (← Read.u32)

/-- Pass over a counted table of attributes. -/
def skipAttributes : Walk Unit := do
  let count ← read Read.u16
  times skipAttribute count

/-- One field. -/
def field (pool : ConstantPool) : Walk Unit := do
  let m ← read (readMember pool)
  report (.field m)
  skipAttributes

/-- One attribute of a method: the code is reported, any other passed over. -/
def methodAttribute (pool : ConstantPool) : Walk Unit := do
  let name ← read do
    let index ← Read.u16
    pool.utf8 index
  let body ← read do
    let length ← Read.u32
    Read.take length
  if name = "Code" then
    let bytes ← read (Read.within body readCodeArray)
    code pool bytes

/-- One method. -/
def method (pool : ConstantPool) : Walk Unit := do
  let m ← read (readMember pool)
  report (.method m)
  let count ← read Read.u16
  times (methodAttribute pool) count

/-- A whole unit. -/
def unit : Walk Unit := do
  let front ← read readPrelude
  let header ← read (readHeader front)
  report (.header header)
  let fieldCount ← read Read.u16
  times (field front.pool) fieldCount
  let methodCount ← read Read.u16
  times (method front.pool) methodCount
  skipAttributes
  report .finished

end Walk

/-- What a visit reported, and how it ended. -/
structure Visit where
  events : List Event
  status : Except FormatError Unit

/-- Visit the bytes of a unit. Bytes after the last attribute are ignored. -/
def visit (bytes : Bytes) : Visit :=
  let (status, s) := Walk.unit.run ⟨⟨0, bytes⟩, #[]⟩
  ⟨s.events.toList, status⟩

/-- The name that a unit gives itself, as it is spelled inside the unit. -/
def readName (bytes : Bytes) : Except FormatError String :=
  let p : Read String := do
    let front ← readPrelude
    Read.skip 2
    readClassName front.pool
  (p.run ⟨0, bytes⟩).map (·.1)

end ClassFile

end CompileWatch
