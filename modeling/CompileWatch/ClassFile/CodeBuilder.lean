import CompileWatch.ClassFile.Opcode
import CompileWatch.ClassFile.PoolBuilder

/-!
# Building code

The body of a method is written one step at a time. A step that names something
stores its constant in the pool of the unit.

- `CodeStep`: what can be appended to a body.
- `CodeBuilder.step`: one step.
-/

namespace CompileWatch

/-- A step in writing a method body. -/
inductive CodeStep where
  /-- An instruction with its operand bytes. -/
  | op (opcode : Opcode) (operands : Bytes)
  /-- Load a reference from a local variable. -/
  | aload (slot : Nat)
  /-- Store a constant that no instruction loads. -/
  | constant (entry : PoolEntry)
  /-- Load a constant. -/
  | load (entry : PoolEntry)
  /-- Get or put a field. -/
  | field (opcode : Opcode) (owner name descriptor : String)
  /-- Call a method. -/
  | invoke (opcode : Opcode) (owner name descriptor : String)
  /-- Call a method of an interface. -/
  | invokeInterface (owner name descriptor : String) (slots : Nat)
  /-- An instruction on a class. -/
  | type (opcode : Opcode) (name : String)
  /-- Make an array of several dimensions. -/
  | multiArray (descriptor : String) (dimensions : Nat)
  /-- Add to a local variable, both numbers wide. -/
  | wideIncrement (slot : Nat) (delta : Int)
  /-- A switch over a range of keys, each case being the next instruction. -/
  | tableSwitch (low high : Int)
  /-- A switch over listed keys, each case being the next instruction. -/
  | lookupSwitch (keys : List Int)
  /-- The next instruction belongs to a source line. -/
  | line (n : Nat)
  /-- The depth of the operand stack. -/
  | maxStack (n : Nat)
  /-- The number of local variables. -/
  | maxLocals (n : Nat)
deriving Repr

/-- A method body in the making, with the constants of its unit. -/
structure CodeBuilder where
  pool : PoolBuilder
  chunks : Array Bytes := #[]
  /-- How many bytes the body has. -/
  length : Nat := 0
  maxStack : Nat := 8
  maxLocals : Nat := 8
  /-- Places in the code with their source lines. -/
  lines : Array (Nat × Nat) := #[]

namespace CodeBuilder

/-- The code so far. -/
def code (b : CodeBuilder) : Bytes := b.chunks.toList.flatten

/-- Append bytes. -/
def append (b : CodeBuilder) (bytes : Bytes) : CodeBuilder :=
  { b with chunks := b.chunks.push bytes, length := b.length + bytes.length }

/-- Append an instruction. -/
def emit (b : CodeBuilder) (opcode : Opcode) (operands : Bytes) : CodeBuilder :=
  b.append (UInt8.ofNat opcode :: operands)

/-- The number of a constant, stored in the pool if it is new. -/
def constant (b : CodeBuilder) (entry : PoolEntry) : Nat × CodeBuilder :=
  let (index, pool) := PoolBuilder.intern entry b.pool
  (index, { b with pool })

/-- Append an instruction on a constant. -/
def emitIndex (b : CodeBuilder) (opcode : Opcode) (entry : PoolEntry) (more : Bytes) :
    CodeBuilder :=
  let (index, b) := b.constant entry
  b.emit opcode (bytesOf16 index ++ more)

/-- The instruction that loads a constant: a long has one of its own, and the others have
the short one where their number fits a byte. -/
def loadOpcode (entry : PoolEntry) (index : Nat) : Opcode :=
  match entry with
  | .long _ => Opcode.ldc2W
  | _ => if index < 0x100 then Opcode.ldc else Opcode.ldcW

/-- Append an instruction that loads a constant. -/
def emitLoad (b : CodeBuilder) (entry : PoolEntry) : CodeBuilder :=
  let (index, b) := b.constant entry
  let opcode := loadOpcode entry index
  b.emit opcode (if opcode = Opcode.ldc then [UInt8.ofNat index] else bytesOf16 index)

/-- The zeros between a switch at `offset` and its fields. -/
def switchPadding (offset : Nat) : Bytes := List.replicate (3 - offset % 4) 0

/-- The fields of a switch over a range of keys that starts at `offset`. -/
def tableSwitchOperands (offset : Nat) (low high : Int) : Bytes :=
  let padding := switchPadding offset
  let targets := (high - low + 1).toNat
  let next := bytesOf32 (min (1 + padding.length + 12 + targets * 4) maxInt32)
  padding ++ next ++ bytesOfInt32 low ++ bytesOfInt32 high ++ (List.replicate targets next).flatten

/-- The fields of a switch over listed keys that starts at `offset`. -/
def lookupSwitchOperands (offset : Nat) (keys : List Int) : Bytes :=
  let padding := switchPadding offset
  let next := bytesOf32 (min (1 + padding.length + 8 + keys.length * 8) maxInt32)
  padding ++ next ++ bytesOf32 (min keys.length maxInt32) ++
    keys.flatMap fun key => bytesOfInt32 key ++ next

/-- One step. -/
def step (b : CodeBuilder) : CodeStep → CodeBuilder
  | .op opcode operands => b.emit opcode operands
  | .aload slot => b.emit Opcode.aload [UInt8.ofNat slot]
  | .constant entry => (b.constant entry).2
  | .load entry => b.emitLoad entry
  | .field opcode owner name descriptor =>
    b.emitIndex opcode (.member .field owner name descriptor) []
  | .invoke opcode owner name descriptor =>
    b.emitIndex opcode (.member .method owner name descriptor) []
  | .invokeInterface owner name descriptor slots =>
    b.emitIndex Opcode.invokeInterface (.member .interfaceMethod owner name descriptor)
      [UInt8.ofNat slots, 0]
  | .type opcode name => b.emitIndex opcode (.classEntry name) []
  | .multiArray descriptor dimensions =>
    b.emitIndex Opcode.multiANewArray (.classEntry descriptor) [UInt8.ofNat dimensions]
  | .wideIncrement slot delta =>
    b.emit Opcode.wide
      (UInt8.ofNat Opcode.iinc :: bytesOf16 slot ++ bytesOf16 (delta % 0x10000).toNat)
  | .tableSwitch low high => b.emit Opcode.tableSwitch (tableSwitchOperands b.length low high)
  | .lookupSwitch keys => b.emit Opcode.lookupSwitch (lookupSwitchOperands b.length keys)
  | .line n => { b with lines := b.lines.push (clamp16 b.length, clamp16 n) }
  | .maxStack n => { b with maxStack := n }
  | .maxLocals n => { b with maxLocals := n }

/-- Several steps. -/
def steps (b : CodeBuilder) (l : List CodeStep) : CodeBuilder := l.foldl step b

end CodeBuilder

end CompileWatch
