import CompileWatch.ClassFile.ConstantPool
import CompileWatch.ClassFile.Opcode

/-!
# Instructions

The code of a method is a sequence of instructions without marks between them, so
each must be measured to find the next.

- `Instruction.readOperand`: the operand of an opcode, and with it the length.
- `Instruction.decode`: the instructions of a code array, up to the first fault.
-/

namespace CompileWatch

/-- What an instruction names, as far as it names a class. -/
inductive Operand where
  | none
  | field (owner : String)
  | method (owner : String)
  | type (name : String)
  | dynamic
deriving DecidableEq, Repr, Inhabited

/-- An instruction at its place in the code. -/
structure Instruction where
  offset : Nat
  opcode : Opcode
  operand : Operand
deriving DecidableEq, Repr, Inhabited

namespace Instruction

/-- Pass over the padding of a switch: its fields start at a multiple of four. -/
def skipPadding : Read Unit := do
  let offset ← Read.offset
  Read.skip ((4 - offset % 4) % 4)

/-- A switch over a range of keys. -/
def skipTableSwitch (offset : Nat) : Read Operand := do
  skipPadding
  Read.skip 4
  let low ← Read.i32
  let high ← Read.i32
  if high < low then Read.fail (.malformedSwitch offset)
  else
    Read.skip ((high - low + 1).toNat * 4)
    return .none

/-- A switch over listed keys. -/
def skipLookupSwitch (offset : Nat) : Read Operand := do
  skipPadding
  Read.skip 4
  let pairs ← Read.i32
  if pairs < 0 then Read.fail (.malformedSwitch offset)
  else
    Read.skip (pairs.toNat * 8)
    return .none

/-- An instruction with a wide local variable. -/
def skipWide (offset : Nat) : Read Operand := do
  let widened ← Read.u8
  if widened = Opcode.iinc then
    Read.skip 4
    return .none
  else if Opcode.isWidenable widened then
    Read.skip 2
    return .none
  else Read.fail (.invalidOpcode widened offset)

/-- An instruction that names nothing. -/
def skipFixed (opcode : Opcode) (offset : Nat) : Read Operand :=
  match opcode.fixedWidth? with
  | some n => do
    Read.skip n
    return .none
  | none => Read.fail (.invalidOpcode opcode offset)

/-- The operand of an opcode that stood at `offset`. -/
def readOperand (pool : ConstantPool) (opcode : Opcode) (offset : Nat) : Read Operand :=
  if Opcode.getStatic ≤ opcode ∧ opcode ≤ Opcode.putField then do
    let index ← Read.u16
    return .field (← pool.memberOwner index)
  else if Opcode.invokeVirtual ≤ opcode ∧ opcode ≤ Opcode.invokeStatic then do
    let index ← Read.u16
    return .method (← pool.memberOwner index)
  else if opcode = Opcode.invokeInterface then do
    let index ← Read.u16
    Read.skip 2
    return .method (← pool.memberOwner index)
  else if opcode = Opcode.invokeDynamic then do
    Read.skip 4
    return .dynamic
  else if opcode = Opcode.new ∨ opcode = Opcode.anewArray ∨ opcode = Opcode.checkCast ∨
      opcode = Opcode.instanceOf then do
    let index ← Read.u16
    return .type (← pool.className index)
  else if opcode = Opcode.multiANewArray then do
    let index ← Read.u16
    Read.skip 1
    return .type (← pool.className index)
  else if opcode = Opcode.tableSwitch then skipTableSwitch offset
  else if opcode = Opcode.lookupSwitch then skipLookupSwitch offset
  else if opcode = Opcode.wide then skipWide offset
  else skipFixed opcode offset

/-! ### Operands take bytes off the front -/

/-- Padding is skipped. -/
theorem shrinks_skipPadding : Read.Shrinks skipPadding :=
  Read.shrinks_bind Read.shrinks_offset fun _ => Read.shrinks_skip _

/-- The operands of a table switch are read, and none is given back. -/
theorem shrinks_skipTableSwitch (offset : Nat) : Read.Shrinks (skipTableSwitch offset) := by
  refine Read.shrinks_bind shrinks_skipPadding fun _ => Read.shrinks_bind (Read.shrinks_skip 4)
    fun _ => Read.shrinks_bind Read.shrinks_i32 fun _ => Read.shrinks_bind Read.shrinks_i32
    fun _ => ?_
  split
  · exact Read.shrinks_fail _
  · exact Read.shrinks_bind (Read.shrinks_skip _) fun _ => Read.shrinks_pure _

/-- The operands of a lookup switch are read, and none is given back. -/
theorem shrinks_skipLookupSwitch (offset : Nat) : Read.Shrinks (skipLookupSwitch offset) := by
  refine Read.shrinks_bind shrinks_skipPadding fun _ => Read.shrinks_bind (Read.shrinks_skip 4)
    fun _ => Read.shrinks_bind Read.shrinks_i32 fun _ => ?_
  split
  · exact Read.shrinks_fail _
  · exact Read.shrinks_bind (Read.shrinks_skip _) fun _ => Read.shrinks_pure _

theorem shrinks_skipWide (offset : Nat) : Read.Shrinks (skipWide offset) := by
  refine Read.shrinks_bind Read.shrinks_u8 fun _ => ?_
  split
  · exact Read.shrinks_bind (Read.shrinks_skip _) fun _ => Read.shrinks_pure _
  · split
    · exact Read.shrinks_bind (Read.shrinks_skip _) fun _ => Read.shrinks_pure _
    · exact Read.shrinks_fail _

theorem shrinks_skipFixed (opcode : Opcode) (offset : Nat) :
    Read.Shrinks (skipFixed opcode offset) := by
  unfold skipFixed
  split
  · exact Read.shrinks_bind (Read.shrinks_skip _) fun _ => Read.shrinks_pure _
  · exact Read.shrinks_fail _

/-- No instruction gives bytes back. -/
theorem shrinks_readOperand (pool : ConstantPool) (opcode : Opcode) (offset : Nat) :
    Read.Shrinks (readOperand pool opcode offset) := by
  have resolve {α β : Type} (r : Except FormatError α) (f : α → β) :
      Read.Shrinks (do return f (← r) : Read β) :=
    Read.shrinks_bind (Read.shrinks_ofExcept r) fun _ => Read.shrinks_pure _
  unfold readOperand
  repeat' split
  · exact Read.shrinks_bind Read.shrinks_u16 fun _ => resolve _ _
  · exact Read.shrinks_bind Read.shrinks_u16 fun _ => resolve _ _
  · exact Read.shrinks_bind Read.shrinks_u16 fun _ =>
      Read.shrinks_bind (Read.shrinks_skip _) fun _ => resolve _ _
  · exact Read.shrinks_bind (Read.shrinks_skip _) fun _ => Read.shrinks_pure _
  · exact Read.shrinks_bind Read.shrinks_u16 fun _ => resolve _ _
  · exact Read.shrinks_bind Read.shrinks_u16 fun _ =>
      Read.shrinks_bind (Read.shrinks_skip _) fun _ => resolve _ _
  · exact shrinks_skipTableSwitch offset
  · exact shrinks_skipLookupSwitch offset
  · exact shrinks_skipWide offset
  · exact shrinks_skipFixed opcode offset

/-! ### A whole code array -/

/-- The instructions from a cursor on, added to those before it, and the fault that
stops them, if any. -/
def decodeFrom (pool : ConstantPool) (c : Cursor) (before : Array Instruction) :
    Array Instruction × Except FormatError Unit :=
  match _hc : c.rest with
  | [] => (before, .ok ())
  | op :: rest =>
    match _h : readOperand pool op.toNat c.offset ⟨c.offset + 1, rest⟩ with
    | .error e => (before, .error e)
    | .ok (operand, c') => decodeFrom pool c' (before.push ⟨c.offset, op.toNat, operand⟩)
termination_by c.rest.length
decreasing_by
  have : c'.rest.length ≤ rest.length := shrinks_readOperand pool op.toNat c.offset _ _ _ _h
  simp only [_hc, List.length_cons]
  omega

/-- The instructions of a code array, and the fault that stops them, if any. -/
def decode (pool : ConstantPool) (code : Bytes) : Array Instruction × Except FormatError Unit :=
  decodeFrom pool ⟨0, code⟩ #[]

end Instruction

end CompileWatch
