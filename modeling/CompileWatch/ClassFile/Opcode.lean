/-!
# Opcodes

The instructions that have names here, and the widths of their operands.
-/

namespace CompileWatch

/-- The first byte of an instruction, as a number below 256. -/
abbrev Opcode := Nat

namespace Opcode

def aconstNull : Opcode := 0x01
def ldc : Opcode := 0x12
def ldcW : Opcode := 0x13
def ldc2W : Opcode := 0x14
def aload : Opcode := 0x19
def pop : Opcode := 0x57
def iinc : Opcode := 0x84
def tableSwitch : Opcode := 0xaa
def lookupSwitch : Opcode := 0xab
def ireturn : Opcode := 0xac
def areturn : Opcode := 0xb0
def voidReturn : Opcode := 0xb1
def getStatic : Opcode := 0xb2
def putStatic : Opcode := 0xb3
def getField : Opcode := 0xb4
def putField : Opcode := 0xb5
def invokeVirtual : Opcode := 0xb6
def invokeSpecial : Opcode := 0xb7
def invokeStatic : Opcode := 0xb8
def invokeInterface : Opcode := 0xb9
def invokeDynamic : Opcode := 0xba
def new : Opcode := 0xbb
def anewArray : Opcode := 0xbd
def checkCast : Opcode := 0xc0
def instanceOf : Opcode := 0xc1
def wide : Opcode := 0xc4
def multiANewArray : Opcode := 0xc5

/-- The operand widths: a first and a last opcode, and the bytes that follow each
opcode from the one to the other. An opcode in no row has no fixed width. -/
def widths : List (Opcode × Opcode × Nat) :=
  [(0x00, 0x0f, 0), (0x10, 0x10, 1), (0x11, 0x11, 2), (0x12, 0x12, 1), (0x13, 0x14, 2),
   (0x15, 0x19, 1), (0x1a, 0x35, 0), (0x36, 0x3a, 1), (0x3b, 0x83, 0), (0x84, 0x84, 2),
   (0x85, 0x98, 0), (0x99, 0xa8, 2), (0xa9, 0xa9, 1), (0xac, 0xb1, 0), (0xb2, 0xb8, 2),
   (0xb9, 0xba, 4), (0xbb, 0xbb, 2), (0xbc, 0xbc, 1), (0xbd, 0xbd, 2), (0xbe, 0xbf, 0),
   (0xc0, 0xc1, 2), (0xc2, 0xc3, 0), (0xc5, 0xc5, 3), (0xc6, 0xc7, 2), (0xc8, 0xc9, 4),
   (0xca, 0xca, 0), (0xfe, 0xff, 0)]

/-- The operand bytes after an opcode of fixed width. -/
def fixedWidth? (op : Opcode) : Option Nat :=
  (widths.find? fun r => r.1 ≤ op && op ≤ r.2.1).map (·.2.2)

/-- Whether the opcode takes a local variable whose number a wide mark can extend. -/
def isWidenable (op : Opcode) : Bool :=
  (0x15 ≤ op && op ≤ 0x19) || (0x36 ≤ op && op ≤ 0x3a) || op == 0xa9

end Opcode

end CompileWatch
