import CompileWatch.ClassFile.CodeBuilder
import CompileWatch.Proofs.ClassFile.PoolReading

/-!
# Code read back

A method body is written one step at a time while the pool of its unit grows, and it is
read on the complete pool, without marks between the instructions. Each step leaves bytes
that are read as the one instruction it stands for, at the place where the step wrote it.

- `CodeStep.requests`: the constants that a step asks for.
- `CodeBuilder.reported`: the instruction that a step is read as.
- `CodeStep.Admissible`: steps that say what they write.
- `CodeBuilder.Writes`: what has been written so far is read as these instructions.
- `CodeBuilder.writes_step`, `CodeBuilder.writes_steps`: one step, and all of them.
-/

namespace CompileWatch

/-! ### What a step stands for -/

/-- Opcodes whose operand is resolved through the pool. -/
def Opcode.IsResolved (op : Opcode) : Prop :=
  (Opcode.getStatic ≤ op ∧ op ≤ Opcode.invokeInterface) ∨ op = Opcode.new ∨
    op = Opcode.anewArray ∨ op = Opcode.checkCast ∨ op = Opcode.instanceOf ∨
    op = Opcode.multiANewArray

instance (op : Opcode) : Decidable op.IsResolved := by
  unfold Opcode.IsResolved
  infer_instance

namespace CodeStep

/-- The constants that a step asks for. -/
def requests : CodeStep → List PoolEntry
  | .constant entry | .load entry => [entry]
  | .field _ owner name descriptor => [.member .field owner name descriptor]
  | .invoke _ owner name descriptor => [.member .method owner name descriptor]
  | .invokeInterface owner name descriptor _ => [.member .interfaceMethod owner name descriptor]
  | .type _ name => [.classEntry name]
  | .multiArray descriptor _ => [.classEntry descriptor]
  | .op _ _ | .aload _ | .wideIncrement _ _ | .tableSwitch _ _ | .lookupSwitch _ | .line _
  | .maxStack _ | .maxLocals _ => []

/-- Steps that say what they write: an instruction given by its bytes has as many as its
opcode takes and names nothing, one that is given by what it names has an opcode that names
such a thing, and the keys of a switch are a range of 32-bit numbers. -/
def Admissible : CodeStep → Prop
  | .op opcode operands => opcode.fixedWidth? = some operands.length ∧ ¬ opcode.IsResolved
  | .field opcode _ _ _ => Opcode.getStatic ≤ opcode ∧ opcode ≤ Opcode.putField
  | .invoke opcode _ _ _ => Opcode.invokeVirtual ≤ opcode ∧ opcode ≤ Opcode.invokeStatic
  | .type opcode _ => opcode = Opcode.new ∨ opcode = Opcode.anewArray ∨
      opcode = Opcode.checkCast ∨ opcode = Opcode.instanceOf
  | .tableSwitch low high => -0x80000000 ≤ low ∧ low ≤ high ∧ high < 0x80000000
  | .aload _ | .constant _ | .load _ | .invokeInterface _ _ _ _ | .multiArray _ _
  | .wideIncrement _ _ | .lookupSwitch _ | .line _ | .maxStack _ | .maxLocals _ => True

instance (s : CodeStep) : Decidable s.Admissible := by
  cases s <;> unfold Admissible <;> infer_instance

end CodeStep

namespace CodeBuilder

/-- The instruction that a step is read as, if it writes one: it stands where the body ended
before the step. -/
def reported (b : CodeBuilder) : CodeStep → Option Instruction
  | .op opcode _ =>
    some ⟨b.length, opcode, if opcode = Opcode.invokeDynamic then .dynamic else .none⟩
  | .aload _ => some ⟨b.length, Opcode.aload, .none⟩
  | .load entry => some ⟨b.length, loadOpcode entry (b.constant entry).1, .none⟩
  | .field opcode owner _ _ => some ⟨b.length, opcode, .field owner⟩
  | .invoke opcode owner _ _ => some ⟨b.length, opcode, .method owner⟩
  | .invokeInterface owner _ _ _ => some ⟨b.length, Opcode.invokeInterface, .method owner⟩
  | .type opcode name => some ⟨b.length, opcode, .type name⟩
  | .multiArray descriptor _ => some ⟨b.length, Opcode.multiANewArray, .type descriptor⟩
  | .wideIncrement _ _ => some ⟨b.length, Opcode.wide, .none⟩
  | .tableSwitch _ _ => some ⟨b.length, Opcode.tableSwitch, .none⟩
  | .lookupSwitch _ => some ⟨b.length, Opcode.lookupSwitch, .none⟩
  | .constant _ | .line _ | .maxStack _ | .maxLocals _ => none

/-- The instructions that several steps are read as, in order. -/
def reportedAll (b : CodeBuilder) : List CodeStep → List Instruction
  | [] => []
  | s :: rest => (b.reported s).toList ++ (b.step s).reportedAll rest

end CodeBuilder

/-! ### One instruction -/

namespace Instruction

open Read

variable {pool : ConstantPool} {offset : Nat} {opcode : Opcode}

theorem readOperand_field (h : Opcode.getStatic ≤ opcode ∧ opcode ≤ Opcode.putField) :
    readOperand pool opcode offset = (do
      let index ← u16
      return .field (← pool.memberOwner index)) := by
  rw [readOperand, if_pos h]

theorem readOperand_method (h : Opcode.invokeVirtual ≤ opcode ∧ opcode ≤ Opcode.invokeStatic) :
    readOperand pool opcode offset = (do
      let index ← u16
      return .method (← pool.memberOwner index)) := by
  have hf : ¬(Opcode.getStatic ≤ opcode ∧ opcode ≤ Opcode.putField) := by
    rintro ⟨-, hp⟩
    exact absurd (Nat.le_trans h.1 hp) (by decide)
  rw [readOperand, if_neg hf, if_pos h]

theorem readOperand_type (h : opcode = Opcode.new ∨ opcode = Opcode.anewArray ∨
      opcode = Opcode.checkCast ∨ opcode = Opcode.instanceOf) :
    readOperand pool opcode offset = (do
      let index ← u16
      return .type (← pool.className index)) := by
  rcases h with rfl | rfl | rfl | rfl <;> rfl

/-- What is read in a way of its own either names something or has no fixed width. -/
theorem readOperand_of_not_isResolved (hr : ¬ opcode.IsResolved) (hd : opcode ≠ Opcode.invokeDynamic)
    (hs : opcode ≠ Opcode.tableSwitch ∧ opcode ≠ Opcode.lookupSwitch ∧ opcode ≠ Opcode.wide) :
    readOperand pool opcode offset = skipFixed opcode offset := by
  simp only [Opcode.IsResolved, not_or] at hr
  obtain ⟨hm, hnew, harray, hcast, hinstance, hmulti⟩ := hr
  have hle : ∀ a b : Nat, Opcode.getStatic ≤ a → b ≤ Opcode.invokeInterface →
      ¬(a ≤ opcode ∧ opcode ≤ b) := by
    rintro a b ha hb ⟨h1, h2⟩
    exact hm ⟨Nat.le_trans ha h1, Nat.le_trans h2 hb⟩
  rw [readOperand, if_neg (hle _ _ (by decide) (by decide)),
    if_neg (hle _ _ (by decide) (by decide)),
    if_neg (fun h => hle _ _ (by decide) (by decide) ⟨Nat.le_of_eq h.symm, Nat.le_of_eq h⟩),
    if_neg hd, if_neg (by simp [hnew, harray, hcast, hinstance]), if_neg hmulti,
    if_neg hs.1, if_neg hs.2.1, if_neg hs.2.2]

/-- A switch or a wide instruction has no fixed width. -/
theorem ne_of_fixedWidth? {n : Nat} (h : opcode.fixedWidth? = some n) :
    opcode ≠ Opcode.tableSwitch ∧ opcode ≠ Opcode.lookupSwitch ∧ opcode ≠ Opcode.wide := by
  refine ⟨?_, ?_, ?_⟩ <;> rintro rfl <;> cases h

/-- An opcode that names nothing is measured by its width alone. -/
theorem readsAt_fixed {operands : Bytes} (hw : opcode.fixedWidth? = some operands.length)
    (hr : ¬ opcode.IsResolved) (start : Nat) :
    ReadsAt (readOperand pool opcode offset) start operands
      (if opcode = Opcode.invokeDynamic then .dynamic else .none) := by
  by_cases hd : opcode = Opcode.invokeDynamic
  · subst hd
    have hl : operands.length = 4 := (Option.some.inj hw).symm
    rw [if_pos rfl]
    exact reads_map (reads_skip hl) (fun _ => Operand.dynamic) start
  · rw [readOperand_of_not_isResolved hr hd (ne_of_fixedWidth? hw), if_neg hd, skipFixed, hw]
    exact reads_map (reads_skip rfl) (fun _ => Operand.none) start

/-- An operand that is looked up by its number, with some bytes after the number. -/
theorem reads_resolved {α : Type} {look : Nat → Except FormatError α} {index : Nat} {a : α}
    (f : α → Operand) (hi : index < 0x10000) (hl : look index = .ok a) :
    Reads (do
      let index ← u16
      return f (← look index)) (bytesOf16 index) (f a) :=
  reads_last (reads_u16 hi) (reads_map (reads_ofExcept hl) f)

theorem reads_resolved_more {α : Type} {look : Nat → Except FormatError α} {index : Nat} {a : α}
    (f : α → Operand) (hi : index < 0x10000) (hl : look index = .ok a) (more : Bytes) :
    Reads (do
      let index ← u16
      skip more.length
      return f (← look index)) (bytesOf16 index ++ more) (f a) :=
  reads_bind (reads_u16 hi) (reads_last (reads_skip rfl) (reads_map (reads_ofExcept hl) f))

/-! #### Switches -/

/-- The padding of a switch is what the reader passes over at that place. -/
theorem readsAt_skipPadding (offset : Nat) :
    ReadsAt skipPadding (offset + 1) (CodeBuilder.switchPadding offset) () := by
  have hl : (CodeBuilder.switchPadding offset).length = (4 - (offset + 1) % 4) % 4 := by
    rw [CodeBuilder.switchPadding, List.length_replicate]
    omega
  exact readsAt_bind (reads_offset (offset + 1)) (reads_skip hl _)

theorem readsAt_tableSwitch {low high : Int} (hl : -0x80000000 ≤ low) (hle : low ≤ high)
    (hh : high < 0x80000000) (offset : Nat) :
    ReadsAt (skipTableSwitch offset) (offset + 1)
      (CodeBuilder.tableSwitchOperands offset low high) .none := by
  -- where the cases lead is skipped, so all that counts of it are its four bytes
  have hb : ∃ next : Bytes, next.length = 4 ∧ CodeBuilder.tableSwitchOperands offset low high =
      CodeBuilder.switchPadding offset ++ (next ++ (bytesOfInt32 low ++ (bytesOfInt32 high ++
        (List.replicate (high - low + 1).toNat next).flatten))) := by
    refine ⟨bytesOf32 (min (1 + (CodeBuilder.switchPadding offset).length + 12 +
      (high - low + 1).toNat * 4) maxInt32), rfl, ?_⟩
    simp only [CodeBuilder.tableSwitchOperands, List.append_assoc]
  obtain ⟨next, hn, hb⟩ := hb
  have ht : (List.replicate (high - low + 1).toNat next).flatten.length =
      (high - low + 1).toNat * 4 := by simp [hn]
  rw [hb]
  refine readsAt_bind (readsAt_skipPadding offset) (reads_bind (reads_skip hn) ?_ _)
  refine reads_bind (reads_i32 hl (by omega)) (reads_bind (reads_i32 (by omega) hh) ?_)
  rw [if_neg (by omega)]
  exact reads_map (reads_skip ht) fun _ => Operand.none

theorem readsAt_lookupSwitch {keys : List Int} (hk : keys.length ≤ maxInt32) (offset : Nat) :
    ReadsAt (skipLookupSwitch offset) (offset + 1)
      (CodeBuilder.lookupSwitchOperands offset keys) .none := by
  have hk : keys.length < 0x80000000 := Nat.lt_succ_of_le hk
  -- as above; the number of keys is read as a signed number, and is small enough for one
  have hb : ∃ next : Bytes, next.length = 4 ∧ CodeBuilder.lookupSwitchOperands offset keys =
      CodeBuilder.switchPadding offset ++ (next ++ (bytesOfInt32 keys.length ++
        keys.flatMap fun key => bytesOfInt32 key ++ next)) := by
    refine ⟨bytesOf32 (min (1 + (CodeBuilder.switchPadding offset).length + 8 +
      keys.length * 8) maxInt32), rfl, ?_⟩
    have hc : bytesOf32 (min keys.length maxInt32) = bytesOfInt32 (keys.length : Int) := by
      rw [bytesOfInt32, maxInt32]
      congr 1
      omega
    simp only [CodeBuilder.lookupSwitchOperands, List.append_assoc, hc]
  obtain ⟨next, hn, hb⟩ := hb
  have hp : (keys.flatMap fun key => bytesOfInt32 key ++ next).length =
      (keys.length : Int).toNat * 8 := by
    rw [List.length_flatMap]
    simp [hn, bytesOfInt32, bytesOf32]
  rw [hb]
  refine readsAt_bind (readsAt_skipPadding offset) (reads_bind (reads_skip hn) ?_ _)
  refine reads_bind (reads_i32 (by omega) (by omega)) ?_
  rw [if_neg (by omega)]
  exact reads_map (reads_skip hp) fun _ => Operand.none

/-! #### In front of other instructions -/

theorem decodeFrom_nil (offset : Nat) (before : Array Instruction) :
    decodeFrom pool ⟨offset, []⟩ before = (before, .ok ()) := by
  rw [decodeFrom.eq_def]

/-- An instruction whose operand is read is followed by those after it. -/
theorem decodeFrom_cons_ok {op : UInt8} {rest : Bytes} {operand : Operand} {c : Cursor}
    (h : readOperand pool op.toNat offset ⟨offset + 1, rest⟩ = .ok (operand, c))
    (before : Array Instruction) :
    decodeFrom pool ⟨offset, op :: rest⟩ before =
      decodeFrom pool c (before.push ⟨offset, op.toNat, operand⟩) := by
  rw [decodeFrom.eq_def]
  split
  next hc => cases hc
  next b others hc =>
    obtain ⟨rfl, rfl⟩ := List.cons.inj hc
    split
    next he => cases he.symm.trans h
    next he =>
      cases he.symm.trans h
      rfl

/-- An instruction is read off the front of a code array, and the rest follows. -/
theorem decodeFrom_instruction {op : Nat} (hop : op < 256) {operands : Bytes} {operand : Operand}
    (h : ReadsAt (readOperand pool op offset) (offset + 1) operands operand) (rest : Bytes)
    (before : Array Instruction) :
    decodeFrom pool ⟨offset, UInt8.ofNat op :: operands ++ rest⟩ before =
      decodeFrom pool ⟨offset + (UInt8.ofNat op :: operands).length, rest⟩
        (before.push ⟨offset, op, operand⟩) := by
  have hb : (UInt8.ofNat op).toNat = op := Utf8.toNat_ofNat hop
  have hl : offset + (UInt8.ofNat op :: operands).length = offset + 1 + operands.length := by
    rw [List.length_cons]
    omega
  have hr : readOperand pool (UInt8.ofNat op).toNat offset ⟨offset + 1, operands ++ rest⟩ =
      .ok (operand, ⟨offset + 1 + operands.length, rest⟩) := by rw [hb, h rest]
  rw [List.cons_append, decodeFrom_cons_ok hr, hb, hl]

end Instruction

/-! ### A body -/

theorem Opcode.lt_of_fixedWidth? {op : Opcode} {n : Nat} (h : op.fixedWidth? = some n) :
    op < 256 := by
  obtain ⟨row, hr, -⟩ := Option.map_eq_some_iff.mp h
  have hb : ∀ row ∈ Opcode.widths, row.2.1 < 256 := by decide
  have hrow := hb row (List.mem_of_find?_eq_some hr)
  have hle := List.find?_some hr
  simp only [Bool.and_eq_true, decide_eq_true_eq] at hle
  exact Nat.lt_of_le_of_lt hle.2 hrow

namespace CodeBuilder

open Read Instruction PoolBuilder

variable {all es : List PoolEntry} {b : CodeBuilder} {is : List Instruction}

/-- What has been written of a body, its pool holding the constants `es` so far, is read as
the given instructions on the complete pool, whatever follows. -/
structure Writes (all : List PoolEntry) (b : CodeBuilder) (es : List PoolEntry)
    (is : List Instruction) : Prop where
  pool : b.pool.Stores es
  decodes : ∀ rest, decodeFrom (table all) ⟨0, b.code ++ rest⟩ #[] =
    decodeFrom (table all) ⟨b.length, rest⟩ is.toArray

/-- A body without instructions. -/
theorem writes_empty {pool : PoolBuilder} (h : pool.Stores es) : Writes all { pool } es [] :=
  ⟨h, fun _ => rfl⟩

/-- One more instruction. -/
theorem writes_emit (h : Writes all b es is) {opcode : Opcode} {operands : Bytes}
    {operand : Operand} (hop : opcode < 256)
    (hr : ReadsAt (readOperand (table all) opcode b.length) (b.length + 1) operands operand) :
    Writes all (b.emit opcode operands) es (is ++ [⟨b.length, opcode, operand⟩]) := by
  have hc : (b.emit opcode operands).code = b.code ++ (UInt8.ofNat opcode :: operands) := by
    simp [emit, append, code]
  refine ⟨h.pool, fun rest => ?_⟩
  -- what came before is decoded up to here, whatever follows it
  have hi := decodeFrom_instruction hop hr rest is.toArray
  have ha : is.toArray.push (Instruction.mk b.length opcode operand) =
      (is ++ [Instruction.mk b.length opcode operand]).toArray := by simp
  rw [hc, List.append_assoc, h.decodes]
  show decodeFrom (table all) ⟨b.length, UInt8.ofNat opcode :: operands ++ rest⟩ is.toArray = _
  rw [hi, ha]
  rfl

/-- A constant is stored, and nothing is written. -/
theorem writes_constant (h : Writes all b es is) (e : PoolEntry) :
    Writes all (b.constant e).2 (after es [e]) is :=
  ⟨(interns_intern e b.pool es h.pool).2, h.decodes⟩

/-- The number of a constant is the one that it has in the complete pool. -/
theorem constant_eq_number (h : Writes all b es is) {e : PoolEntry}
    (hp : after es [e] <+: all) : (b.constant e).1 = number all e := by
  rw [number_extend hp (mem_after List.mem_cons_self e.mem_parts)]
  exact (interns_intern e b.pool es h.pool).1

/-- One more instruction on a constant. -/
theorem writes_emitIndex (h : Writes all b es is) {opcode : Opcode} {e : PoolEntry} {more : Bytes}
    {operand : Operand} (hop : opcode < 256) (hp : after es [e] <+: all)
    (hr : Reads (readOperand (table all) opcode b.length) (bytesOf16 (number all e) ++ more)
      operand) :
    Writes all (b.emitIndex opcode e more) (after es [e])
      (is ++ [⟨b.length, opcode, operand⟩]) := by
  have hn := constant_eq_number h hp
  show Writes all ((b.constant e).2.emit opcode (bytesOf16 (b.constant e).1 ++ more)) _ _
  rw [hn]
  exact writes_emit (writes_constant h e) hop (hr _)

/-- Whichever instruction loads a constant, its operand is as wide as it says. -/
theorem loadOpcode_fixed (e : PoolEntry) (n : Nat) :
    (loadOpcode e n).fixedWidth? =
        some (if loadOpcode e n = Opcode.ldc then [UInt8.ofNat n] else bytesOf16 n).length ∧
      ¬ (loadOpcode e n).IsResolved ∧ loadOpcode e n ≠ Opcode.invokeDynamic := by
  have h : loadOpcode e n = Opcode.ldc ∨ loadOpcode e n = Opcode.ldcW ∨
      loadOpcode e n = Opcode.ldc2W := by
    unfold loadOpcode
    repeat' split
    all_goals simp
  rcases h with h | h | h <;> rw [h] <;> exact ⟨rfl, by decide, by decide⟩

/-- An instruction that loads a constant. -/
theorem writes_emitLoad (h : Writes all b es is) (e : PoolEntry) :
    Writes all (b.emitLoad e) (after es [e])
      (is ++ [⟨b.length, loadOpcode e (b.constant e).1, .none⟩]) := by
  obtain ⟨hw, hr, hd⟩ := loadOpcode_fixed e (b.constant e).1
  have hf : ReadsAt (readOperand (table all) _ b.length) (b.length + 1) _ _ :=
    readsAt_fixed hw hr (b.length + 1)
  rw [if_neg hd] at hf
  exact writes_emit (writes_constant h e) (Opcode.lt_of_fixedWidth? hw) hf

/-- What a body has does not change: a step appends, and the length is counted along. -/
theorem exists_code_step (b : CodeBuilder) (s : CodeStep) :
    ∃ bytes, (b.step s).code = b.code ++ bytes ∧ (b.step s).length = b.length + bytes.length := by
  have hemit : ∀ (b : CodeBuilder) op operands, ∃ bytes,
      (b.emit op operands).code = b.code ++ bytes ∧
        (b.emit op operands).length = b.length + bytes.length := by
    intro b op operands
    exact ⟨UInt8.ofNat op :: operands, by simp [emit, append, code], rfl⟩
  have hindex : ∀ op e more, ∃ bytes, (b.emitIndex op e more).code = b.code ++ bytes ∧
      (b.emitIndex op e more).length = b.length + bytes.length :=
    fun op e more => hemit (b.constant e).2 op _
  have hsame : ∃ bytes, b.code = b.code ++ bytes ∧ b.length = b.length + bytes.length :=
    ⟨[], by simp, rfl⟩
  cases s with
  | load e => exact hemit (b.constant e).2 _ _
  | constant e => exact hsame
  | line n => exact hsame
  | maxStack n => exact hsame
  | maxLocals n => exact hsame
  | op opcode operands => exact hemit b _ _
  | aload slot => exact hemit b _ _
  | wideIncrement slot delta => exact hemit b _ _
  | tableSwitch low high => exact hemit b _ _
  | lookupSwitch keys => exact hemit b _ _
  | field opcode owner name descriptor => exact hindex _ _ _
  | invoke opcode owner name descriptor => exact hindex _ _ _
  | invokeInterface owner name descriptor slots => exact hindex _ _ _
  | type opcode name => exact hindex _ _ _
  | multiArray descriptor dimensions => exact hindex _ _ _

theorem exists_code_steps (b : CodeBuilder) (l : List CodeStep) :
    ∃ bytes, (b.steps l).code = b.code ++ bytes ∧ (b.steps l).length = b.length + bytes.length := by
  induction l generalizing b with
  | nil => exact ⟨[], by simp [steps], rfl⟩
  | cons s rest ih =>
    obtain ⟨first, hcode, hlength⟩ := b.exists_code_step s
    obtain ⟨others, hcode', hlength'⟩ := ih (b.step s)
    refine ⟨first ++ others, ?_, ?_⟩
    · rw [← List.append_assoc, ← hcode]
      exact hcode'
    · rw [List.length_append, ← Nat.add_assoc, ← hlength]
      exact hlength'

/-- The listed keys of a switch are fewer than the bytes that it takes. -/
theorem length_keys_le (offset : Nat) (keys : List Int) :
    keys.length * 8 ≤ (lookupSwitchOperands offset keys).length := by
  have hp : ∀ next : Bytes, next.length = 4 →
      (keys.flatMap fun key => bytesOfInt32 key ++ next).length = keys.length * 8 := by
    intro next hn
    rw [List.length_flatMap]
    simp [hn, bytesOfInt32, bytesOf32]
  rw [lookupSwitchOperands, List.length_append, hp _ rfl]
  omega

/-- Whatever constants a step asks for, it leaves what was written before, and its own
instruction, if it writes one, is read after that. -/
theorem writes_step (hf : Fits all) (h : Writes all b es is) {s : CodeStep} (hs : s.Admissible)
    (hp : after es s.requests <+: all) (hl : (b.step s).length < 0x100000000) :
    Writes all (b.step s) (after es s.requests) (is ++ (b.reported s).toList) := by
  -- everything that belongs to a constant asked for is in the complete pool
  have mem : ∀ e ∈ s.requests, ∀ x ∈ e.parts, x ∈ all :=
    fun e he x hx => hp.subset (mem_after he hx)
  have owned : ∀ kind owner name descriptor,
      .member kind owner name descriptor ∈ s.requests →
      (table all).memberOwner (number all (.member kind owner name descriptor)) = .ok owner := by
    intro kind owner name descriptor he
    exact table_memberOwner hf (mem _ he _ (by simp [PoolEntry.parts]))
      (mem _ he _ (by simp [PoolEntry.parts, PoolEntry.before]))
      (mem _ he _ (by simp [PoolEntry.parts, PoolEntry.before]))
  have named : ∀ name, .classEntry name ∈ s.requests →
      (table all).className (number all (.classEntry name)) = .ok name := by
    intro name he
    exact table_className hf (mem _ he _ (by simp [PoolEntry.parts]))
      (mem _ he _ (by simp [PoolEntry.parts, PoolEntry.before, PoolEntry.refs]))
  cases s with
  | op opcode operands =>
    obtain ⟨hw, hr⟩ := hs
    exact writes_emit h (Opcode.lt_of_fixedWidth? hw) (readsAt_fixed hw hr _)
  | aload slot =>
    have hr : ReadsAt (readOperand (table all) Opcode.aload b.length) (b.length + 1)
        [UInt8.ofNat slot] .none := readsAt_fixed rfl (by decide) _
    exact writes_emit h (by decide) hr
  | constant e =>
    have hw := writes_constant h e
    rwa [← List.append_nil is] at hw
  | load e => exact writes_emitLoad h e
  | field opcode owner name descriptor =>
    refine writes_emitIndex h (Nat.lt_of_le_of_lt hs.2 (by decide)) hp ?_
    rw [readOperand_field hs, List.append_nil]
    exact reads_resolved Operand.field (number_lt all _) (owned _ _ _ _ List.mem_cons_self)
  | invoke opcode owner name descriptor =>
    refine writes_emitIndex h (Nat.lt_of_le_of_lt hs.2 (by decide)) hp ?_
    rw [readOperand_method hs, List.append_nil]
    exact reads_resolved Operand.method (number_lt all _) (owned _ _ _ _ List.mem_cons_self)
  | invokeInterface owner name descriptor slots =>
    refine writes_emitIndex h (by decide) hp ?_
    exact reads_resolved_more Operand.method (number_lt all _)
      (owned _ _ _ _ List.mem_cons_self) [UInt8.ofNat slots, 0]
  | type opcode name =>
    have hop : opcode < 256 := by
      rcases hs with rfl | rfl | rfl | rfl <;> decide
    refine writes_emitIndex h hop hp ?_
    rw [readOperand_type hs, List.append_nil]
    exact reads_resolved Operand.type (number_lt all _) (named _ List.mem_cons_self)
  | multiArray descriptor dimensions =>
    refine writes_emitIndex h (by decide) hp ?_
    exact reads_resolved_more Operand.type (number_lt all _) (named _ List.mem_cons_self)
      [UInt8.ofNat dimensions]
  | wideIncrement slot delta =>
    have hr : Reads (skipWide b.length) ([UInt8.ofNat Opcode.iinc] ++
        (bytesOf16 slot ++ bytesOf16 (delta % 0x10000).toNat)) .none :=
      reads_bind (reads_u8 _) (reads_map (reads_skip (n := 4) rfl) fun _ => Operand.none)
    exact writes_emit h (by decide) (hr _)
  | tableSwitch low high =>
    obtain ⟨hlow, hle, hhigh⟩ := hs
    exact writes_emit h (by decide) (readsAt_tableSwitch hlow hle hhigh b.length)
  | lookupSwitch keys =>
    -- a body of 32 bits in length has no room for more keys than can be counted
    have hk := length_keys_le b.length keys
    have hle : (lookupSwitchOperands b.length keys).length ≤
        (b.step (.lookupSwitch keys)).length := by
      show _ ≤ b.length + (_ :: lookupSwitchOperands b.length keys).length
      rw [List.length_cons]
      omega
    refine writes_emit h (by decide) (readsAt_lookupSwitch ?_ b.length)
    rw [maxInt32]
    omega
  -- what is said of the body beside its code
  | line n =>
    rw [show is ++ (b.reported (.line n)).toList = is from List.append_nil is]
    exact ⟨h.pool, h.decodes⟩
  | maxStack n =>
    rw [show is ++ (b.reported (.maxStack n)).toList = is from List.append_nil is]
    exact ⟨h.pool, h.decodes⟩
  | maxLocals n =>
    rw [show is ++ (b.reported (.maxLocals n)).toList = is from List.append_nil is]
    exact ⟨h.pool, h.decodes⟩

/-- What several steps write is read as their instructions in a row. -/
theorem writes_steps (hf : Fits all) (h : Writes all b es is) {l : List CodeStep}
    (hs : ∀ s ∈ l, s.Admissible) (hp : after es (l.flatMap CodeStep.requests) <+: all)
    (hl : (b.steps l).length < 0x100000000) :
    Writes all (b.steps l) (after es (l.flatMap CodeStep.requests)) (is ++ b.reportedAll l) := by
  induction l generalizing b es is with
  | nil =>
    rw [show is ++ b.reportedAll [] = is from List.append_nil is]
    exact h
  | cons s rest ih =>
    rw [List.flatMap_cons, after_append] at hp ⊢
    -- both what the first step asks for and how long it leaves the body are bounded by the end
    have hfirst : after es s.requests <+: all :=
      List.IsPrefix.trans (prefix_after _ (rest.flatMap CodeStep.requests)) hp
    have hshort : (b.step s).length < 0x100000000 := by
      obtain ⟨bytes, -, hb⟩ := exists_code_steps (b.step s) rest
      have hl : ((b.step s).steps rest).length < 0x100000000 := hl
      omega
    have hstep := writes_step hf h (hs s List.mem_cons_self) hfirst hshort
    have hrest := ih hstep (fun s' hs' => hs s' (List.mem_cons_of_mem s hs')) hp hl
    rwa [List.append_assoc] at hrest

/-- A finished body is decoded as its instructions, to its end. -/
theorem decode_of_writes (h : Writes all b es is) :
    decode (table all) b.code = (is.toArray, .ok ()) := by
  have hd := h.decodes []
  rw [List.append_nil, decodeFrom_nil] at hd
  exact hd

end CodeBuilder

end CompileWatch
