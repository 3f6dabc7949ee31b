import CompileWatch.Proofs.ClassFile.CodeReading
import CompileWatch.Proofs.ClassFile.Fields

/-!
# Instructions tile the code

The code of a method can be decoded exactly if it is one instruction after another, each as long as
its own bytes say, and everything that an instruction names is in the constant pool. The decoder
then reports these very instructions, and no number in the code makes it ask for more bytes than a
64-bit place can reach.

- `Instruction.size?`: how long an instruction is, from its opcode, its place and its operands.
- `Instruction.operandOf`: what an instruction names.
- `Instruction.Tiles`: code that is one instruction after another.
- `Instruction.readOperand_eq_ok_iff`: when the operand of an opcode can be read.
- `Instruction.decode_tiles`: decoding.
-/

namespace CompileWatch

/-! ### Sizes -/

namespace Instruction

/-- The bytes between the opcode of a switch and its fields, which start at a multiple of four. -/
def padding (offset : Nat) : Nat := (4 - (offset + 1) % 4) % 4

/-- How long the instruction at an offset is, as its opcode and its operands say. -/
def size? (offset : Nat) (opcode : Opcode) (operands : Bytes) : Option Nat :=
  if opcode = Opcode.tableSwitch then
    let low := int32At operands (padding offset + 4)
    let high := int32At operands (padding offset + 8)
    if low ≤ high then some (1 + padding offset + 12 + 4 * (high - low + 1).toNat) else none
  else if opcode = Opcode.lookupSwitch then
    let pairs := int32At operands (padding offset + 4)
    if 0 ≤ pairs then some (1 + padding offset + 8 + 8 * pairs.toNat) else none
  else if opcode = Opcode.wide then
    match operands with
    | [] => none
    | widened :: _ =>
      if widened.toNat = Opcode.iinc then some 6
      else if Opcode.isWidenable widened.toNat then some 4
      else none
  else opcode.fixedWidth?.map (1 + ·)

/-- What an instruction names, looked up by the number in its first two operand bytes. -/
def operandOf (pool : ConstantPool) (opcode : Opcode) (operands : Bytes) :
    Except FormatError Operand :=
  if Opcode.getStatic ≤ opcode ∧ opcode ≤ Opcode.putField then
    (pool.memberOwner (word16At operands 0)).map .field
  else if Opcode.invokeVirtual ≤ opcode ∧ opcode ≤ Opcode.invokeInterface then
    (pool.memberOwner (word16At operands 0)).map .method
  else if opcode = Opcode.invokeDynamic then .ok .dynamic
  else if opcode.IsResolved then (pool.className (word16At operands 0)).map .type
  else .ok .none

/-- Code from an offset on that is one instruction after another, up to its end. -/
inductive Tiles (pool : ConstantPool) : Nat → Bytes → List Instruction → Prop where
  | done {offset : Nat} : Tiles pool offset [] []
  | next {offset : Nat} {opcode : UInt8} {operands rest : Bytes} {operand : Operand}
      {others : List Instruction}
      (hsize : size? offset opcode.toNat operands = some (1 + operands.length))
      (hoperand : operandOf pool opcode.toNat operands = .ok operand)
      (hrest : Tiles pool (offset + (1 + operands.length)) rest others) :
      Tiles pool offset (opcode :: operands ++ rest) (⟨offset, opcode.toNat, operand⟩ :: others)

/-! ### One operand -/

open Read

variable {pool : ConstantPool} {offset n : Nat} {opcode : Opcode} {rest : Bytes} {operand : Operand}
  {c : Cursor}

/-- The padding in front of the fields of a switch. -/
theorem skipPadding_bind_eq_ok_iff {f : Unit → Read Operand} {r : Operand × Cursor} :
    (skipPadding >>= f) ⟨offset + 1, rest⟩ = .ok r ↔ padding offset ≤ rest.length ∧
      f () ⟨offset + 1 + padding offset, rest.drop (padding offset)⟩ = .ok r :=
  (takes_skip (padding offset)).bind_eq_ok_iff (f := f)

/-- The rest of an operand that is not looked up. -/
theorem skip_return_eq_ok_iff {n : Nat} {x : Operand} :
    (do skip n; return x) ⟨offset, rest⟩ = .ok (operand, c) ↔ n ≤ rest.length ∧
      (.ok x : Except FormatError Operand) = .ok operand ∧ c = ⟨offset + n, rest.drop n⟩ := by
  rw [(takes_skip n).bind_eq_ok_iff]
  refine and_congr_right fun _ => ?_
  show Except.ok (x, _) = _ ↔ _
  simp [eq_comm]

/-- An operand that takes as many bytes as its size says, and names what is looked up. -/
def Measured (pool : ConstantPool) (opcode : Opcode) (offset : Nat) (rest : Bytes)
    (operand : Operand) (c : Cursor) : Prop :=
  ∃ n, size? offset opcode rest = some (1 + n) ∧ n ≤ rest.length ∧
    operandOf pool opcode rest = .ok operand ∧ c = ⟨offset + 1 + n, rest.drop n⟩

/-- An instruction of known size is measured if its bytes are there and its operand can be looked
up. -/
theorem measured_iff_of_size {m : Nat} {r : Except FormatError Operand}
    (hsize : size? offset opcode rest = some (1 + m)) (hoperand : operandOf pool opcode rest = r) :
    Measured pool opcode offset rest operand c ↔
      m ≤ rest.length ∧ r = .ok operand ∧ c = ⟨offset + 1 + m, rest.drop m⟩ := by
  constructor
  · rintro ⟨n, hn, h⟩
    obtain rfl : m = n := by
      rw [hsize] at hn
      exact Nat.add_left_cancel (Option.some.inj hn)
    rwa [hoperand] at h
  · rintro ⟨hm, h⟩
    exact ⟨m, hsize, hm, hoperand.trans h.1, h.2⟩

/-- An instruction without a size is not measured. -/
theorem not_measured_of_size (hsize : size? offset opcode rest = none) :
    ¬ Measured pool opcode offset rest operand c := by
  rintro ⟨n, hn, -⟩
  rw [hsize] at hn
  cases hn

/-- An instruction that names nothing is not looked up. -/
theorem operandOf_of_not_isResolved (h : ¬ opcode.IsResolved) :
    operandOf pool opcode rest =
      .ok (if opcode = Opcode.invokeDynamic then .dynamic else .none) := by
  have hne : ∀ a b : Nat, Opcode.getStatic ≤ a → b ≤ Opcode.invokeInterface →
      ¬(a ≤ opcode ∧ opcode ≤ b) :=
    fun a b ha hb hop => h (.inl ⟨Nat.le_trans ha hop.1, Nat.le_trans hop.2 hb⟩)
  rw [operandOf, if_neg (hne _ _ (by decide) (by decide)), if_neg (hne _ _ (by decide) (by decide)),
    if_neg h]
  split <;> rfl

/-! #### Switches and wide instructions -/

/-- A table switch has a jump for each number between its bounds. -/
theorem size?_tableSwitch (offset : Nat) (operands : Bytes) :
    size? offset Opcode.tableSwitch operands =
      let low := int32At operands (padding offset + 4)
      let high := int32At operands (padding offset + 8)
      if low ≤ high then some (1 + padding offset + 12 + 4 * (high - low + 1).toNat) else none := by
  unfold size?
  rw [if_pos rfl]

/-- A lookup switch has a pair for each of its cases. -/
theorem size?_lookupSwitch (offset : Nat) (operands : Bytes) :
    size? offset Opcode.lookupSwitch operands =
      let pairs := int32At operands (padding offset + 4)
      if 0 ≤ pairs then some (1 + padding offset + 8 + 8 * pairs.toNat) else none := by
  unfold size?
  rw [if_neg (by decide), if_pos rfl]

theorem size?_wide_nil (offset : Nat) : size? offset Opcode.wide [] = none := by
  unfold size?
  rw [if_neg (by decide), if_neg (by decide), if_pos rfl]

/-- The size of a wide instruction depends on the instruction that it widens. -/
theorem size?_wide (offset : Nat) (widened : UInt8) (rest : Bytes) :
    size? offset Opcode.wide (widened :: rest) =
      if widened.toNat = Opcode.iinc then some 6
      else if Opcode.isWidenable widened.toNat then some 4
      else none := by
  unfold size?
  rw [if_neg (by decide), if_neg (by decide), if_pos rfl]

/-- A table switch is skipped exactly when it is measured. -/
theorem skipTableSwitch_eq_ok_iff :
    skipTableSwitch offset ⟨offset + 1, rest⟩ = .ok (operand, c) ↔
      Measured pool Opcode.tableSwitch offset rest operand c := by
  have hoperand : operandOf pool Opcode.tableSwitch rest = .ok .none :=
    operandOf_of_not_isResolved (by decide)
  have hsize := size?_tableSwitch offset rest
  rw [skipTableSwitch, skipPadding_bind_eq_ok_iff, (takes_skip 4).bind_eq_ok_iff,
    takes_i32.bind_eq_ok_iff, takes_i32.bind_eq_ok_iff]
  simp only [int32At_drop, List.drop_drop, List.length_drop, Nat.add_assoc, Nat.add_zero,
    Nat.reduceAdd] at hsize ⊢
  generalize int32At rest (padding offset + 4) = low at *
  generalize int32At rest (padding offset + 8) = high at *
  by_cases h : high < low
  · have hnone : ¬ Measured pool _ offset rest operand c :=
      not_measured_of_size (hsize.trans (if_neg (Int.not_le.mpr h)))
    simp [h, hnone, Read.fail]
  · rw [measured_iff_of_size (hsize.trans (if_pos (Int.not_lt.mp h))) hoperand]
    have htotal : padding offset + 12 + (high - low + 1).toNat * 4 =
        padding offset + (12 + 4 * (high - low + 1).toNat) := by omega
    have hcursor : Cursor.mk (offset + (1 + (padding offset + 12)) + (high - low + 1).toNat * 4)
        ((rest.drop (padding offset + 12)).drop ((high - low + 1).toNat * 4)) =
        ⟨offset + 1 + (padding offset + (12 + 4 * (high - low + 1).toNat)),
          rest.drop (padding offset + (12 + 4 * (high - low + 1).toNat))⟩ := by
      rw [List.drop_drop, htotal]
      congr 1
      omega
    rw [if_neg h, skip_return_eq_ok_iff, hcursor, List.length_drop]
    constructor
    · rintro ⟨-, -, -, hfields, hcases, h⟩
      exact ⟨by omega, h⟩
    · rintro ⟨hall, h⟩
      exact ⟨by omega, by omega, by omega, by omega, by omega, h⟩

theorem skipLookupSwitch_eq_ok_iff :
    skipLookupSwitch offset ⟨offset + 1, rest⟩ = .ok (operand, c) ↔
      Measured pool Opcode.lookupSwitch offset rest operand c := by
  have hoperand : operandOf pool Opcode.lookupSwitch rest = .ok .none :=
    operandOf_of_not_isResolved (by decide)
  have hsize := size?_lookupSwitch offset rest
  rw [skipLookupSwitch, skipPadding_bind_eq_ok_iff, (takes_skip 4).bind_eq_ok_iff,
    takes_i32.bind_eq_ok_iff]
  simp only [int32At_drop, List.drop_drop, List.length_drop, Nat.add_assoc, Nat.add_zero,
    Nat.reduceAdd] at hsize ⊢
  generalize int32At rest (padding offset + 4) = pairs at *
  by_cases h : pairs < 0
  · have hnone : ¬ Measured pool _ offset rest operand c :=
      not_measured_of_size (hsize.trans (if_neg (Int.not_le.mpr h)))
    simp [h, hnone, Read.fail]
  · rw [measured_iff_of_size (hsize.trans (if_pos (Int.not_lt.mp h))) hoperand]
    have htotal : padding offset + 8 + pairs.toNat * 8 =
        padding offset + (8 + 8 * pairs.toNat) := by
      omega
    have hcursor : Cursor.mk (offset + (1 + (padding offset + 8)) + pairs.toNat * 8)
        ((rest.drop (padding offset + 8)).drop (pairs.toNat * 8)) =
        ⟨offset + 1 + (padding offset + (8 + 8 * pairs.toNat)),
          rest.drop (padding offset + (8 + 8 * pairs.toNat))⟩ := by
      rw [List.drop_drop, htotal]
      congr 1
      omega
    rw [if_neg h, skip_return_eq_ok_iff, hcursor, List.length_drop]
    constructor
    · rintro ⟨-, -, hfields, hcases, h⟩
      exact ⟨by omega, h⟩
    · rintro ⟨hall, h⟩
      exact ⟨by omega, by omega, by omega, by omega, h⟩

theorem skipWide_eq_ok_iff :
    skipWide offset ⟨offset + 1, rest⟩ = .ok (operand, c) ↔
      Measured pool Opcode.wide offset rest operand c := by
  have hoperand : operandOf pool Opcode.wide rest = .ok .none :=
    operandOf_of_not_isResolved (by decide)
  rw [skipWide, takes_u8.bind_eq_ok_iff]
  cases rest with
  | nil =>
    have hnone : ¬ Measured pool Opcode.wide offset [] operand c :=
      not_measured_of_size (size?_wide_nil offset)
    simp [hnone]
  | cons widened rest =>
    have hsize := size?_wide offset widened rest
    have hwidened : byteAt (widened :: rest) 0 = widened.toNat := rfl
    -- the local variable is two bytes, and what is added to it two more
    have hskip (k : Nat) : (1 ≤ (widened :: rest).length ∧ (do skip k; return Operand.none)
        ⟨offset + 1 + 1, (widened :: rest).drop 1⟩ = .ok (operand, c)) ↔
        1 + k ≤ (widened :: rest).length ∧
          (.ok .none : Except FormatError Operand) = .ok operand ∧
          c = ⟨offset + 1 + (1 + k), (widened :: rest).drop (1 + k)⟩ := by
      rw [skip_return_eq_ok_iff, List.drop_drop, Nat.add_assoc (offset + 1), List.length_drop,
        List.length_cons]
      constructor
      · rintro ⟨-, hk, h⟩
        exact ⟨by omega, h⟩
      · rintro ⟨hk, h⟩
        exact ⟨by omega, by omega, h⟩
    rw [hwidened]
    by_cases hiinc : widened.toNat = Opcode.iinc
    · rw [if_pos hiinc] at hsize ⊢
      rw [hskip 4, measured_iff_of_size (m := 5) hsize hoperand]
    · rw [if_neg hiinc] at hsize ⊢
      by_cases hwide : Opcode.isWidenable widened.toNat = true
      · rw [if_pos hwide] at hsize ⊢
        rw [hskip 2, measured_iff_of_size (m := 3) hsize hoperand]
      · rw [if_neg hwide] at hsize ⊢
        have hnone : ¬ Measured pool Opcode.wide offset (widened :: rest) operand c :=
          not_measured_of_size hsize
        simp [hnone, Read.fail]

/-! #### Instructions of a fixed width -/

/-- Any other instruction has the size of its opcode. -/
theorem size?_of_ne (h : opcode ≠ Opcode.tableSwitch ∧ opcode ≠ Opcode.lookupSwitch ∧
    opcode ≠ Opcode.wide) (offset : Nat) (operands : Bytes) :
    size? offset opcode operands = opcode.fixedWidth?.map (1 + ·) := by
  unfold size?
  rw [if_neg h.1, if_neg h.2.1, if_neg h.2.2]

theorem size?_of_fixedWidth? {n : Nat} (h : opcode.fixedWidth? = some n) (offset : Nat)
    (operands : Bytes) : size? offset opcode operands = some (1 + n) := by
  rw [size?_of_ne (ne_of_fixedWidth? h), h]
  rfl

/-- An operand that is looked up, with some bytes after its number. -/
theorem resolved_eq_ok_iff {α : Type} {look : Nat → Except FormatError α} {f : α → Operand}
    (extra : Nat) (hwidth : opcode.fixedWidth? = some (2 + extra))
    (hlook : operandOf pool opcode rest = (look (word16At rest 0)).map f) :
    (do
      let index ← u16
      skip extra
      return f (← look index)) ⟨offset + 1, rest⟩ = .ok (operand, c) ↔
      Measured pool opcode offset rest operand c := by
  rw [measured_iff_of_size (size?_of_fixedWidth? hwidth offset rest) hlook,
    takes_u16.bind_eq_ok_iff, (takes_skip extra).bind_eq_ok_iff, ofExcept_map_eq_ok_iff,
    List.drop_drop, List.length_drop, Nat.add_assoc (offset + 1)]
  constructor
  · rintro ⟨hindex, hextra, h⟩
    exact ⟨by omega, h⟩
  · rintro ⟨hall, h⟩
    exact ⟨by omega, by omega, h⟩

/-- The same without any bytes after the number. -/
theorem resolved_eq_ok_iff_last {α : Type} {look : Nat → Except FormatError α} {f : α → Operand}
    (hwidth : opcode.fixedWidth? = some 2)
    (hlook : operandOf pool opcode rest = (look (word16At rest 0)).map f) :
    (do
      let index ← u16
      return f (← look index)) ⟨offset + 1, rest⟩ = .ok (operand, c) ↔
      Measured pool opcode offset rest operand c :=
  resolved_eq_ok_iff 0 hwidth hlook

/-- The members have opcodes in a row. -/
theorem fixedWidth?_of_member (h : Opcode.getStatic ≤ opcode ∧ opcode ≤ Opcode.invokeStatic) :
    opcode.fixedWidth? = some 2 := by
  have hall : ∀ k < 7, Opcode.fixedWidth? (Opcode.getStatic + k) = some 2 := by decide
  obtain ⟨k, rfl⟩ := Nat.exists_eq_add_of_le h.1
  exact hall k (Nat.lt_of_add_lt_add_left (Nat.lt_succ_of_le h.2))

/-- Instructions of a fixed size are skipped exactly when they are measured. -/
theorem skipFixed_eq_ok_iff (hr : ¬ opcode.IsResolved) (hd : opcode ≠ Opcode.invokeDynamic)
    (hs : opcode ≠ Opcode.tableSwitch ∧ opcode ≠ Opcode.lookupSwitch ∧ opcode ≠ Opcode.wide) :
    skipFixed opcode offset ⟨offset + 1, rest⟩ = .ok (operand, c) ↔
      Measured pool opcode offset rest operand c := by
  have hoperand : operandOf pool opcode rest = .ok .none := by
    rw [operandOf_of_not_isResolved hr, if_neg hd]
  have hsize := size?_of_ne hs offset rest
  unfold skipFixed
  cases hw : opcode.fixedWidth? with
  | none =>
    rw [hw] at hsize
    have hnone : ¬ Measured pool opcode offset rest operand c := not_measured_of_size hsize
    simp [hnone, Read.fail]
  | some n =>
    rw [hw] at hsize
    rw [measured_iff_of_size hsize hoperand]
    exact skip_return_eq_ok_iff

/-- The operand of an opcode is read exactly if there are as many bytes as the instruction takes and
what it names is in the pool. -/
theorem readOperand_eq_ok_iff :
    readOperand pool opcode offset ⟨offset + 1, rest⟩ = .ok (operand, c) ↔
      Measured pool opcode offset rest operand c := by
  by_cases hfield : Opcode.getStatic ≤ opcode ∧ opcode ≤ Opcode.putField
  · rw [readOperand_field hfield]
    refine resolved_eq_ok_iff_last (fixedWidth?_of_member ⟨hfield.1, ?_⟩) ?_
    · exact Nat.le_trans hfield.2 (by decide)
    · rw [operandOf, if_pos hfield]
  by_cases hmethod : Opcode.invokeVirtual ≤ opcode ∧ opcode ≤ Opcode.invokeInterface
  · have hlook : operandOf pool opcode rest = (pool.memberOwner (word16At rest 0)).map .method := by
      rw [operandOf, if_neg hfield, if_pos hmethod]
    by_cases hinterface : opcode = Opcode.invokeInterface
    · subst hinterface
      exact resolved_eq_ok_iff 2 rfl hlook
    · have hstatic : Opcode.invokeVirtual ≤ opcode ∧ opcode ≤ Opcode.invokeStatic :=
        ⟨hmethod.1, Nat.le_of_lt_succ (Nat.lt_of_le_of_ne hmethod.2 hinterface)⟩
      rw [readOperand_method hstatic]
      refine resolved_eq_ok_iff_last (fixedWidth?_of_member ⟨?_, hstatic.2⟩) hlook
      exact Nat.le_trans (by decide) hstatic.1
  by_cases hdynamic : opcode = Opcode.invokeDynamic
  · subst hdynamic
    rw [measured_iff_of_size (size?_of_fixedWidth? (n := 4) rfl offset rest)
      (operandOf_of_not_isResolved (by decide)), if_pos rfl]
    exact skip_return_eq_ok_iff
  by_cases hresolved : opcode.IsResolved
  · have hlook : operandOf pool opcode rest = (pool.className (word16At rest 0)).map .type := by
      rw [operandOf, if_neg hfield, if_neg hmethod, if_neg hdynamic, if_pos hresolved]
    -- what is resolved and is no member is a class
    have htype : (opcode = Opcode.new ∨ opcode = Opcode.anewArray ∨ opcode = Opcode.checkCast ∨
        opcode = Opcode.instanceOf) ∨ opcode = Opcode.multiANewArray := by
      rcases hresolved with hmember | hclass
      · exact absurd ⟨Nat.lt_of_not_le fun hle => hfield ⟨hmember.1, hle⟩, hmember.2⟩ hmethod
      · tauto
    rcases htype with htype | rfl
    · rw [readOperand_type htype]
      refine resolved_eq_ok_iff_last ?_ hlook
      rcases htype with rfl | rfl | rfl | rfl <;> rfl
    · exact resolved_eq_ok_iff 1 rfl hlook
  by_cases htable : opcode = Opcode.tableSwitch
  · subst htable
    exact skipTableSwitch_eq_ok_iff
  by_cases hlookup : opcode = Opcode.lookupSwitch
  · subst hlookup
    exact skipLookupSwitch_eq_ok_iff
  by_cases hwide : opcode = Opcode.wide
  · subst hwide
    exact skipWide_eq_ok_iff
  · rw [readOperand_of_not_isResolved hresolved hdynamic ⟨htable, hlookup, hwide⟩]
    exact skipFixed_eq_ok_iff hresolved hdynamic ⟨htable, hlookup, hwide⟩

/-! ### Code -/

/-- What follows an instruction does not matter to its size. -/
theorem size?_append {operands : Bytes} (h : n ≤ operands.length) (rest : Bytes) :
    size? offset opcode (operands ++ rest) = some (1 + n) ↔
      size? offset opcode operands = some (1 + n) := by
  by_cases htable : opcode = Opcode.tableSwitch
  · subst htable
    rw [size?_tableSwitch, size?_tableSwitch]
    by_cases hlong : padding offset + 12 ≤ operands.length
    · rw [int32At_append (by omega), int32At_append (by omega)]
    · -- the fields alone take more bytes than there are
      constructor <;> intro hsize <;> simp only [Option.ite_none_right_eq_some,
        Option.some.injEq] at hsize <;> omega
  by_cases hlookup : opcode = Opcode.lookupSwitch
  · subst hlookup
    rw [size?_lookupSwitch, size?_lookupSwitch]
    by_cases hlong : padding offset + 8 ≤ operands.length
    · rw [int32At_append (by omega)]
    · constructor <;> intro hsize <;> simp only [Option.ite_none_right_eq_some,
        Option.some.injEq] at hsize <;> omega
  by_cases hwide : opcode = Opcode.wide
  · subst hwide
    cases operands with
    | nil =>
      obtain rfl : n = 0 := Nat.le_zero.mp h
      cases rest with
      | nil => exact Iff.rfl
      | cons widened rest =>
        rw [size?_wide_nil, List.nil_append, size?_wide]
        split
        · simp
        split <;> simp
    | cons widened operands => rw [List.cons_append, size?_wide, size?_wide]
  · rw [size?_of_ne ⟨htable, hlookup, hwide⟩, size?_of_ne ⟨htable, hlookup, hwide⟩]

/-- What is looked up takes two bytes. -/
theorem two_le_of_isResolved (hr : opcode.IsResolved)
    (hsize : size? offset opcode rest = some (1 + n)) : 2 ≤ n := by
  have hmembers : ∀ k < 8, ∀ w ∈ Opcode.fixedWidth? (Opcode.getStatic + k), 2 ≤ w := by decide
  have hwidth : ∀ w ∈ opcode.fixedWidth?, 2 ≤ w := by
    rcases hr with hmember | rfl | rfl | rfl | rfl | rfl
    · obtain ⟨k, rfl⟩ := Nat.exists_eq_add_of_le hmember.1
      exact hmembers k (Nat.lt_of_add_lt_add_left (Nat.lt_succ_of_le hmember.2))
    all_goals decide
  have hs : opcode ≠ Opcode.tableSwitch ∧ opcode ≠ Opcode.lookupSwitch ∧ opcode ≠ Opcode.wide := by
    refine ⟨?_, ?_, ?_⟩ <;> rintro rfl <;> exact absurd hr (by decide)
  rw [size?_of_ne hs, Option.map_eq_some_iff] at hsize
  obtain ⟨w, hw, hn⟩ := hsize
  exact Nat.add_left_cancel hn ▸ hwidth w hw

/-- What follows an instruction does not matter to what it names. -/
theorem operandOf_append {operands : Bytes}
    (hsize : size? offset opcode operands = some (1 + operands.length)) (rest : Bytes) :
    operandOf pool opcode (operands ++ rest) = operandOf pool opcode operands := by
  by_cases hr : opcode.IsResolved
  · have hword := word16At_append (i := 0) (two_le_of_isResolved hr hsize) rest
    simp only [operandOf, hword]
  · rw [operandOf_of_not_isResolved hr, operandOf_of_not_isResolved hr]

/-- Code that is one instruction after another is decoded as these. -/
theorem decodeFrom_of_tiles {code : Bytes} {others : List Instruction}
    (h : Tiles pool offset code others) (before : Array Instruction) :
    decodeFrom pool ⟨offset, code⟩ before = (before ++ others.toArray, .ok ()) := by
  induction h generalizing before with
  | done => simp [decodeFrom_nil]
  | @next offset opcode operands rest operand others hsize hoperand _ ih =>
    have hread : readOperand pool opcode.toNat offset ⟨offset + 1, operands ++ rest⟩ =
        .ok (operand, ⟨offset + 1 + operands.length, (operands ++ rest).drop operands.length⟩) := by
      refine readOperand_eq_ok_iff.mpr ⟨operands.length, ?_, by simp, ?_, rfl⟩
      · exact (size?_append (Nat.le_refl _) rest).mpr hsize
      · rw [operandOf_append hsize, hoperand]
    rw [List.cons_append, decodeFrom_cons_ok hread, List.drop_left, Nat.add_assoc, ih]
    simp

/-- What is decoded without a fault is one instruction after another. -/
theorem exists_tiles_of_decodeFrom (c : Cursor) (before : Array Instruction)
    (h : (decodeFrom pool c before).2 = .ok ()) : ∃ others, Tiles pool c.offset c.rest others := by
  fun_induction decodeFrom pool c before with
  | case1 c before hrest => exact ⟨[], hrest ▸ .done⟩
  | case2 c before opcode rest hrest e he => cases h
  | case3 c before opcode rest hrest operand c' hread ih =>
    obtain ⟨others, hothers⟩ := ih h
    obtain ⟨n, hsize, hn, hoperand, rfl⟩ := readOperand_eq_ok_iff.mp hread
    have hcode : opcode :: rest.take n ++ rest.drop n = opcode :: rest := by
      rw [List.cons_append, List.take_append_drop]
    have hlength : (rest.take n).length = n := by
      rw [List.length_take, Nat.min_eq_left hn]
    have htake : size? c.offset opcode.toNat (rest.take n) = some (1 + (rest.take n).length) := by
      rw [← List.take_append_drop n rest] at hsize
      rw [hlength]
      exact (size?_append (Nat.le_of_eq hlength.symm) _).mp hsize
    have hnames : operandOf pool opcode.toNat (rest.take n) = .ok operand := by
      rw [← operandOf_append htake (rest.drop n), List.take_append_drop, hoperand]
    refine ⟨⟨c.offset, opcode.toNat, operand⟩ :: others, ?_⟩
    rw [hrest, ← hcode]
    refine .next htake hnames ?_
    rw [hlength, ← Nat.add_assoc]
    exact hothers

/-! ### Demands -/

section

variable (pool : ConstantPool) (index offset needed : Nat)

/-- A lookup in the table never asks for more bytes. -/
theorem get_ne_truncated : pool.get index ≠ .error (.truncated offset needed) := by
  unfold ConstantPool.get
  split <;> nofun

theorem utf8_ne_truncated : pool.utf8 index ≠ .error (.truncated offset needed) :=
  bind_ne_error (get_ne_truncated pool index offset needed) fun c => by cases c <;> nofun

theorem className_ne_truncated : pool.className index ≠ .error (.truncated offset needed) :=
  bind_ne_error (get_ne_truncated pool index offset needed) fun c => by
    cases c with
    | classEntry nameIndex => exact utf8_ne_truncated pool nameIndex offset needed
    | _ => nofun

theorem memberOwner_ne_truncated : pool.memberOwner index ≠ .error (.truncated offset needed) :=
  bind_ne_error (get_ne_truncated pool index offset needed) fun c => by
    cases c with
    | member classIndex => exact className_ne_truncated pool classIndex offset needed
    | _ => nofun

end

-- the widest switch has four bytes for each number of 32 bits

theorem asks_skipPadding : Asks 0x400000000 skipPadding :=
  asks_bind asks_offset fun offset _ => asks_skip (by omega)

/-- A table switch asks for its jumps, which are bounded by their numbers of 32 bits. -/
theorem asks_skipTableSwitch (offset : Nat) : Asks 0x400000000 (skipTableSwitch offset) := by
  refine asks_bind asks_skipPadding fun _ _ => asks_bind (asks_skip (by decide)) fun _ _ => ?_
  refine asks_bind (asks_i32 (by decide)) fun low hlow => ?_
  refine asks_bind (asks_i32 (by decide)) fun high hhigh => ?_
  split
  · exact asks_fail (fun _ _ => nofun)
  · have hl := bounds_of_i32 hlow
    have hh := bounds_of_i32 hhigh
    exact asks_bind (asks_skip (by omega)) fun _ _ => asks_pure _

/-- A lookup switch asks for its pairs, which are bounded too. -/
theorem asks_skipLookupSwitch (offset : Nat) : Asks 0x400000000 (skipLookupSwitch offset) := by
  refine asks_bind asks_skipPadding fun _ _ => asks_bind (asks_skip (by decide)) fun _ _ => ?_
  refine asks_bind (asks_i32 (by decide)) fun pairs hpairs => ?_
  split
  · exact asks_fail (fun _ _ => nofun)
  · have hp := bounds_of_i32 hpairs
    exact asks_bind (asks_skip (by omega)) fun _ _ => asks_pure _

theorem asks_skipWide (offset : Nat) : Asks 0x400000000 (skipWide offset) := by
  refine asks_bind (asks_of_takes takes_u8 (by decide)) fun _ _ => ?_
  split
  · exact asks_bind (asks_skip (by decide)) fun _ _ => asks_pure _
  split
  · exact asks_bind (asks_skip (by decide)) fun _ _ => asks_pure _
  · exact asks_fail (fun _ _ => nofun)

theorem asks_skipFixed (opcode : Opcode) (offset : Nat) :
    Asks 0x400000000 (skipFixed opcode offset) := by
  have hall : ∀ row ∈ Opcode.widths, row.2.2 ≤ 0x400000000 := by decide
  unfold skipFixed
  split
  next n hn =>
    obtain ⟨row, hrow, rfl⟩ := Option.map_eq_some_iff.mp hn
    exact asks_bind (asks_skip (hall row (List.mem_of_find?_eq_some hrow))) fun _ _ => asks_pure _
  · exact asks_fail (fun _ _ => nofun)

/-- No instruction asks for more than `0x400000000` bytes. -/
theorem asks_readOperand (pool : ConstantPool) (opcode : Opcode) (offset : Nat) :
    Asks 0x400000000 (readOperand pool opcode offset) := by
  have hmember (index : Nat) (f : String → Operand) :
      Asks 0x400000000 (do return f (← pool.memberOwner index) : Read Operand) :=
    asks_bind (asks_ofExcept (memberOwner_ne_truncated pool index)) fun _ _ => asks_pure _
  have hclass (index : Nat) (f : String → Operand) :
      Asks 0x400000000 (do return f (← pool.className index) : Read Operand) :=
    asks_bind (asks_ofExcept (className_ne_truncated pool index)) fun _ _ => asks_pure _
  have hindex : Asks 0x400000000 u16 := asks_of_takes takes_u16 (by decide)
  have hskip (n : Nat) (hn : n ≤ 4) : Asks 0x400000000 (skip n) := asks_skip (by omega)
  unfold readOperand
  repeat' split
  · exact asks_bind hindex fun _ _ => hmember _ _
  · exact asks_bind hindex fun _ _ => hmember _ _
  · exact asks_bind hindex fun _ _ => asks_bind (hskip 2 (by decide)) fun _ _ => hmember _ _
  · exact asks_bind (hskip 4 (by decide)) fun _ _ => asks_pure _
  · exact asks_bind hindex fun _ _ => hclass _ _
  · exact asks_bind hindex fun _ _ => asks_bind (hskip 1 (by decide)) fun _ _ => hclass _ _
  · exact asks_skipTableSwitch offset
  · exact asks_skipLookupSwitch offset
  · exact asks_skipWide offset
  · exact asks_skipFixed opcode offset

/-- Where decoding stops for want of bytes, it stands at its code and asks for a moderate number. -/
theorem asked_of_decodeFrom (c : Cursor) (before : Array Instruction) {needed : Nat}
    (h : (decodeFrom pool c before).2 = .error (.truncated offset needed)) :
    offset ≤ c.offset + c.rest.length ∧ needed ≤ 0x400000000 := by
  fun_induction decodeFrom pool c before with
  | case1 c before hrest => cases h
  | case2 c before opcode rest hrest e he =>
    cases h
    have hasked := (asks_readOperand pool opcode.toNat c.offset).asked _ _ _ he
    rw [hrest, List.length_cons]
    exact ⟨by have := hasked.1; simp only at this; omega, hasked.2⟩
  | case3 c before opcode rest hrest operand c' hread ih =>
    have hstays := (asks_readOperand pool opcode.toNat c.offset).stays _ _ _ hread
    have hasked := ih h
    rw [hstays] at hasked
    rw [hrest, List.length_cons]
    exact ⟨by have := hasked.1; simp only at this; omega, hasked.2⟩

/-- Code can be decoded exactly if it is one instruction after another, the first at offset zero,
each where the one before it ends and the last up to the end of the code; each is as long as its own
bytes say, and what it names is in the pool. Then exactly these instructions are decoded. A place at
which bytes are missing lies in the code or at its end, and no more than 2 ^ 34 bytes are ever asked
for there, whatever the numbers in the code: the widest switch has a case for each number of 32
bits. -/
theorem decode_tiles (pool : ConstantPool) (code : Bytes) :
    ((decode pool code).2 = .ok () ↔ ∃ instructions, Tiles pool 0 code instructions) ∧
    (∀ instructions, Tiles pool 0 code instructions →
      decode pool code = (instructions.toArray, .ok ())) ∧
    ∀ offset needed, (decode pool code).2 = .error (.truncated offset needed) →
      offset ≤ code.length ∧ needed ≤ 0x400000000 := by
  have hdecode (instructions : List Instruction) (h : Tiles pool 0 code instructions) :
      decode pool code = (instructions.toArray, .ok ()) := by
    rw [decode, decodeFrom_of_tiles h]
    simp
  refine ⟨⟨exists_tiles_of_decodeFrom ⟨0, code⟩ #[], ?_⟩, hdecode, fun offset needed h => ?_⟩
  · rintro ⟨instructions, h⟩
    rw [hdecode instructions h]
  · have hasked := asked_of_decodeFrom ⟨0, code⟩ #[] h
    rwa [Nat.zero_add] at hasked

end Instruction

end CompileWatch
