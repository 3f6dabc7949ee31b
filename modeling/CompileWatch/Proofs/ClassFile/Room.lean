import CompileWatch.Proofs.ClassFile.Emitted

/-!
# Room for bodies

How long the body of a method gets is bounded by its steps, whatever numbers its constants
have. So a unit fits the format when its constants do, unless its function has tens of
thousands of references or parameters.

- `CodeStep.room`: how many bytes a step takes.
- `CodeBuilder.span_step_le`, `CodeBuilder.span_steps_le`: one step, and all of them.
- `ClassBuilder.length_le_of_mem_contents`: the bodies of a unit.
- `Emit.hasRoom_of_fits`: the units of functions.
-/

namespace CompileWatch

/-- How many bytes a step takes at most, with its row in the table of lines. -/
def CodeStep.room : CodeStep → Nat
  | .op _ operands => 1 + operands.length
  | .aload _ => 2
  | .load _ | .field _ _ _ _ | .invoke _ _ _ _ | .type _ _ => 3
  | .invokeInterface _ _ _ _ => 5
  | .multiArray _ _ => 4
  | .wideIncrement _ _ => 6
  | .tableSwitch low high => 16 + 4 * (high - low + 1).toNat
  | .lookupSwitch keys => 12 + 8 * keys.length
  | .line _ => 4
  | .constant _ | .maxStack _ | .maxLocals _ => 0

/-- How many bytes several steps take at most. -/
def CodeStep.roomAll : List CodeStep → Nat
  | [] => 0
  | s :: rest => s.room + roomAll rest

/-- Steps in a row need as much room as each of them at most. -/
theorem CodeStep.roomAll_le {l : List CodeStep} {n : Nat} (h : ∀ s ∈ l, s.room ≤ n) :
    roomAll l ≤ l.length * n := by
  induction l with
  | nil => exact Nat.zero_le _
  | cons s rest ih =>
    obtain ⟨hs, hrest⟩ := List.forall_mem_cons.mp h
    have hfew := ih hrest
    rw [roomAll, List.length_cons, Nat.succ_mul]
    omega

namespace CodeBuilder

/-- The bytes of a body so far, with those of its table of lines. -/
def span (b : CodeBuilder) : Nat := b.code.length + 4 * b.lines.size

variable (b : CodeBuilder)

/-- An instruction takes its opcode and its operands. -/
theorem span_emit (opcode : Opcode) (operands : Bytes) :
    (b.emit opcode operands).span = b.span + (1 + operands.length) := by
  unfold span emit append code
  simp only [Array.toList_push, List.flatten_append, List.flatten_singleton, List.length_append,
    List.length_cons]
  omega

/-- Asking for a constant writes nothing. -/
theorem span_emitIndex (opcode : Opcode) (entry : PoolEntry) (more : Bytes) :
    (b.emitIndex opcode entry more).span = b.span + (3 + more.length) := by
  unfold emitIndex
  rw [span_emit, List.length_append]
  show b.span + (1 + (2 + more.length)) = _
  omega

/-- Loading a constant takes two bytes or three. -/
theorem span_emitLoad_le (entry : PoolEntry) : (b.emitLoad entry).span ≤ b.span + 3 := by
  let index := (b.constant entry).1
  have hconstant : (b.constant entry).2.span = b.span := rfl
  have hoperands : (if loadOpcode entry index = Opcode.ldc then [UInt8.ofNat index]
      else bytesOf16 index).length ≤ 2 := by
    split
    · exact Nat.le_succ 1
    · exact Nat.le_refl 2
  unfold emitLoad
  rw [span_emit, hconstant]
  exact Nat.add_le_add_left (Nat.add_le_add_left hoperands 1) b.span

/-- A switch is padded by three bytes at most. -/
theorem length_switchPadding_le (offset : Nat) : (switchPadding offset).length ≤ 3 := by
  rw [switchPadding, List.length_replicate]
  exact Nat.sub_le _ _

/-- A table switch takes four bytes for each number between its bounds. -/
theorem length_tableSwitchOperands_le (offset : Nat) (low high : Int) :
    (tableSwitchOperands offset low high).length ≤ 15 + 4 * (high - low + 1).toNat := by
  have hpadding := length_switchPadding_le offset
  unfold tableSwitchOperands
  simp only [List.length_append, List.length_flatten, List.map_replicate,
    List.sum_replicate_nat, bytesOfInt32, bytesOf32, List.length_cons, List.length_nil]
  omega

/-- A lookup switch takes eight bytes for each of its cases. -/
theorem length_lookupSwitchOperands_le (offset : Nat) (keys : List Int) :
    (lookupSwitchOperands offset keys).length ≤ 11 + 8 * keys.length := by
  have hpadding := length_switchPadding_le offset
  unfold lookupSwitchOperands
  simp only [List.length_append, List.length_flatMap, bytesOfInt32, bytesOf32, List.length_cons,
    List.length_nil, List.map_const', List.sum_replicate_nat]
  omega

/-- A step takes no more bytes than it may. -/
theorem span_step_le (s : CodeStep) : (b.step s).span ≤ b.span + s.room := by
  cases s with
  | op opcode operands => exact (b.span_emit _ _).le
  | aload slot => exact (b.span_emit _ _).le
  | constant entry => exact Nat.le_refl _
  | load entry => exact b.span_emitLoad_le entry
  | field opcode owner name descriptor => exact (b.span_emitIndex _ _ _).le
  | invoke opcode owner name descriptor => exact (b.span_emitIndex _ _ _).le
  | invokeInterface owner name descriptor slots => exact (b.span_emitIndex _ _ _).le
  | type opcode name => exact (b.span_emitIndex _ _ _).le
  | multiArray descriptor dimensions => exact (b.span_emitIndex _ _ _).le
  | wideIncrement slot delta => exact (b.span_emit _ _).le
  | tableSwitch low high =>
    have hlength := length_tableSwitchOperands_le b.length low high
    have hspan := b.span_emit Opcode.tableSwitch (tableSwitchOperands b.length low high)
    show (b.emit _ _).span ≤ b.span + (16 + _)
    omega
  | lookupSwitch keys =>
    have hlength := length_lookupSwitchOperands_le b.length keys
    have hspan := b.span_emit Opcode.lookupSwitch (lookupSwitchOperands b.length keys)
    show (b.emit _ _).span ≤ b.span + (12 + _)
    omega
  | line n =>
    unfold span
    show b.code.length + 4 * (b.lines.push _).size ≤ b.code.length + 4 * b.lines.size + 4
    rw [Array.size_push]
    omega
  | maxStack n => exact Nat.le_refl _
  | maxLocals n => exact Nat.le_refl _

/-- Code takes no more than the room of its steps. -/
theorem span_steps_le (l : List CodeStep) :
    (b.steps l).span ≤ b.span + CodeStep.roomAll l := by
  induction l generalizing b with
  | nil => exact Nat.le_refl _
  | cons s rest ih =>
    have hfirst := b.span_step_le s
    have hrest := ih (b.step s)
    show ((b.step s).steps rest).span ≤ b.span + (s.room + CodeStep.roomAll rest)
    omega

end CodeBuilder

namespace ClassBuilder

/-- A body takes twenty bytes more than its code at most. -/
theorem length_codeBody_le (c : CodeBuilder) (line : Option Nat) :
    (codeBody c line).length ≤ c.span + 20 := by
  unfold codeBody CodeBuilder.span
  cases line with
  | none =>
    simp only [List.length_append, bytesOf16, bytesOf32, List.length_cons, List.length_nil]
    omega
  | some index =>
    simp only [lineTable, List.length_append, bytesOf16, bytesOf32, List.length_cons,
      List.length_nil, List.length_flatMap, List.map_const', List.sum_replicate_nat,
      Array.length_toList]
    omega

/-- The code attribute of a body takes twenty bytes beside those of its steps. -/
theorem length_bodyContent_le (b : ClassBuilder) (name descriptor : String)
    (body : List CodeStep) :
    (b.bodyContent name descriptor body).length ≤ CodeStep.roomAll body + 20 := by
  obtain ⟨line, hline⟩ := exists_finishBody_eq ((b.openMethod name descriptor).2.steps body)
  have hspan := (b.openMethod name descriptor).2.span_steps_le body
  have hempty : (b.openMethod name descriptor).2.span = 0 := rfl
  rw [bodyContent, hline]
  have hlength := length_codeBody_le ((b.openMethod name descriptor).2.steps body) line
  omega

/-- The bodies of a unit are as short as their steps say. -/
theorem length_le_of_mem_contents {limit : Nat} {l : List ClassStep}
    (h : ∀ access name descriptor body, .method access name descriptor body ∈ l →
      CodeStep.roomAll body + 20 ≤ limit)
    (b : ClassBuilder) : ∀ content ∈ b.contents l, content.length ≤ limit := by
  induction l generalizing b with
  | nil => exact fun content hc => (List.not_mem_nil hc).elim
  | cons s rest ih =>
    have hrest : ∀ content ∈ (b.step s).contents rest, content.length ≤ limit :=
      ih (fun access name descriptor body hs => h access name descriptor body (.tail s hs)) _
    cases s with
    | method access name descriptor body =>
      intro content hc
      rcases List.mem_cons.mp hc with rfl | hc
      · exact Nat.le_trans (b.length_bodyContent_le name descriptor body)
          (h access name descriptor body List.mem_cons_self)
      · exact hrest content hc
    | _ => exact hrest

end ClassBuilder

namespace Emit

theorem Plain.room_le {s : CodeStep} (h : Plain s) : s.room ≤ 4 := by
  cases s with
  | op opcode operands =>
    obtain ⟨rfl, -⟩ := h
    simp [CodeStep.room]
  | aload | load | line | field | invoke | type => simp [CodeStep.room]
  | _ => exact h.elim

/-- The unit of a function with no more than 65535 references and parameters fits the format
when its constants do. -/
theorem hasRoom_of_fits {name : QualifiedName} {arity : Nat} {refs : List Reference}
    {line : Option Nat} (hrefs : refs.length ≤ 0xFFFF) (harity : arity ≤ 0xFFFF)
    (hpool : PoolBuilder.Fits (PoolBuilder.after []
      (ClassBuilder.constants name.unitName functionClass (classSteps name arity refs line)))) :
    HasRoom name arity refs line := by
  refine ⟨hpool, ?_, ?_, ?_, ?_⟩
  · have hnone : (classSteps name arity refs line).filterMap ClassStep.interface? = [] := by
      simp [classSteps, ClassStep.interface?]
    rw [hnone]
    exact Nat.zero_le _
  · rw [length_fields_classSteps]
    exact Nat.le_trans length_heldVars_le hrefs
  · have hfour : ((classSteps name arity refs line).filterMap ClassStep.method?).length = 4 := by
      have hfields (n : Nat) : ((List.range n).map fun i =>
          ClassStep.field (accessBits [.isPublic, .isStatic, .isFinal]) (fieldName i)
            varDescriptor).filterMap ClassStep.method? = [] := by simp [ClassStep.method?]
      unfold classSteps
      rw [List.filterMap_append, hfields]
      rfl
    rw [hfour]
    decide
  · refine ClassBuilder.length_le_of_mem_contents (fun access method descriptor body hs => ?_) _
    obtain ⟨-, hplain, hlength⟩ := method_spec name arity line hs
    have hroom := CodeStep.roomAll_le fun s hs => (hplain s hs).room_le
    omega

end Emit

end CompileWatch
