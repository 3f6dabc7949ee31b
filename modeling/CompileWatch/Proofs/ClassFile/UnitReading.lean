import CompileWatch.ClassFile.Builder
import CompileWatch.Proofs.ClassFile.CodeReading

/-!
# Units read back

A visit of a unit that was put together step by step reports exactly what the steps said:
the header, every field, and every method with its instructions, in the order in which they
were added.

- `ClassStep.requests`, `ClassBuilder.constants`: the constants that the steps ask for.
- `ClassBuilder.declared`: the events that the steps stand for.
- `ClassBuilder.HasRoom`: everything that the steps say fits the format.
- `ClassBuilder.Holds`: what has been added so far is read as what the steps said.
- `ClassBuilder.holds_step`, `ClassBuilder.holds_steps`: one step, and all of them.
- `ClassBuilder.reports_build`, `ClassBuilder.visit_build`: reading undoes building.
-/

namespace CompileWatch

/-! ### What steps stand for -/

namespace ClassStep

/-- The interface that a step adds. -/
def interface? : ClassStep → Option String
  | .interface name => some name
  | _ => none

/-- The field that a step adds. -/
def field? : ClassStep → Option Member
  | .field access name descriptor => some ⟨access, name, descriptor⟩
  | _ => none

/-- The method that a step adds. -/
def method? : ClassStep → Option Member
  | .method access name descriptor _ => some ⟨access, name, descriptor⟩
  | _ => none

/-- Whether a step names the source file. -/
def namesSource : ClassStep → Bool
  | .source _ => true
  | _ => false

/-- Whether a step of a body leaves a line. -/
def isLine : CodeStep → Bool
  | .line _ => true
  | _ => false

/-- The constant that a body with lines asks for in the end. -/
def lineRequests (lines : Bool) : List PoolEntry :=
  if lines then [.utf8 "LineNumberTable"] else []

/-- The constants that a step asks for, in order. -/
def requests : ClassStep → List PoolEntry
  | .interface name => [.classEntry name]
  | .field _ name descriptor => [.utf8 name, .utf8 descriptor]
  | .method _ name descriptor body =>
    [.utf8 name, .utf8 descriptor, .utf8 "Code"] ++
      (body.flatMap CodeStep.requests ++ lineRequests (body.any isLine))
  | .source file => [.utf8 file]

/-- Steps whose access marks are 16 bits and whose bodies say what they write. -/
def Admissible : ClassStep → Prop
  | .field access _ _ => access < 0x10000
  | .method access _ _ body => access < 0x10000 ∧ ∀ s ∈ body, s.Admissible
  | .interface _ | .source _ => True

instance (s : ClassStep) : Decidable s.Admissible := by
  cases s <;> unfold Admissible <;> infer_instance

end ClassStep

namespace ClassBuilder

/-- The constant that a unit with a source file asks for in the end. -/
def sourceRequests (source : Bool) : List PoolEntry :=
  if source then [.utf8 "SourceFile"] else []

/-- The constants that a unit asks for, in order; some of them more than once. -/
def constants (name superName : String) (l : List ClassStep) : List PoolEntry :=
  [.classEntry name, .classEntry superName] ++
    (l.flatMap ClassStep.requests ++ sourceRequests (l.any ClassStep.namesSource))

/-- The content of the code attribute that a method body gets here. -/
def bodyContent (b : ClassBuilder) (name descriptor : String) (body : List CodeStep) : Bytes :=
  (finishBody ((b.openMethod name descriptor).2.steps body)).1

/-- The contents of the code attributes that some steps write. -/
def contents (b : ClassBuilder) : List ClassStep → List Bytes
  | [] => []
  | s :: rest =>
    match s with
    | .method _ name descriptor body =>
      b.bodyContent name descriptor body :: (b.step s).contents rest
    | _ => (b.step s).contents rest

/-- What is reported of a method that a step adds, with the instructions of its body. -/
def methodEvents (b : ClassBuilder) : ClassStep → List (List Event)
  | .method access name descriptor body =>
    [.method ⟨access, name, descriptor⟩ ::
      ((b.openMethod name descriptor).2.reportedAll body).map .instruction]
  | _ => []

/-- What is reported of the methods that some steps add, one list for each. -/
def allMethodEvents (b : ClassBuilder) : List ClassStep → List (List Event)
  | [] => []
  | s :: rest => b.methodEvents s ++ (b.step s).allMethodEvents rest

/-- Everything that is reported of a unit. -/
def declared (name superName : String) (l : List ClassStep) : List Event :=
  .header ⟨52, 0, accessBits [.isPublic, .isSuper, .isFinal], name, some superName,
      l.filterMap ClassStep.interface?⟩ ::
    ((l.filterMap ClassStep.field?).map .field ++
      (((start name superName).allMethodEvents l).flatten ++ [.finished]))

/-- What a unit needs fits the format: its constants the pool, the numbers of its
interfaces, fields and methods 16 bits, and the lengths of its code attributes 32 bits. -/
structure HasRoom (name superName : String) (l : List ClassStep) : Prop where
  pool : PoolBuilder.Fits (PoolBuilder.after [] (constants name superName l))
  interfaces : (l.filterMap ClassStep.interface?).length ≤ 0xFFFF
  fields : (l.filterMap ClassStep.field?).length ≤ 0xFFFF
  methods : (l.filterMap ClassStep.method?).length ≤ 0xFFFF
  bodies : ∀ content ∈ (start name superName).contents l, content.length ≤ 0xFFFFFFFF

end ClassBuilder

/-! ### The parts of a unit -/

namespace ClassFile

open Read PoolBuilder ClassBuilder

section

variable {all : List PoolEntry}

/-- A number that a text has. -/
def IsText (all : List PoolEntry) (index : Nat) (text : String) : Prop :=
  index < 0x10000 ∧ (table all).utf8 index = .ok text

/-- A number that a class has; zero stands for none. -/
def IsClass (all : List PoolEntry) (index : Nat) (name : String) : Prop :=
  index ≠ 0 ∧ index < 0x10000 ∧ (table all).className index = .ok name

/-- The number of a class is read as its name. -/
theorem reads_readClassName {index : Nat} {name : String} (h : IsClass all index name) :
    Reads (readClassName (table all)) (bytesOf16 index) name :=
  reads_last (reads_u16 h.2.1) (reads_ofExcept h.2.2)

theorem reads_readSuperName {index : Nat} {name : String} (h : IsClass all index name) :
    Reads (readSuperName (table all)) (bytesOf16 index) (some name) := by
  refine reads_last (reads_u16 h.2.1) ?_
  rw [if_neg h.1]
  exact reads_map (reads_ofExcept h.2.2) some

/-- The number of a text is read as the text. -/
theorem reads_readText {index : Nat} {text : String} (h : IsText all index text) :
    Reads (do
      let index ← u16
      (table all).utf8 index) (bytesOf16 index) text :=
  reads_last (reads_u16 h.1) (reads_ofExcept h.2)

/-- A member is read from its flags and the numbers of its name and type. -/
theorem reads_readMember {access name descriptor : Nat} {m : Member} (ha : access < 0x10000)
    (hm : m.access = access) (hn : IsText all name m.name)
    (hd : IsText all descriptor m.descriptor) :
    Reads (readMember (table all))
      (bytesOf16 access ++ (bytesOf16 name ++ bytesOf16 descriptor)) m := by
  subst hm
  refine reads_bind (reads_u16 ha) (reads_bind (reads_u16 hn.1) ?_)
  rw [← List.nil_append (bytesOf16 descriptor)]
  refine reads_bind (reads_ofExcept hn.2) (reads_last (reads_u16 hd.1) ?_)
  exact reads_map (reads_ofExcept hd.2) fun descriptor => Member.mk m.access m.name descriptor

/-- The code array stands near the front of a code attribute. -/
theorem exists_codeBody_eq (c : CodeBuilder) (line : Option Nat) :
    ∃ tail, codeBody c line = (bytesOf16 c.maxStack ++ bytesOf16 c.maxLocals) ++
      (bytesOf32 (clamp32 c.length) ++ c.code) ++ tail := by
  cases line with
  | none => exact ⟨bytesOf16 0 ++ bytesOf16 0, by simp [codeBody]⟩
  | some index =>
    refine ⟨bytesOf16 0 ++ (bytesOf16 1 ++ bytesOf16 index ++
      bytesOf32 (clamp32 (2 + c.lines.toList.length * 4)) ++ lineTable c.lines.toList), ?_⟩
    simp only [codeBody, List.append_assoc]

theorem length_le_length_codeBody {c : CodeBuilder} (hl : c.code.length = c.length)
    (line : Option Nat) : c.length ≤ (codeBody c line).length := by
  obtain ⟨tail, ht⟩ := exists_codeBody_eq c line
  rw [ht, ← hl]
  simp only [List.length_append]
  omega

namespace Walk

/-- No attributes. -/
theorem reports_skipAttributes_none : Reports skipAttributes (bytesOf16 0) () [] :=
  reports_read_bind (reads_u16 (by decide)) (reports_pure ())

/-- One attribute, whatever it is. -/
theorem reports_skipAttributes_one {name : Nat} {content : Bytes} {size : Nat}
    (hs : content.length = size) (hl : size < 0x100000000) :
    Reports skipAttributes (bytesOf16 1 ++ (bytesOf16 name ++ (bytesOf32 size ++ content))) ()
      [] := by
  refine reports_read_bind (reads_u16 (by decide)) (reports_times_one (reports_read ?_))
  exact reads_bind (reads_skip rfl) (reads_bind (reads_u32 hl) (reads_skip hs))

/-- A field is reported as what it was declared to be. -/
theorem reports_field {f : BuiltField} {m : Member} (ha : f.access < 0x10000)
    (hm : m.access = f.access) (hn : IsText all f.nameIndex m.name)
    (hd : IsText all f.descriptorIndex m.descriptor) :
    Reports (field (table all)) (fieldBytes f) () [.field m] := by
  have hb : fieldBytes f = (bytesOf16 f.access ++ (bytesOf16 f.nameIndex ++
      bytesOf16 f.descriptorIndex)) ++ bytesOf16 0 := by simp [fieldBytes]
  rw [hb]
  exact reports_read_bind (reads_readMember ha hm hn hd)
    (reports_report_bind (.field m) reports_skipAttributes_none)

/-- The instructions of a code array are reported in order. -/
theorem reports_code {pool : ConstantPool} {bytes : Bytes} {is : List Instruction}
    (h : Instruction.decode pool bytes = (is.toArray, .ok ())) :
    Reports (code pool bytes) [] () (is.map .instruction) := by
  intro offset rest before
  have hreported : before ++ (is.map Event.instruction).toArray = before ++ is.map Event.instruction :=
    Array.ext' (by simp)
  unfold code
  rw [h]
  simp [hreported]

/-- The code attribute of a body that is decoded to its end. -/
theorem reports_methodAttribute {c : CodeBuilder} {es : List PoolEntry} {is : List Instruction}
    (h : c.Writes all es is) (hl : c.code.length = c.length) {codeName : Nat}
    (hn : IsText all codeName "Code") (line : Option Nat)
    (hb : (codeBody c line).length ≤ 0xFFFFFFFF) :
    Reports (methodAttribute (table all))
      (bytesOf16 codeName ++
        (bytesOf32 (clamp32 (codeBody c line).length) ++ codeBody c line)) ()
      (is.map .instruction) := by
  -- the visit reads no further than the code array
  obtain ⟨tail, ht⟩ := exists_codeBody_eq c line
  have hlen := length_le_length_codeBody hl line
  have hc : ∀ n, n ≤ (codeBody c line).length → clamp32 n = n := by
    intro n hn
    rw [clamp32]
    omega
  rw [hc _ hlen] at ht
  rw [hc _ (Nat.le_refl _)]
  have hcode : Reads readCodeArray
      ((bytesOf16 c.maxStack ++ bytesOf16 c.maxLocals) ++ (bytesOf32 c.length ++ c.code))
      c.code :=
    reads_bind (reads_skip rfl) (reads_bind (reads_u32 (by omega)) (reads_take hl))
  refine reports_read_bind (reads_readText hn) (reports_read_last (a := codeBody c line) ?_ ?_)
  · exact reads_bind (reads_u32 (by omega)) (reads_take rfl)
  · rw [if_pos rfl]
    exact reports_read_last (reads_within ht hcode)
      (reports_code (CodeBuilder.decode_of_writes h))

/-- A method whose only attribute is its code. -/
theorem reports_method {access : Nat} {names : MethodNames} {m : Member} {content : Bytes}
    {events : List Event} (ha : access < 0x10000) (hm : m.access = access)
    (hn : IsText all names.name m.name) (hd : IsText all names.descriptor m.descriptor)
    (h : Reports (methodAttribute (table all))
      (bytesOf16 names.code ++ (bytesOf32 (clamp32 content.length) ++ content)) () events) :
    Reports (method (table all)) (methodBytes access names content) () (.method m :: events) := by
  have hb : methodBytes access names content =
      (bytesOf16 access ++ (bytesOf16 names.name ++ bytesOf16 names.descriptor)) ++
        (bytesOf16 1 ++ (bytesOf16 names.code ++
          (bytesOf32 (clamp32 content.length) ++ content))) := by simp [methodBytes]
  rw [hb]
  refine reports_read_bind (reads_readMember ha hm hn hd) (reports_report_bind (.method m) ?_)
  exact reports_read_bind (reads_u16 (by decide)) (reports_times_one h)

end Walk

end

/-- A visit reports what its walk does. -/
theorem visit_of_reports {bytes : Bytes} {events : List Event}
    (h : Walk.Reports Walk.unit bytes () events) : visit bytes = ⟨events, .ok ()⟩ := by
  have hr := h 0 [] #[]
  rw [List.append_nil] at hr
  rw [visit, ExceptT.run, hr]
  simp only [Array.toList_appendList, List.nil_append]

end ClassFile

/-! ### Putting a unit together -/

namespace ClassBuilder

open ClassFile PoolBuilder CodeBuilder ClassStep

variable {all es : List PoolEntry} {b : ClassBuilder} {p : PoolBuilder}

-- what storing a constant does is said by `isText_utf8` and `isClass_classEntry`
attribute [local irreducible] PoolBuilder.utf8 PoolBuilder.classEntry

/-! #### Constants -/

/-- Behind the number of a text stands the text. -/
theorem isText_number (hf : Fits all) {text : String} (h : .utf8 text ∈ all) :
    IsText all (number all (.utf8 text)) text :=
  ⟨number_lt all _, table_utf8 hf h⟩

/-- Behind the number of a class stands its name. -/
theorem isClass_number (hf : Fits all) {name : String} (h : .classEntry name ∈ all)
    (hn : .utf8 name ∈ all) : IsClass all (number all (.classEntry name)) name :=
  ⟨number_ne_zero all _, number_lt all _, table_className hf h hn⟩

/-- A text that is stored now has its number in the complete pool. -/
theorem isText_utf8 (hf : Fits all) (h : Stores p es) {text : String}
    (hp : after es [.utf8 text] <+: all) :
    IsText all (utf8 text p).1 text ∧ Stores (utf8 text p).2 (after es [.utf8 text]) := by
  obtain ⟨hn, hs⟩ := interns_utf8 text p es h
  have hm : .utf8 text ∈ after es [.utf8 text] :=
    mem_after List.mem_cons_self (PoolEntry.mem_parts _)
  rw [hn, ← number_extend hp hm]
  exact ⟨isText_number hf (hp.subset hm), hs⟩

/-- A class that is stored now has its number in the complete pool. -/
theorem isClass_classEntry (hf : Fits all) (h : Stores p es) {name : String}
    (hp : after es [.classEntry name] <+: all) :
    IsClass all (classEntry name p).1 name ∧
      Stores (classEntry name p).2 (after es [.classEntry name]) := by
  obtain ⟨hn, hs⟩ := interns_classEntry name p es h
  have hm : .classEntry name ∈ after es [.classEntry name] :=
    mem_after List.mem_cons_self (PoolEntry.mem_parts _)
  have ht : .utf8 name ∈ after es [.classEntry name] :=
    mem_after List.mem_cons_self (by simp [PoolEntry.parts, PoolEntry.before, PoolEntry.refs])
  rw [hn, ← number_extend hp hm]
  exact ⟨isClass_number hf (hp.subset hm) (hp.subset ht), hs⟩

/-- What is asked for first is a part of what is asked for in all. -/
theorem prefix_first {l l' : List PoolEntry} (hp : after es (l ++ l') <+: all) :
    after es l <+: all := by
  rw [after_append] at hp
  exact List.IsPrefix.trans (prefix_after _ l') hp

/-! #### Bodies -/

/-- A body starts on the constants that its method refers to. -/
theorem writes_openMethod (hf : Fits all) (h : b.pool.Stores es) {name descriptor : String}
    (hp : after es [.utf8 name, .utf8 descriptor, .utf8 "Code"] <+: all) :
    IsText all (b.openMethod name descriptor).1.name name ∧
      IsText all (b.openMethod name descriptor).1.descriptor descriptor ∧
      IsText all (b.openMethod name descriptor).1.code "Code" ∧
      (b.openMethod name descriptor).2.Writes all
        (after es [.utf8 name, .utf8 descriptor, .utf8 "Code"]) [] := by
  have hp' : after (after (after es [.utf8 name]) [.utf8 descriptor]) [.utf8 "Code"] <+: all := by
    rwa [← after_append, ← after_append]
  have hp2 := List.IsPrefix.trans (prefix_after _ [.utf8 "Code"]) hp'
  have hp1 := List.IsPrefix.trans (prefix_after _ [.utf8 descriptor]) hp2
  obtain ⟨hn, hs⟩ := isText_utf8 hf h hp1
  obtain ⟨hd, hs⟩ := isText_utf8 hf hs hp2
  obtain ⟨hc, hs⟩ := isText_utf8 hf hs hp'
  rw [← after_append, ← after_append] at hs
  exact ⟨hn, hd, hc, writes_empty hs⟩

theorem lines_step (c : CodeBuilder) (s : CodeStep) :
    (c.step s).lines.isEmpty = (c.lines.isEmpty && !ClassStep.isLine s) := by
  cases s with
  | line n =>
    show (c.lines.push _).isEmpty = _
    simp [ClassStep.isLine]
  | _ => exact (Bool.and_true _).symm

/-- There is a table of lines once a line is given. -/
theorem lines_steps (c : CodeBuilder) (l : List CodeStep) :
    (c.steps l).lines.isEmpty = (c.lines.isEmpty && !l.any ClassStep.isLine) := by
  induction l generalizing c with
  | nil => exact (Bool.and_true _).symm
  | cons s rest ih =>
    show ((c.step s).steps rest).lines.isEmpty = _
    rw [ih, lines_step, List.any_cons, Bool.not_or, Bool.and_assoc]

/-- A body is finished as its code, with a table of lines if there is one. -/
theorem exists_finishBody_eq (c : CodeBuilder) : ∃ line, (finishBody c).1 = codeBody c line := by
  unfold finishBody
  split
  · exact ⟨none, rfl⟩
  · exact ⟨some _, rfl⟩

theorem stores_finishBody {c : CodeBuilder} (h : c.pool.Stores es) {lines : Bool}
    (hl : c.lines.isEmpty = !lines) : (finishBody c).2.Stores (after es (lineRequests lines)) := by
  unfold finishBody
  rw [hl]
  cases lines with
  | true => exact (interns_utf8 _ _ _ h).2
  | false => exact h

/-! #### The invariant -/

/-- What has been added so far is read, on the complete pool, as these interfaces, fields
and methods. -/
structure Holds (all : List PoolEntry) (b : ClassBuilder) (es : List PoolEntry)
    (interfaces : List String) (fields : List Member) (methods : List (List Event)) : Prop where
  pool : b.pool.Stores es
  interfaces : List.Forall₂ (IsClass all) b.interfaces.toList interfaces
  fields : List.Forall₂
    (fun f m => Walk.Reports (Walk.field (table all)) (fieldBytes f) () [.field m])
    b.fields.toList fields
  methods : List.Forall₂
    (fun bytes events => Walk.Reports (Walk.method (table all)) bytes () events)
    b.methods.toList methods

variable {interfaces : List String} {fields : List Member} {methods : List (List Event)}

theorem forall₂_snoc {α β : Type} {R : α → β → Prop} {l : List α} {l' : List β} {a : α} {a' : β}
    (h : List.Forall₂ R l l') (ha : R a a') : List.Forall₂ R (l ++ [a]) (l' ++ [a']) :=
  List.rel_append h (.cons ha .nil)

/-- A method, its body written by steps. -/
theorem holds_method (hf : Fits all) (h : Holds all b es interfaces fields methods) {access : Nat}
    {name descriptor : String} {body : List CodeStep} (ha : access < 0x10000)
    (hb : ∀ s ∈ body, s.Admissible)
    (hp : after es (ClassStep.method access name descriptor body).requests <+: all)
    (hl : (b.bodyContent name descriptor body).length ≤ 0xFFFFFFFF) :
    Holds all (b.method access name descriptor body)
      (after es (ClassStep.method access name descriptor body).requests) interfaces fields
      (methods ++ b.methodEvents (.method access name descriptor body)) := by
  let c := (b.openMethod name descriptor).2
  -- the constants of the declaration, those of the body, and the name of the line table
  have hp' := hp
  rw [requests] at hp'
  obtain ⟨hn, hd, hcode, hw⟩ := writes_openMethod (b := b) hf h.pool (prefix_first hp')
  rw [after_append] at hp'
  obtain ⟨bytes, hbytes, hlength⟩ := exists_code_steps c body
  have hclength : (c.steps body).code.length = (c.steps body).length := by
    rw [hbytes, hlength, List.length_append]
    rfl
  -- the code is a part of the attribute, so its length fits 32 bits as well
  obtain ⟨line, hline⟩ := exists_finishBody_eq (c.steps body)
  have hcontent : (codeBody (c.steps body) line).length ≤ 0xFFFFFFFF := hline ▸ hl
  have hshort := length_le_length_codeBody hclength line
  have hws := writes_steps hf hw hb (prefix_first hp')
    (Nat.lt_of_le_of_lt hshort (Nat.lt_succ_of_le hcontent))
  rw [after_append] at hp'
  have hs := stores_finishBody hws.pool (lines_steps c body)
  rw [← after_append, ← after_append] at hs
  refine ⟨hs, h.interfaces, h.fields, ?_⟩
  show List.Forall₂ _ (b.methods.push
    (methodBytes access (b.openMethod name descriptor).1 (finishBody (c.steps body)).1)).toList _
  rw [Array.toList_push, hline]
  refine forall₂_snoc h.methods (Walk.reports_method ha rfl hn hd ?_)
  exact Walk.reports_methodAttribute hws hclength hcode line hcontent

/-- One step. -/
theorem holds_step (hf : Fits all) (h : Holds all b es interfaces fields methods) {s : ClassStep}
    (hs : s.Admissible) (hp : after es s.requests <+: all)
    (hl : ∀ content ∈ b.contents [s], content.length ≤ 0xFFFFFFFF) :
    Holds all (b.step s) (after es s.requests) (interfaces ++ s.interface?.toList)
      (fields ++ s.field?.toList) (methods ++ b.methodEvents s) := by
  cases s with
  | interface name =>
    obtain ⟨hn, hpool⟩ := isClass_classEntry hf h.pool hp
    show Holds all _ _ _ (fields ++ []) (methods ++ [])
    rw [List.append_nil, List.append_nil]
    refine ⟨hpool, ?_, h.fields, h.methods⟩
    show List.Forall₂ _ (b.interfaces.push _).toList _
    rw [Array.toList_push]
    exact forall₂_snoc h.interfaces hn
  | field access name descriptor =>
    have hp' : after (after es [.utf8 name]) [.utf8 descriptor] <+: all := by
      rwa [← after_append]
    obtain ⟨hn, hpool⟩ := isText_utf8 hf h.pool (prefix_first (l := [.utf8 name]) hp)
    obtain ⟨hd, hpool⟩ := isText_utf8 hf hpool hp'
    rw [← after_append] at hpool
    show Holds all _ _ (interfaces ++ []) _ (methods ++ [])
    rw [List.append_nil, List.append_nil]
    refine ⟨hpool, h.interfaces, ?_, h.methods⟩
    show List.Forall₂ _ (b.fields.push _).toList _
    rw [Array.toList_push]
    exact forall₂_snoc h.fields (Walk.reports_field hs rfl hn hd)
  | method access name descriptor body =>
    show Holds all _ _ (interfaces ++ []) (fields ++ []) _
    rw [List.append_nil, List.append_nil]
    exact holds_method hf h hs.1 hs.2 hp (hl _ List.mem_cons_self)
  | source file =>
    show Holds all _ _ (interfaces ++ []) (fields ++ []) (methods ++ [])
    rw [List.append_nil, List.append_nil, List.append_nil]
    exact ⟨(isText_utf8 hf h.pool hp).2, h.interfaces, h.fields, h.methods⟩

/-- What the first step holds comes before what the others hold. -/
theorem contents_cons (b : ClassBuilder) (s : ClassStep) (rest : List ClassStep) :
    b.contents (s :: rest) = b.contents [s] ++ (b.step s).contents rest := by
  cases s <;> rfl

/-- What is added step by step is read as what the steps said, in their order. -/
theorem holds_steps (hf : Fits all) (h : Holds all b es interfaces fields methods)
    {l : List ClassStep} (hs : ∀ s ∈ l, s.Admissible)
    (hp : after es (l.flatMap ClassStep.requests) <+: all)
    (hl : ∀ content ∈ b.contents l, content.length ≤ 0xFFFFFFFF) :
    Holds all (b.steps l) (after es (l.flatMap ClassStep.requests))
      (interfaces ++ l.filterMap interface?) (fields ++ l.filterMap field?)
      (methods ++ b.allMethodEvents l) := by
  -- the pool grows along the steps, and stays a part of the complete one
  induction l generalizing b es interfaces fields methods with
  | nil => simpa [allMethodEvents, steps, after_nil] using h
  | cons s rest ih =>
    rw [contents_cons] at hl
    rw [List.flatMap_cons] at hp
    have hstep := holds_step hf h (hs s List.mem_cons_self) (prefix_first hp)
      fun content hc => hl content (List.mem_append_left _ hc)
    rw [after_append] at hp
    have hrest := ih hstep (fun s' hs' => hs s' (List.mem_cons_of_mem s hs')) hp
      fun content hc => hl content (List.mem_append_right _ hc)
    rw [List.append_assoc, List.append_assoc, List.append_assoc, ← after_append] at hrest
    have hcons : ∀ {α : Type} (f : ClassStep → Option α),
        (s :: rest).filterMap f = (f s).toList ++ rest.filterMap f := by
      intro α f
      rw [List.filterMap_cons]
      cases f s <;> rfl
    rw [List.flatMap_cons, hcons, hcons]
    exact hrest

/-! #### The bytes of a unit -/

/-- No step changes the flags, the class and its super class. -/
theorem front_step (b : ClassBuilder) (s : ClassStep) :
    (b.step s).access = b.access ∧ (b.step s).thisClass = b.thisClass ∧
      (b.step s).superClass = b.superClass ∧
      (b.step s).sourceFile.isSome = (b.sourceFile.isSome || s.namesSource) := by
  cases s with
  | source file => exact ⟨rfl, rfl, rfl, (Bool.or_true _).symm⟩
  | _ => exact ⟨rfl, rfl, rfl, (Bool.or_false _).symm⟩

theorem front_steps (b : ClassBuilder) (l : List ClassStep) :
    (b.steps l).access = b.access ∧ (b.steps l).thisClass = b.thisClass ∧
      (b.steps l).superClass = b.superClass ∧
      (b.steps l).sourceFile.isSome = (b.sourceFile.isSome || l.any namesSource) := by
  induction l generalizing b with
  | nil => exact ⟨rfl, rfl, rfl, (Bool.or_false _).symm⟩
  | cons s rest ih =>
    obtain ⟨ha, ht, hs, hf⟩ := b.front_step s
    rw [List.any_cons, ← Bool.or_assoc, ← ha, ← ht, ← hs, ← hf]
    exact ih (b.step s)

theorem clamp16_of_le {n : Nat} (h : n ≤ 0xFFFF) : clamp16 n = n := by
  rw [clamp16]
  omega

/-- The bytes before the header. -/
theorem reads_readPrelude (hf : Fits all) (h : Stores p all) :
    Read.Reads readPrelude (bytesOf32 magic ++ (bytesOf16 0 ++ (bytesOf16 52 ++
      (bytesOf16 p.nextIndex ++ p.bytes)))) ⟨0, 52, table all⟩ := by
  refine Read.reads_bind (Read.reads_u32 (by decide)) ?_
  rw [if_neg (by simp)]
  refine Read.reads_bind (Read.reads_u16 (by decide)) ?_
  refine Read.reads_bind (Read.reads_u16 (by decide)) ?_
  exact Read.reads_map (reads_pool h hf) fun pool => Prelude.mk 0 52 pool

/-- What a unit says about itself. -/
theorem reads_readHeader {access thisClass superClass : Nat} {name superName : String}
    {indices : List Nat} (ha : access < 0x10000) (ht : IsClass all thisClass name)
    (hs : IsClass all superClass superName) (hi : List.Forall₂ (IsClass all) indices interfaces)
    (hl : indices.length ≤ 0xFFFF) :
    Read.Reads (readHeader ⟨0, 52, table all⟩) (bytesOf16 access ++ (bytesOf16 thisClass ++
      (bytesOf16 superClass ++ (bytesOf16 indices.length ++ indices.flatMap bytesOf16))))
      ⟨52, 0, access, name, some superName, interfaces⟩ := by
  have hmany := reads_readMany (hi.imp fun index name h => reads_readClassName h)
  refine Read.reads_bind (Read.reads_u16 ha) ?_
  refine Read.reads_bind (reads_readClassName ht) ?_
  refine Read.reads_bind (reads_readSuperName hs) ?_
  refine Read.reads_bind (Read.reads_u16 (by omega)) ?_
  exact Read.reads_map hmany fun interfaces =>
    Header.mk 52 0 access name (some superName) interfaces

/-- The bytes of a unit, part by part in the order in which they are read. -/
theorem exists_serialize_eq (b : ClassBuilder) (sourceName : Option Nat) :
    ∃ tail, b.serialize sourceName =
        (bytesOf32 magic ++ (bytesOf16 0 ++ (bytesOf16 52 ++
          (bytesOf16 b.pool.nextIndex ++ b.pool.bytes)))) ++
        ((bytesOf16 b.access ++ (bytesOf16 b.thisClass ++ (bytesOf16 b.superClass ++
          (bytesOf16 (clamp16 b.interfaces.toList.length) ++
            b.interfaces.toList.flatMap bytesOf16)))) ++
        (bytesOf16 (clamp16 b.fields.toList.length) ++ (b.fields.toList.flatMap fieldBytes ++
        (bytesOf16 (clamp16 b.methods.toList.length) ++ (b.methods.toList.flatMap id ++
        tail))))) ∧ Walk.Reports Walk.skipAttributes tail () [] := by
  have hid : b.methods.toList.flatten = b.methods.toList.flatMap id := by
    rw [List.flatMap_id]
  cases sourceName with
  | none =>
    refine ⟨bytesOf16 0, ?_, Walk.reports_skipAttributes_none⟩
    simp only [serialize, hid, List.append_assoc, Array.length_toList]
  | some name =>
    cases hs : b.sourceFile with
    | none =>
      refine ⟨bytesOf16 0, ?_, Walk.reports_skipAttributes_none⟩
      simp only [serialize, hid, hs, List.append_assoc, Array.length_toList]
    | some file =>
      refine ⟨bytesOf16 1 ++ (bytesOf16 name ++ (bytesOf32 2 ++ bytesOf16 file)), ?_,
        Walk.reports_skipAttributes_one rfl (by decide)⟩
      simp only [serialize, hid, hs, List.append_assoc, Array.length_toList]

/-- The bytes of a unit whose constants are complete are visited to the end. -/
theorem reports_unit (hf : Fits all) (h : Holds all b all interfaces fields methods)
    {name superName : String} (ha : b.access < 0x10000) (ht : IsClass all b.thisClass name)
    (hs : IsClass all b.superClass superName) (hi : interfaces.length ≤ 0xFFFF)
    (hfl : fields.length ≤ 0xFFFF) (hm : methods.length ≤ 0xFFFF) (sourceName : Option Nat) :
    Walk.Reports Walk.unit (b.serialize sourceName) ()
      (.header ⟨52, 0, b.access, name, some superName, interfaces⟩ ::
        (fields.map .field ++ (methods.flatten ++ [.finished]))) := by
  obtain ⟨tail, hbytes, htail⟩ := exists_serialize_eq b sourceName
  have hil : b.interfaces.toList.length ≤ 0xFFFF := by
    rw [h.interfaces.length_eq]
    exact hi
  have hfll : b.fields.toList.length ≤ 0xFFFF := by
    rw [h.fields.length_eq]
    exact hfl
  have hml : b.methods.toList.length ≤ 0xFFFF := by
    rw [h.methods.length_eq]
    exact hm
  have hfields : List.Forall₂
      (fun f events => Walk.Reports (Walk.field (table all)) (fieldBytes f) () events)
      b.fields.toList (fields.map fun m => [Event.field m]) :=
    List.forall₂_map_right_iff.mpr h.fields
  have hfe : (fields.map fun m => [Event.field m]).flatten = fields.map .field := by
    rw [← List.flatMap_def]
    exact List.flatMap_pure_eq_map _ _
  -- no number was cut, so each says how many things follow it
  rw [hbytes, clamp16_of_le hil, clamp16_of_le hfll, clamp16_of_le hml, ← hfe]
  refine Walk.reports_read_bind (reads_readPrelude hf h.pool) ?_
  refine Walk.reports_read_bind (reads_readHeader ha ht hs h.interfaces hil) ?_
  refine Walk.reports_report_bind _ ?_
  refine Walk.reports_read_bind (Read.reads_u16 (Nat.lt_succ_of_le hfll)) ?_
  refine Walk.reports_bind (Walk.reports_times hfields) ?_
  refine Walk.reports_read_bind (Read.reads_u16 (Nat.lt_succ_of_le hml)) ?_
  refine Walk.reports_bind (Walk.reports_times h.methods) ?_
  -- the attributes are skipped, and the visit ends
  have hend : Walk.Reports (do
      Walk.skipAttributes
      Walk.report .finished) (tail ++ []) () ([] ++ [.finished]) :=
    Walk.reports_bind htail (Walk.reports_report .finished)
  rwa [List.append_nil] at hend

/-! #### Reading undoes building -/

/-- A unit that was just started. -/
theorem holds_start (hf : Fits all) {name superName : String}
    (hp : after [] [.classEntry name, .classEntry superName] <+: all) :
    Holds all (start name superName) (after [] [.classEntry name, .classEntry superName]) [] [] [] ∧
      IsClass all (start name superName).thisClass name ∧
      IsClass all (start name superName).superClass superName := by
  have hp' : after (after [] [.classEntry name]) [.classEntry superName] <+: all := by
    rwa [← after_append]
  obtain ⟨hn, hpool⟩ := isClass_classEntry hf stores_empty (prefix_first (l := [_]) hp)
  obtain ⟨hs, hpool⟩ := isClass_classEntry hf hpool hp'
  rw [← after_append] at hpool
  exact ⟨⟨hpool, .nil, .nil, .nil⟩, hn, hs⟩

/-- There are as many methods as steps that declare one. -/
theorem length_allMethodEvents (b : ClassBuilder) (l : List ClassStep) :
    (b.allMethodEvents l).length = (l.filterMap method?).length := by
  induction l generalizing b with
  | nil => rfl
  | cons s rest ih =>
    rw [allMethodEvents, List.length_append, ih]
    cases s with
    | method access name descriptor body => exact Nat.add_comm _ _
    | _ => exact Nat.zero_add _

/-- The constants of a finished unit are those that it asked for. -/
theorem build_spec (hf : Fits all) (h : Holds all b es interfaces fields methods)
    (hp : after es (sourceRequests b.sourceFile.isSome) = all) :
    ∃ b' sourceName, b.build.1 = b'.serialize sourceName ∧
      Holds all b' all interfaces fields methods ∧ b'.access = b.access ∧
      b'.thisClass = b.thisClass ∧ b'.superClass = b.superClass := by
  unfold build
  cases hs : b.sourceFile with
  | none =>
    rw [hs] at hp
    obtain rfl : es = all := hp
    exact ⟨b, none, rfl, h, rfl, rfl, rfl⟩
  | some file =>
    rw [hs] at hp
    have hp' : after es [.utf8 "SourceFile"] = all := hp
    have hpre : after es [.utf8 "SourceFile"] <+: all := ⟨[], (List.append_nil _).trans hp'⟩
    have hpool := (isText_utf8 hf h.pool hpre).2
    rw [hp'] at hpool
    exact ⟨{ b with pool := (utf8 "SourceFile" b.pool).2, sourceFile := some file },
      some (utf8 "SourceFile" b.pool).1, rfl, ⟨hpool, h.interfaces, h.fields, h.methods⟩,
      rfl, rfl, rfl⟩

/-- The bytes of a unit that was built by any steps are reported just as the steps said. -/
theorem reports_build {name superName : String} {l : List ClassStep} (hroom : HasRoom name superName l)
    (hl : ∀ s ∈ l, s.Admissible) :
    Walk.Reports Walk.unit ((start name superName).steps l).build.1 () (declared name superName l) := by
  let all := after [] (constants name superName l)
  have hf : Fits all := hroom.pool
  obtain ⟨ha, ht, hs, hfile⟩ := (start name superName).front_steps l
  -- the start and the steps ask for a part of the constants, building for the rest
  have hp : after (after (after [] [.classEntry name, .classEntry superName])
      (l.flatMap ClassStep.requests)) (sourceRequests (l.any namesSource)) = all := by
    rw [← after_append, ← after_append]
    rfl
  have hpre := prefix_after (after (after [] [.classEntry name, .classEntry superName])
    (l.flatMap ClassStep.requests)) (sourceRequests (l.any namesSource))
  rw [hp] at hpre
  -- the invariant holds at the start, and is carried to the end
  obtain ⟨hstart, hthis, hsuper⟩ := holds_start hf (List.IsPrefix.trans (prefix_after _ _) hpre)
  have hsteps := holds_steps hf hstart hl hpre hroom.bodies
  have hsome : ((start name superName).steps l).sourceFile.isSome = l.any namesSource := hfile
  rw [← hsome] at hp
  obtain ⟨b', sourceName, hb, hholds, ha', ht', hs'⟩ := build_spec hf hsteps hp
  have haccess : b'.access = accessBits [.isPublic, .isSuper, .isFinal] := ha'.trans ha
  have hbits : b'.access < 0x10000 := by
    rw [haccess]
    decide
  rw [← ht, ← ht'] at hthis
  rw [← hs, ← hs'] at hsuper
  have hmethods : ([] ++ (start name superName).allMethodEvents l).length ≤ 0xFFFF := by
    rw [List.nil_append, length_allMethodEvents]
    exact hroom.methods
  have hr := reports_unit hf hholds hbits hthis hsuper hroom.interfaces hroom.fields hmethods
    sourceName
  rw [haccess] at hr
  rw [hb]
  exact hr

end ClassBuilder

end CompileWatch
