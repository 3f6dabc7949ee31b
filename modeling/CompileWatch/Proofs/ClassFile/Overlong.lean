import CompileWatch.Proofs.ClassFile.Limits

/-!
# Texts that are too long

A text that is longer than its length can say is stored with all its bytes. A reader takes what is
left of it for further constants, and gives up where that begins like none.

- `ClassBuilder.exists_build_eq`: the constants of a unit, whether they fit or not.
- `PoolBuilder.read_overlong`: a pool with such a text cannot be read.
- `Emit.Moderate.ofBytes_overlong`: nor can the unit of a function with too many parameters.
-/

namespace CompileWatch

/-! ### The constants of a unit -/

open PoolBuilder

namespace CodeBuilder

variable {b : CodeBuilder} {es : List PoolEntry}

/-- A step stores the constants that it asks for. -/
theorem stores_step (h : b.pool.Stores es) (s : CodeStep) :
    (b.step s).pool.Stores (after es s.requests) := by
  have hconstant (e : PoolEntry) : (b.constant e).2.pool.Stores (after es [e]) :=
    (interns_intern e b.pool es h).2
  cases s with
  | constant entry | load entry => exact hconstant entry
  | field opcode owner name descriptor => exact hconstant (.member .field owner name descriptor)
  | invoke opcode owner name descriptor => exact hconstant (.member .method owner name descriptor)
  | invokeInterface owner name descriptor slots =>
    exact hconstant (.member .interfaceMethod owner name descriptor)
  | type opcode name => exact hconstant (.classEntry name)
  | multiArray descriptor dimensions => exact hconstant (.classEntry descriptor)
  | _ => exact h

theorem stores_steps (h : b.pool.Stores es) (l : List CodeStep) :
    (b.steps l).pool.Stores (after es (l.flatMap CodeStep.requests)) := by
  induction l generalizing b es with
  | nil => exact h
  | cons s rest ih =>
    rw [List.flatMap_cons, after_append]
    exact ih (stores_step h s)

end CodeBuilder

namespace ClassBuilder

variable {b : ClassBuilder} {es : List PoolEntry}

theorem stores_method (h : b.pool.Stores es) (access : Nat) (name descriptor : String)
    (body : List CodeStep) : (b.method access name descriptor body).pool.Stores
      (after es (ClassStep.method access name descriptor body).requests) := by
  let c := (b.openMethod name descriptor).2
  have hopen : c.pool.Stores (after es [.utf8 name, .utf8 descriptor, .utf8 "Code"]) := by
    have hname := (interns_utf8 name _ _ h).2
    have hdescriptor := (interns_utf8 descriptor _ _ hname).2
    have hcode := (interns_utf8 "Code" _ _ hdescriptor).2
    rwa [← after_append, ← after_append] at hcode
  have hbody := stores_finishBody (CodeBuilder.stores_steps hopen body) (lines_steps c body)
  rwa [← after_append, ← after_append] at hbody

/-- A step stores the constants that it asks for. -/
theorem stores_step (h : b.pool.Stores es) (s : ClassStep) :
    (b.step s).pool.Stores (after es s.requests) := by
  cases s with
  | interface name => exact (interns_classEntry name _ _ h).2
  | field access name descriptor =>
    have hname := (interns_utf8 name _ _ h).2
    have hdescriptor := (interns_utf8 descriptor _ _ hname).2
    rwa [← after_append] at hdescriptor
  | method access name descriptor body => exact stores_method h access name descriptor body
  | source file => exact (interns_utf8 file _ _ h).2

theorem stores_steps (h : b.pool.Stores es) (l : List ClassStep) :
    (b.steps l).pool.Stores (after es (l.flatMap ClassStep.requests)) := by
  induction l generalizing b es with
  | nil => exact h
  | cons s rest ih =>
    rw [List.flatMap_cons, after_append]
    exact ih (stores_step h s)

/-- The bytes of a unit hold the constants that were asked for. -/
theorem exists_build_eq (name superName : String) (l : List ClassStep) :
    ∃ (b : ClassBuilder) (sourceName : Option Nat),
      ((start name superName).steps l).build.1 = b.serialize sourceName ∧
      b.pool.Stores (after [] (constants name superName l)) := by
  have hstart : (start name superName).pool.Stores
      (after [] [.classEntry name, .classEntry superName]) := by
    have hname := (interns_classEntry name _ _ stores_empty).2
    have hsuper := (interns_classEntry superName _ _ hname).2
    rwa [← after_append] at hsuper
  have hsteps := stores_steps hstart l
  have hfile := ((start name superName).front_steps l).2.2.2
  rw [constants, after_append, after_append]
  unfold build
  cases hs : ((start name superName).steps l).sourceFile with
  | none =>
    rw [hs] at hfile
    have hnone : l.any ClassStep.namesSource = false := hfile.symm
    exact ⟨_, none, rfl, by rwa [hnone]⟩
  | some file =>
    rw [hs] at hfile
    have hsome : l.any ClassStep.namesSource = true := hfile.symm
    refine ⟨_, some _, rfl, ?_⟩
    rw [hsome]
    exact (interns_utf8 "SourceFile" _ _ hsteps).2

end ClassBuilder

/-! ### Reading -/

namespace PoolBuilder

open ConstantPool Read

variable {es : List PoolEntry} {p : PoolBuilder}

/-- No constant begins with a byte beyond the tags. -/
theorem readSlots_of_lt {tag : Nat} (h : 20 < tag) (index : Nat) :
    readSlots index tag = Read.fail (.unknownTag index tag) := by
  unfold readSlots
  split <;> first | omega | rfl

/-- A text that is too long is cut where its length ends, and the next constant begins inside. -/
theorem readEntries_overlong {text : String} (htext : 65535 < text.utf8ByteSize)
    (hbytes : ∀ b ∈ Utf8.encode text, 20 < b.toNat) {count : Nat} {before : Array Constant}
    (hcount : before.size + 2 ≤ count) (offset : Nat) (rest : Bytes) :
    ∃ e, readEntries count before ⟨offset, encoded es (.utf8 text) ++ rest⟩ = .error e := by
  have hlength : 65535 < (Utf8.encode text).length := by rwa [Utf8.length_encode]
  obtain ⟨b, others, hdrop⟩ : ∃ b others, (Utf8.encode text).drop 65535 = b :: others :=
    List.exists_cons_of_ne_nil (by rw [ne_eq, List.drop_eq_nil_iff]; omega)
  have hb : 20 < b.toNat := hbytes b (List.mem_of_mem_drop (hdrop ▸ List.mem_cons_self))
  let shown := (Utf8.encode text).take 65535
  have hencoded : encoded es (.utf8 text) ++ rest =
      [1] ++ ((bytesOf16 65535 ++ shown) ++ ([b] ++ (others ++ rest))) := by
    have hcut : clamp16 text.utf8ByteSize = 65535 := by
      rw [clamp16]
      omega
    have hsplit : Utf8.encode text = shown ++ b :: others := by
      rw [← hdrop, List.take_append_drop]
    rw [encoded, PoolEntry.content, hcut, hsplit]
    simp [PoolEntry.tag, PoolEntry.refs]
  have hshown : Reads (readSlots before.size 1) (bytesOf16 65535 ++ shown)
      (.one (.utf8 (Utf8.decode shown))) := by
    have htake : shown.length = 65535 := by
      rw [List.length_take]
      omega
    refine reads_bind (reads_u16 (by decide)) ?_
    exact reads_map (reads_take htake) fun bytes => Slots.one (.utf8 (Utf8.decode bytes))
  have hsize : (Slots.addTo before (.one (.utf8 (Utf8.decode shown)))).size = before.size + 1 :=
    Array.size_push _
  rw [hencoded, readEntries, if_pos (by omega), bind_run_of_readsAt (reads_u8 1 _)]
  show ∃ e, (readSlots before.size 1 >>= _) _ = _
  rw [bind_run_of_readsAt (hshown _), readEntries, if_pos (by omega),
    bind_run_of_readsAt (reads_u8 b _), readSlots_of_lt hb]
  exact ⟨_, rfl⟩

/-- A pool cannot be read if one of its texts is too long, the constants before it are not, and
another one follows. -/
theorem read_overlong {first rest : List PoolEntry} {next : PoolEntry} {text : String}
    (hp : Stores p (first ++ .utf8 text :: next :: rest))
    (hslots : slotsOf (first ++ .utf8 text :: next :: rest) ≤ 65534)
    (hfirst : ∀ e ∈ first, e.textSize ≤ 65535) (htext : 65535 < text.utf8ByteSize)
    (hbytes : ∀ b ∈ Utf8.encode text, 20 < b.toNat) (offset : Nat) (more : Bytes) :
    ∃ e, ConstantPool.read ⟨offset, bytesOf16 p.nextIndex ++ p.bytes ++ more⟩ = .error e := by
  let all := first ++ .utf8 text :: next :: rest
  have hnumbers : slotsOf all = slotsOf first + (1 + (next.slots + slotsOf rest)) :=
    slotsOf_append _ _
  have hnext := next.one_le_slots
  have hindex : p.nextIndex = 1 + slotsOf all := by
    rw [hp.next, clamp16]
    show min (1 + slotsOf all) 0xFFFF = _
    have hall : slotsOf all ≤ 65534 := hslots
    omega
  have hbytes' : p.bytes ++ more = first.flatMap (encoded all) ++ (encoded all (.utf8 text) ++
      ((next :: rest).flatMap (encoded all) ++ more)) := by
    rw [bytes, hp.chunks, ← List.flatMap_def, List.flatMap_append, List.flatMap_cons,
      List.append_assoc, List.append_assoc]
  have hcount : p.nextIndex < 0x10000 := by
    rw [hp.next, clamp16]
    omega
  have hsize : (#[Constant.unusable] ++ first.flatMap (rowsOf all)).size = 1 + slotsOf first := by
    rw [← length_flatMap_rowsOf all first, ← Array.length_toList]
    simp [Nat.add_comm]
  have hroom : (#[Constant.unusable] ++ first.flatMap (rowsOf all)).size + 2 ≤ p.nextIndex := by
    omega
  obtain ⟨e, he⟩ : ∃ e, readEntries p.nextIndex (#[Constant.unusable] ++ first.flatMap (rowsOf all))
      ⟨offset + (bytesOf16 p.nextIndex).length + (first.flatMap (encoded all)).length,
        encoded all (.utf8 text) ++ ((next :: rest).flatMap (encoded all) ++ more)⟩ = .error e :=
    readEntries_overlong htext hbytes hroom _ _
  refine ⟨e, ?_⟩
  rw [ConstantPool.read, List.append_assoc, bind_run_of_readsAt (reads_u16 hcount _), hbytes']
  refine Read.bind_run_of_error ?_
  rw [readEntries_append hfirst (by show 1 + slotsOf first ≤ _; omega)]
  exact he

end PoolBuilder

/-! ### Units -/

namespace ClassFile

/-- A visit fails with the front of its unit. -/
theorem status_visit_of_error {bytes : Bytes} {e : FormatError}
    (h : readPrelude ⟨0, bytes⟩ = .error e) : (visit bytes).status = .error e := by
  have hread : Walk.read readPrelude ⟨⟨0, bytes⟩, #[]⟩ = (.error e, ⟨⟨0, bytes⟩, #[]⟩) := by
    unfold Walk.read
    rw [h]
  have hunit : Walk.unit.run ⟨⟨0, bytes⟩, #[]⟩ = (.error e, ⟨⟨0, bytes⟩, #[]⟩) :=
    Walk.bind_run_of_error hread
  rw [visit, hunit]

/-- A unit whose constants cannot be read cannot be visited. -/
theorem ofBytes_of_error {b : ClassBuilder} {sourceName : Option Nat}
    (h : ∀ offset more, ∃ e, ConstantPool.read
      ⟨offset, bytesOf16 b.pool.nextIndex ++ b.pool.bytes ++ more⟩ = .error e) :
    (Metrics.ofBytes (b.serialize sourceName)).1 = .unknown := by
  obtain ⟨tail, hbytes, -⟩ := ClassBuilder.exists_serialize_eq b sourceName
  obtain ⟨e, he⟩ : ∃ e, readPrelude ⟨0, b.serialize sourceName⟩ = .error e := by
    rw [hbytes, List.append_assoc, readPrelude, Read.bind_run_of_readsAt (Read.reads_u32 (by decide) _),
      if_neg (by simp), List.append_assoc, Read.bind_run_of_readsAt (Read.reads_u16 (by decide) _),
      List.append_assoc, Read.bind_run_of_readsAt (Read.reads_u16 (by decide) _)]
    obtain ⟨e, he⟩ := h _ _
    exact ⟨e, Read.bind_run_of_error he⟩
  rw [Metrics.ofBytes_of_status_error (status_visit_of_error he)]

end ClassFile

/-! ### Functions with too many parameters -/

namespace Emit

variable {name : QualifiedName} {arity : Nat} {refs : List Reference} {line : Option Nat}

/-- Every byte of a descriptor is beyond the tags of constants. -/
theorem lt_of_mem_encode_invokeDescriptor {b : UInt8}
    (h : b ∈ Utf8.encode (invokeDescriptor arity)) : 20 < b.toNat := by
  rw [Utf8.encode_eq_flatMap] at h
  obtain ⟨c, hc, hb⟩ := List.mem_flatMap.mp h
  have hchars : c ∈ "()".toList ++ objectDescriptor.toList := by
    simp only [invokeDescriptor, String.toList_append, String.toList_join, List.mem_append,
      List.mem_flatMap] at hc ⊢
    rcases hc with ((hc | ⟨_, hmem, hc⟩) | hc) | hc
    · exact .inl (List.mem_of_mem_take (i := 1) hc)
    · exact .inr (List.eq_of_mem_replicate hmem ▸ hc)
    · exact .inl (List.mem_of_mem_drop (i := 1) hc)
    · exact .inr hc
  have hall : ("()".toList ++ objectDescriptor.toList).all
      (fun c => (String.utf8EncodeChar c).all (20 < ·.toNat)) = true := by decide
  simp only [List.all_eq_true, decide_eq_true_eq] at hall
  exact hall c hchars b hb

variable (name arity refs line)

/-- The descriptor of a unit is followed by a constant that refers to it. -/
theorem exists_after_descriptor : ∃ first next rest, after []
    (ClassBuilder.constants name.unitName functionClass (classSteps name arity refs line)) =
      first ++ .utf8 (invokeDescriptor arity) :: next :: rest ∧
      .utf8 (invokeDescriptor arity) ∉ first := by
  -- the function is called on an object through its static method
  let call := PoolEntry.member .method name.unitName "invokeStatic" (invokeDescriptor arity)
  have hcall : call ∈
      ClassBuilder.constants name.unitName functionClass (classSteps name arity refs line) := by
    refine List.mem_append_right _ (List.mem_append_left _ (List.mem_flatMap.mpr
      ⟨.method (accessBits [.isPublic]) "invoke" (invokeDescriptor arity)
        (parameterSteps arity ++ [.invoke Opcode.invokeStatic name.unitName "invokeStatic"
          (invokeDescriptor arity), .op Opcode.areturn []]), by simp [classSteps], ?_⟩))
    simp [ClassStep.requests, CodeStep.requests, call]
  exact exists_following (mem_after hcall call.mem_parts) (by simp [call, PoolEntry.before])

variable {name arity refs line}

/-- The unit of a function with too many parameters cannot be read. -/
theorem Moderate.ofBytes_overlong (h : Moderate name refs) (harity : parameterLimit < arity) :
    (Metrics.ofBytes (emitFunction name arity refs line).2).1 = .unknown := by
  obtain ⟨b, sourceName, hbuild, hstores⟩ := ClassBuilder.exists_build_eq name.unitName
    functionClass (classSteps name arity refs line)
  obtain ⟨first, next, rest, hall, hfirst⟩ := exists_after_descriptor name arity refs line
  have hslots : slotsOf (after [] (ClassBuilder.constants name.unitName functionClass
      (classSteps name arity refs line))) ≤ 65534 := h.slots_le
  rw [hall] at hstores hslots
  have htexts : ∀ e ∈ first, e.textSize ≤ 65535 := by
    intro e he
    have hmem := List.mem_append_left (.utf8 (invokeDescriptor arity) :: next :: rest) he
    rw [← hall] at hmem
    exact h.textSize_le (mem_unitConstants hmem) fun heq => hfirst (heq ▸ he)
  have htext : 65535 < (invokeDescriptor arity).utf8ByteSize := by
    have hlimit : 3639 < arity := harity
    rw [utf8ByteSize_invokeDescriptor]
    omega
  rw [emitFunction_eq, hbuild]
  exact ClassFile.ofBytes_of_error fun offset more => read_overlong hstores hslots htexts htext
    (fun b hb => lt_of_mem_encode_invokeDescriptor hb) offset more

end Emit

end CompileWatch
