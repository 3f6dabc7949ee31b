import CompileWatch.Proofs.ClassFile.Reading

/-!
# Tables of constants

Constants that are stored one after another are read into a table in which each stands where
those before it end, whatever is stored: all that matters is that each is read as the slots
that it takes.

- `ConstantPool.Slots.rows`: the entries of a table that one constant takes.
- `ConstantPool.readEntries_flatMap`, `reads_read`: what is stored in a row is read as a table.
- `ConstantPool.get_tableOf_append`: a constant stands behind the slots before it.
-/

namespace CompileWatch

namespace ConstantPool

open Read

/-! ### Slots -/

/-- The entries of a table that one constant takes. -/
def Slots.rows : Slots → List Constant
  | .one c => [c]
  | .two => [.other, .unusable]

/-- What was read is put behind the rows before. -/
theorem Slots.addTo_eq (before : Array Constant) (s : Slots) :
    s.addTo before = before ++ s.rows := by
  cases s <;> exact Array.ext' (by simp [addTo, rows])

/-- Every constant that is read has a row. -/
theorem Slots.length_rows_pos (s : Slots) : 0 < s.rows.length := by
  cases s <;> exact Nat.succ_pos _

/-! ### One constant -/

/-- A constant that nothing is asked about is skipped as a whole. -/
theorem reads_skipped {n : Nat} {bytes : Bytes} (h : bytes.length = n) :
    Reads (skipped n) bytes (.one .other) :=
  reads_map (reads_skip h) fun _ => Slots.one .other

/-- A text is read behind its length. -/
theorem reads_text {bytes : Bytes} (h : bytes.length ≤ 65535) (index : Nat) :
    Reads (readSlots index 1) (bytesOf16 bytes.length ++ bytes)
      (.one (.utf8 (Utf8.decode bytes))) := by
  refine reads_bind (reads_u16 (by omega)) ?_
  exact reads_map (reads_take rfl) fun bytes => Slots.one (.utf8 (Utf8.decode bytes))

/-- A class is read as the number of its name. -/
theorem reads_classEntry {n : Nat} (h : n < 0x10000) (index : Nat) :
    Reads (readSlots index 7) (bytesOf16 n) (.one (.classEntry n)) :=
  reads_map (reads_u16 h) fun n => Slots.one (.classEntry n)

/-- Of a member the number of its class is read, whatever the kind is. -/
theorem reads_member (kind : MemberKind) {n : Nat} (h : n < 0x10000) (nameAndType : Nat)
    (index : Nat) :
    Reads (readSlots index kind.tag.toNat) (bytesOf16 n ++ bytesOf16 nameAndType)
      (.one (.member n)) := by
  have hread : Reads (do
        let classIndex ← u16
        skip 2
        return Slots.one (.member classIndex)) (bytesOf16 n ++ bytesOf16 nameAndType)
      (.one (.member n)) := by
    refine reads_bind (reads_u16 h) ?_
    exact reads_map (reads_skip (n := 2) rfl) fun _ => Slots.one (.member n)
  cases kind <;> exact hread

/-! ### Constants in a row -/

section Reading

variable {ι : Type} {tag : ι → UInt8} {content : ι → Bytes} {slots : ι → Slots} {l : List ι}

/-- Things that are each stored with a tag are read one after another, as long as no more
entries are taken than there are numbers. -/
theorem readEntries_flatMap
    (h : ∀ i ∈ l, ∀ index, Reads (readSlots index (tag i).toNat) (content i) (slots i)) {count : Nat}
    {before : Array Constant}
    (hcount : before.size + (l.flatMap fun i => (slots i).rows).length ≤ count) (offset : Nat)
    (rest : Bytes) :
    readEntries count before ⟨offset, l.flatMap (fun i => tag i :: content i) ++ rest⟩ =
      readEntries count (before ++ l.flatMap fun i => (slots i).rows)
        ⟨offset + (l.flatMap fun i => tag i :: content i).length, rest⟩ := by
  -- the loop stops at a number and not after so many constants: some take two entries
  induction l generalizing before offset with
  | nil =>
    have ha : before ++ ([] : List ι).flatMap (fun i => (slots i).rows) = before :=
      Array.ext' (by simp)
    rw [ha]
    rfl
  | cons i others ih =>
    obtain ⟨hi, hothers⟩ := List.forall_mem_cons.mp h
    rw [List.flatMap_cons, List.length_append] at hcount
    have hlt : before.size < count := by
      have := (slots i).length_rows_pos
      omega
    have hsize : ((slots i).addTo before).size = before.size + (slots i).rows.length := by
      rw [Slots.addTo_eq, ← Array.length_toList]
      simp
    have hrows : (slots i).addTo before ++ others.flatMap (fun i => (slots i).rows) =
        before ++ (i :: others).flatMap fun i => (slots i).rows := by
      rw [Slots.addTo_eq]
      exact Array.ext' (by simp)
    have hbytes : (i :: others).flatMap (fun i => tag i :: content i) =
        [tag i] ++ (content i ++ others.flatMap fun i => tag i :: content i) := by simp
    rw [readEntries, if_pos hlt, hbytes, List.append_assoc,
      bind_run_of_readsAt (reads_u8 (tag i) _),
      List.append_assoc, bind_run_of_readsAt (hi before.size _), ih hothers (by omega), hrows,
      List.length_append, List.length_append, ← Nat.add_assoc, ← Nat.add_assoc]

/-- What is stored in a row is read up to the number after the last. -/
theorem reads_readEntries
    (h : ∀ i ∈ l, ∀ index, Reads (readSlots index (tag i).toNat) (content i) (slots i))
    (before : Array Constant) :
    Reads (readEntries (before.size + (l.flatMap fun i => (slots i).rows).length) before)
      (l.flatMap fun i => tag i :: content i) (before ++ l.flatMap fun i => (slots i).rows) := by
  intro offset rest
  have hsize : ¬(before ++ l.flatMap fun i => (slots i).rows).size <
      before.size + (l.flatMap fun i => (slots i).rows).length := by
    rw [← Array.length_toList]
    simp
  rw [readEntries_flatMap h (Nat.le_refl _), readEntries, if_neg hsize]
  rfl

/-- The pool with some entries after the one that stands for nothing. -/
def tableOf (rows : List Constant) : ConstantPool := ⟨(.unusable :: rows).toArray⟩

/-- Behind their count, constants are read as the table of their entries. -/
theorem reads_read
    (h : ∀ i ∈ l, ∀ index, Reads (readSlots index (tag i).toNat) (content i) (slots i))
    (hfits : (l.flatMap fun i => (slots i).rows).length ≤ 65534) :
    Reads ConstantPool.read
      (bytesOf16 ((l.flatMap fun i => (slots i).rows).length + 1) ++
        l.flatMap fun i => tag i :: content i)
      (tableOf (l.flatMap fun i => (slots i).rows)) := by
  have htable : #[Constant.unusable] ++ l.flatMap (fun i => (slots i).rows) =
      (.unusable :: l.flatMap fun i => (slots i).rows).toArray := Array.ext' (by simp)
  have hentries := reads_map (reads_readEntries h #[.unusable]) ConstantPool.mk
  rw [htable, Nat.add_comm] at hentries
  exact reads_bind (reads_u16 (by omega)) hentries

end Reading

/-! ### Lookups -/

section Lookups

variable {pool : ConstantPool} {index : Nat} {c : Constant}

theorem get_tableOf_zero (rows : List Constant) : (tableOf rows).get 0 = .ok .unusable := rfl

/-- A constant stands behind the entries before it. -/
theorem get_tableOf_append (first rest : List Constant) (c : Constant) :
    (tableOf (first ++ c :: rest)).get (1 + first.length) = .ok c := by
  have hget : (tableOf (first ++ c :: rest)).entries[1 + first.length]? = some c := by
    show (Constant.unusable :: (first ++ c :: rest)).toArray[1 + first.length]? = _
    rw [List.getElem?_toArray, Nat.add_comm, List.getElem?_cons_succ,
      List.getElem?_append_right (Nat.le_refl _), Nat.sub_self]
    rfl
  rw [get, hget]

/-- A number behind the last row is a bad one. -/
theorem get_tableOf_of_lt {rows : List Constant} (h : rows.length < index) :
    (tableOf rows).get index = .error (.badIndex index) := by
  have hget : (tableOf rows).entries[index]? = none := by
    show (Constant.unusable :: rows).toArray[index]? = none
    rw [List.getElem?_toArray, List.getElem?_eq_none_iff]
    exact h
  rw [get, hget]

/-- The lookup that asks for a kind of constant. -/
def lookup (pool : ConstantPool) : ConstantKind → Nat → Except FormatError String
  | .utf8 => pool.utf8
  | .classEntry => pool.className
  | .member => pool.memberOwner

/-- The kind of constant that a lookup has to ask for to be answered. -/
def kindOf? : Constant → Option ConstantKind
  | .utf8 _ => some .utf8
  | .classEntry _ => some .classEntry
  | .member _ => some .member
  | .unusable | .other => none

/-- A lookup for another kind of constant fails. -/
theorem lookup_of_kindOf?_ne (h : pool.get index = .ok c) {kind : ConstantKind}
    (hkind : kindOf? c ≠ some kind) :
    pool.lookup kind index = .error (.unexpectedConstant index kind) := by
  cases kind with
  | utf8 =>
    rw [lookup, utf8, h]
    cases c <;> first | rfl | exact absurd rfl hkind
  | classEntry =>
    rw [lookup, className, h]
    cases c <;> first | rfl | exact absurd rfl hkind
  | member =>
    rw [lookup, memberOwner, h]
    cases c <;> first | rfl | exact absurd rfl hkind

/-- Where there is no row, nothing of any kind is found. -/
theorem lookup_of_get_eq_error {e : FormatError} (h : pool.get index = .error e)
    (kind : ConstantKind) : pool.lookup kind index = .error e := by
  cases kind with
  | utf8 => rw [lookup, utf8, h]; rfl
  | classEntry => rw [lookup, className, h]; rfl
  | member => rw [lookup, memberOwner, h]; rfl

end Lookups

end ConstantPool

end CompileWatch
