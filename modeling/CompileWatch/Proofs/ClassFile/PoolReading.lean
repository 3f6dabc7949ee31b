import CompileWatch.Proofs.ClassFile.PoolOrder
import CompileWatch.Proofs.ClassFile.PoolTable
import CompileWatch.Proofs.Text.RoundTrip

/-!
# Pools read back

The bytes of a pool are read back as a table in which every constant stands at the number
that it was stored under, so that a lookup by that number finds what was asked for when it
was stored.

- `PoolBuilder.Fits`: constants that the format has room for.
- `PoolBuilder.table`: the pool that some constants are read as.
- `PoolBuilder.reads_pool`: the bytes of a pool are read as that table.
- `PoolBuilder.table_utf8`, `table_className`, `table_memberOwner`: the lookups.
-/

namespace CompileWatch

/-- How many bytes the text of a constant takes. -/
def PoolEntry.textSize : PoolEntry → Nat
  | .utf8 text => text.utf8ByteSize
  | _ => 0

namespace PoolBuilder

open ConstantPool Read

variable {e : PoolEntry} {es l : List PoolEntry} {p : PoolBuilder}

/-! ### Room -/

/-- Constants that the format has room for: all numbers and the lengths of all texts fit 16
bits. -/
structure Fits (es : List PoolEntry) : Prop where
  slots : slotsOf es ≤ 65534
  texts : ∀ e ∈ es, e.textSize ≤ 65535

/-- With enough room a constant stands at its place. -/
theorem number_eq_place (h : Fits es) (he : e ∈ es) : number es e = place es e := by
  obtain ⟨first, rest, rfl, hp⟩ := exists_place_eq he
  have hs := h.slots
  rw [slotsOf_append] at hs
  rw [number, clamp16, hp]
  omega

theorem number_lt (es : List PoolEntry) (e : PoolEntry) : number es e < 0x10000 := by
  rw [number, clamp16]
  omega

/-- No constant has the number zero. -/
theorem number_ne_zero (es : List PoolEntry) (e : PoolEntry) : number es e ≠ 0 := by
  rw [number, clamp16, place]
  omega

/-! ### The table -/

/-- What a constant is read as. -/
def constantOf (es : List PoolEntry) : PoolEntry → Constant
  | .utf8 text => .utf8 text
  | .classEntry name => .classEntry (number es (.utf8 name))
  | .member _ owner _ _ => .member (number es (.classEntry owner))
  | .string _ | .integer _ | .long _ | .nameAndType _ _ => .other

/-- The numbers that a constant takes, and what is read for them. -/
def rowsOf (es : List PoolEntry) (e : PoolEntry) : List Constant :=
  constantOf es e :: List.replicate (e.slots - 1) .unusable

/-- The pool that some constants are read as. -/
def table (es : List PoolEntry) : ConstantPool :=
  ⟨(.unusable :: es.flatMap (rowsOf es)).toArray⟩

/-- A constant has a row in the table for each of its slots. -/
theorem length_rowsOf (es : List PoolEntry) (e : PoolEntry) : (rowsOf es e).length = e.slots := by
  have := e.one_le_slots
  simp only [rowsOf, List.length_cons, List.length_replicate]
  omega

theorem length_flatMap_rowsOf (es l : List PoolEntry) :
    (l.flatMap (rowsOf es)).length = slotsOf l := by
  induction l with
  | nil => rfl
  | cons e rest ih => rw [List.flatMap_cons, List.length_append, length_rowsOf, ih, slotsOf]

/-! ### Reading -/

/-- The slots that one constant adds when it is read. -/
def slotsRead (es : List PoolEntry) : PoolEntry → Slots
  | .long _ => .two
  | e => .one (constantOf es e)

/-- What follows the first byte of a constant is read for it. -/
theorem reads_readSlots (h : e.textSize ≤ 65535) (index : Nat) :
    Reads (readSlots index e.tag.toNat)
      (e.content ++ e.refs.flatMap fun r => bytesOf16 (number es r)) (slotsRead es e) := by
  cases e with
  | utf8 text =>
    have ht : text.utf8ByteSize ≤ 65535 := h
    have hl : (Utf8.encode text).length = text.utf8ByteSize := Utf8.length_encode text
    have hc : clamp16 text.utf8ByteSize = (Utf8.encode text).length := by
      rw [clamp16]
      omega
    have hv : slotsRead es (.utf8 text) = .one (.utf8 (Utf8.decode (Utf8.encode text))) := by
      rw [Utf8.decode_encode]
      rfl
    show Reads _ (bytesOf16 (clamp16 text.utf8ByteSize) ++ Utf8.encode text ++ []) _
    rw [hc, hv, List.append_nil]
    exact reads_text (by omega) index
  | classEntry name =>
    show Reads _ (bytesOf16 (number es (.utf8 name)) ++ []) _
    rw [List.append_nil]
    exact reads_classEntry (number_lt es (.utf8 name)) index
  | string text => exact reads_skipped (n := 2) rfl
  | integer value => exact reads_skipped (n := 4) rfl
  | long value => exact reads_map (reads_skip (n := 8) rfl) fun _ => Slots.two
  | nameAndType name descriptor => exact reads_skipped (n := 4) rfl
  | member kind owner name descriptor =>
    show Reads _ (_ ++ (_ ++ [])) _
    rw [List.append_nil]
    exact reads_member kind (number_lt es (.classEntry owner)) _ index

/-- The rows are those that reading the constant gives. -/
theorem rows_slotsRead (es : List PoolEntry) (e : PoolEntry) :
    (slotsRead es e).rows = rowsOf es e := by
  cases e <;> rfl

/-- The constants of a list are each read as the slots that they take. -/
theorem reads_of_mem (hl : ∀ e ∈ l, e.textSize ≤ 65535) :
    ∀ e ∈ l, ∀ index, Reads (readSlots index e.tag.toNat)
      (e.content ++ e.refs.flatMap fun r => bytesOf16 (number es r)) (slotsRead es e) :=
  fun e he index => reads_readSlots (hl e he) index

/-- Constants whose texts fit are read one after another, as long as no more numbers are given to
them than there are. -/
theorem readEntries_append (hl : ∀ e ∈ l, e.textSize ≤ 65535) {count : Nat}
    {before : Array Constant} (hcount : before.size + slotsOf l ≤ count) (offset : Nat)
    (rest : Bytes) :
    readEntries count before ⟨offset, l.flatMap (encoded es) ++ rest⟩ =
      readEntries count (before ++ l.flatMap (rowsOf es))
        ⟨offset + (l.flatMap (encoded es)).length, rest⟩ := by
  have hrows : l.flatMap (fun e => (slotsRead es e).rows) = l.flatMap (rowsOf es) := by
    simp only [rows_slotsRead]
  rw [← length_flatMap_rowsOf es l, ← hrows] at hcount
  have h := readEntries_flatMap (reads_of_mem hl) hcount offset rest
  rw [hrows] at h
  exact h

/-- The bytes of a pool, after the number that ends it, are read as its table. -/
theorem reads_pool (hp : Stores p es) (h : Fits es) :
    Reads ConstantPool.read (bytesOf16 p.nextIndex ++ p.bytes) (table es) := by
  have hs := h.slots
  have hn : p.nextIndex = slotsOf es + 1 := by
    rw [hp.next, clamp16]
    omega
  have hb : p.bytes = es.flatMap (encoded es) := by
    rw [bytes, hp.chunks, List.flatMap_def]
  have hrows : es.flatMap (fun e => (slotsRead es e).rows) = es.flatMap (rowsOf es) := by
    simp only [rows_slotsRead]
  have hlength := length_flatMap_rowsOf es es
  rw [← hrows] at hlength
  have hread := reads_read (reads_of_mem h.texts) (by rw [hlength]; exact hs)
  rw [hlength, hrows, ← hn] at hread
  rw [hb]
  exact hread

/-! ### Lookups -/

/-- Every constant is found at its number. -/
theorem table_get (h : Fits es) (he : e ∈ es) :
    (table es).get (number es e) = .ok (constantOf es e) := by
  obtain ⟨first, rest, hes, hp⟩ := exists_place_eq he
  -- the rows before those of the constant are as many as its number says
  have hf : es.flatMap (rowsOf es) = first.flatMap (rowsOf es) ++
      (constantOf es e :: (List.replicate (e.slots - 1) .unusable ++ rest.flatMap (rowsOf es))) := by
    conv => lhs; rw [hes, List.flatMap_append, List.flatMap_cons]
    rw [← hes]
    rfl
  have htable : table es = tableOf (es.flatMap (rowsOf es)) := rfl
  rw [number_eq_place h he, hp, htable, hf, ← length_flatMap_rowsOf es first]
  exact get_tableOf_append _ _ _

/-- A text is found under its number. -/
theorem table_utf8 {text : String} (h : Fits es) (ht : .utf8 text ∈ es) :
    (table es).utf8 (number es (.utf8 text)) = .ok text := by
  rw [ConstantPool.utf8, table_get h ht]
  rfl

theorem table_className {name : String} (h : Fits es) (hn : .classEntry name ∈ es)
    (hc : .utf8 name ∈ es) : (table es).className (number es (.classEntry name)) = .ok name := by
  rw [className, table_get h hn]
  exact table_utf8 h hc

theorem table_memberOwner {kind : MemberKind} {owner name descriptor : String} (h : Fits es)
    (hm : .member kind owner name descriptor ∈ es) (hn : .classEntry owner ∈ es)
    (hc : .utf8 owner ∈ es) :
    (table es).memberOwner (number es (.member kind owner name descriptor)) = .ok owner := by
  rw [memberOwner, table_get h hm]
  exact table_className h hn hc

end PoolBuilder

end CompileWatch
