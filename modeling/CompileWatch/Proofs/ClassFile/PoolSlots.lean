import CompileWatch.Proofs.ClassFile.PoolTable
import CompileWatch.Proofs.Text.RoundTrip
import Mathlib.Logic.Relation

/-!
# Numbers and slots

A constant is looked up by the number of slots before it. Reading keeps the two together: what
is stored in a row is found at its numbers, with two numbers for a long or a double, and for
any bytes whatever the reader's number is that of the entry that it is about to read.

- `StoredConstant`: the constants of the format, with their bytes.
- `StoredConstant.Resolves`: what the lookups in a pool give for some constants.
- `Turn`: the reader's loop before a tag is read, with a number of 16 bits.
- `ConstantPool.read_aligned`: numbers and slots agree.
-/

namespace CompileWatch

open ConstantPool Read

/-! ### Stored constants -/

/-- The kinds of constant that take two slots. -/
inductive WideKind where
  | long
  | double

def WideKind.tag : WideKind → UInt8
  | .long => 5
  | .double => 6

/-- The other kinds of constant that no lookup asks for. -/
inductive PassedKind where
  | integer
  | float
  | string
  | nameAndType
  | methodHandle
  | methodType
  | dynamic
  | invokeDynamic
  | moduleName
  | packageName

namespace PassedKind

def tag : PassedKind → UInt8
  | integer => 3
  | float => 4
  | string => 8
  | nameAndType => 12
  | methodHandle => 15
  | methodType => 16
  | dynamic => 17
  | invokeDynamic => 18
  | moduleName => 19
  | packageName => 20

/-- How many bytes stand behind the tag. -/
def size : PassedKind → Nat
  | integer | float | nameAndType | dynamic | invokeDynamic => 4
  | methodHandle => 3
  | string | methodType | moduleName | packageName => 2

end PassedKind

/-- A constant as the format has it. -/
inductive StoredConstant where
  | text (bytes : Bytes) (short : bytes.length ≤ 65535)
  | classEntry (nameIndex : UInt16)
  | member (kind : MemberKind) (classIndex nameAndType : UInt16)
  | wide (kind : WideKind) (body : Vector UInt8 8)
  | passed (kind : PassedKind) (body : Vector UInt8 kind.size)

namespace StoredConstant

variable {c : StoredConstant} {cs : List StoredConstant}

def tag : StoredConstant → UInt8
  | text _ _ => 1
  | classEntry _ => 7
  | member kind _ _ => kind.tag
  | wide kind _ => kind.tag
  | passed kind _ => kind.tag

/-- The bytes behind the tag. -/
def content : StoredConstant → Bytes
  | text bytes _ => bytesOf16 bytes.length ++ bytes
  | classEntry nameIndex => bytesOf16 nameIndex.toNat
  | member _ classIndex nameAndType => bytesOf16 classIndex.toNat ++ bytesOf16 nameAndType.toNat
  | wide _ body => body.toList
  | passed _ body => body.toList

/-- The bytes of a constant. -/
def encode (c : StoredConstant) : Bytes := c.tag :: c.content

/-- How many numbers a constant takes. -/
def slots : StoredConstant → Nat
  | wide _ _ => 2
  | _ => 1

/-- How many numbers some constants take. -/
def slotsOf : List StoredConstant → Nat
  | [] => 0
  | c :: rest => c.slots + slotsOf rest

/-- The kind of constant that a lookup has to ask for to be answered. -/
def kind? : StoredConstant → Option ConstantKind
  | text _ _ => some .utf8
  | classEntry _ => some .classEntry
  | member _ _ _ => some .member
  | wide _ _ | passed _ _ => none

/-- What a constant is read as. -/
def read : StoredConstant → Constant
  | text bytes _ => .utf8 (Utf8.decode bytes)
  | classEntry nameIndex => .classEntry nameIndex.toNat
  | member _ classIndex _ => .member classIndex.toNat
  | wide _ _ | passed _ _ => .other

/-- The slots that a constant is read as. -/
def slotsRead : StoredConstant → Slots
  | wide _ _ => .two
  | c => .one c.read

/-- A constant is read as many rows as it has slots. -/
theorem length_rows_slotsRead (c : StoredConstant) : c.slotsRead.rows.length = c.slots := by
  cases c <;> rfl

/-- The first row of a constant is what it is read as, and a second one cannot be used. -/
theorem rows_slotsRead (c : StoredConstant) : ∃ upper, c.slotsRead.rows = c.read :: upper ∧
    (c.slots = 2 → upper = [.unusable]) := by
  cases c with
  | wide => exact ⟨[.unusable], rfl, fun _ => rfl⟩
  | text | classEntry | member | passed => exact ⟨[], rfl, fun h => by cases h⟩

/-- A constant is read as one of its kind. -/
theorem kindOf?_read (c : StoredConstant) : kindOf? c.read = c.kind? := by
  cases c <;> rfl

theorem length_flatMap_rows (cs : List StoredConstant) :
    (cs.flatMap fun c => c.slotsRead.rows).length = slotsOf cs := by
  induction cs with
  | nil => rfl
  | cons c rest ih =>
    rw [List.flatMap_cons, List.length_append, length_rows_slotsRead, ih, slotsOf]

/-- What stands behind the tag is read, and no more. -/
theorem reads_content (c : StoredConstant) (index : Nat) :
    Reads (readSlots index c.tag.toNat) c.content c.slotsRead := by
  cases c with
  | text bytes short => exact reads_text short index
  | classEntry nameIndex => exact reads_classEntry nameIndex.toNat_lt index
  | member kind classIndex nameAndType => exact reads_member kind classIndex.toNat_lt _ index
  | wide kind body =>
    have hread := reads_map (reads_skip body.length_toList) fun _ => Slots.two
    cases kind <;> exact hread
  | passed kind body =>
    have hread := reads_skipped body.length_toList
    cases kind <;> exact hread

/-! ### Lookups -/

/-- A constant stands at a number among some constants. -/
def StandsAt (cs : List StoredConstant) (c : StoredConstant) (index : Nat) : Prop :=
  ∃ first rest, cs = first ++ c :: rest ∧ index = 1 + slotsOf first

/-- What the lookups in a pool give for some constants. -/
structure Resolves (cs : List StoredConstant) (pool : ConstantPool) : Prop where
  text : ∀ {bytes short index}, StandsAt cs (text bytes short) index →
    pool.utf8 index = .ok (Utf8.decode bytes)
  className : ∀ {bytes short nameIndex index}, StandsAt cs (classEntry nameIndex) index →
    StandsAt cs (.text bytes short) nameIndex.toNat →
    pool.className index = .ok (Utf8.decode bytes)
  owner : ∀ {bytes short nameIndex kind classIndex nameAndType index},
    StandsAt cs (member kind classIndex nameAndType) index →
    StandsAt cs (classEntry nameIndex) classIndex.toNat →
    StandsAt cs (.text bytes short) nameIndex.toNat →
    pool.memberOwner index = .ok (Utf8.decode bytes)
  otherKind : ∀ {c index} (kind : ConstantKind), StandsAt cs c index → c.kind? ≠ some kind →
    pool.lookup kind index = .error (.unexpectedConstant index kind)
  zero : ∀ kind, pool.lookup kind 0 = .error (.unexpectedConstant 0 kind)
  upperHalf : ∀ {c index}, StandsAt cs c index → c.slots = 2 → ∀ kind,
    pool.lookup kind (index + 1) = .error (.unexpectedConstant (index + 1) kind)
  pastEnd : ∀ {index}, slotsOf cs < index → ∀ kind,
    pool.lookup kind index = .error (.badIndex index)

/-- The pool that some constants are read as. -/
def table (cs : List StoredConstant) : ConstantPool :=
  tableOf (cs.flatMap fun c => c.slotsRead.rows)

/-- Under its number a constant is found as it is read. -/
theorem get_table {index : Nat} (h : StandsAt cs c index) : (table cs).get index = .ok c.read := by
  obtain ⟨first, rest, rfl, rfl⟩ := h
  obtain ⟨upper, hrows, -⟩ := c.rows_slotsRead
  rw [table, List.flatMap_append, List.flatMap_cons, hrows, ← length_flatMap_rows]
  exact get_tableOf_append _ _ _

/-- Under the number behind a constant of two slots, nothing can be used. -/
theorem get_table_succ {index : Nat} (h : StandsAt cs c index) (hslots : c.slots = 2) :
    (table cs).get (index + 1) = .ok .unusable := by
  obtain ⟨first, rest, rfl, rfl⟩ := h
  obtain ⟨upper, hrows, hupper⟩ := c.rows_slotsRead
  have hsplit : (first ++ c :: rest).flatMap (fun c => c.slotsRead.rows) =
      (first.flatMap (fun c => c.slotsRead.rows) ++ [c.read]) ++
        .unusable :: rest.flatMap fun c => c.slotsRead.rows := by
    rw [List.flatMap_append, List.flatMap_cons, hrows, hupper hslots]
    simp
  have hlength : 1 + slotsOf first + 1 =
      1 + (first.flatMap (fun c => c.slotsRead.rows) ++ [c.read]).length := by
    rw [List.length_append, length_flatMap_rows]
    rfl
  rw [table, hsplit, hlength]
  exact get_tableOf_append _ _ _

/-- The table that is read resolves what stands in it. -/
theorem resolves_table (cs : List StoredConstant) : Resolves cs (table cs) := by
  have htext : ∀ {bytes short index}, StandsAt cs (.text bytes short) index →
      (table cs).utf8 index = .ok (Utf8.decode bytes) := by
    intro bytes short index h
    rw [utf8, get_table h]
    rfl
  have hclass : ∀ {bytes short nameIndex index}, StandsAt cs (.classEntry nameIndex) index →
      StandsAt cs (.text bytes short) nameIndex.toNat →
      (table cs).className index = .ok (Utf8.decode bytes) := by
    intro bytes short nameIndex index h hname
    rw [className, get_table h]
    exact htext hname
  constructor
  · exact htext
  · exact hclass
  · intro bytes short nameIndex kind classIndex nameAndType index h hclassAt hname
    rw [memberOwner, get_table h]
    exact hclass hclassAt hname
  · intro c index kind h hkind
    rw [← kindOf?_read] at hkind
    exact lookup_of_kindOf?_ne (get_table h) hkind
  · intro kind
    exact lookup_of_kindOf?_ne (get_tableOf_zero _) (Option.some_ne_none kind).symm
  · intro c index h hslots kind
    exact lookup_of_kindOf?_ne (get_table_succ h hslots) (Option.some_ne_none kind).symm
  · intro index h kind
    rw [← length_flatMap_rows] at h
    exact lookup_of_get_eq_error (get_tableOf_of_lt h) kind

/-- Behind their count, constants are read, and no more. -/
theorem reads_table (h : slotsOf cs ≤ 65534) :
    Reads ConstantPool.read (bytesOf16 (slotsOf cs + 1) ++ cs.flatMap encode) (table cs) := by
  have hread := ConstantPool.reads_read (l := cs) (fun c _ => c.reads_content)
    (by rwa [length_flatMap_rows])
  rwa [length_flatMap_rows] at hread

end StoredConstant

/-! ### The loop with a number of its own -/

/-- The reader's loop before a tag is read: the number of the next constant in 16 bits, the
entries so far, and the bytes that are left. -/
structure Turn where
  index : UInt16
  entries : Array Constant
  cursor : Cursor

namespace Turn

/-- The number after some slots. One is added as numbers of 16 bits are added, which must not
overflow; two are added up to the greatest number. -/
def advance (index : UInt16) : Slots → UInt16
  | .one _ => index + 1
  | .two => if index.toNat + 2 < 0x10000 then index + 2 else 0xFFFF

/-- The first turn. -/
def start (c : Cursor) : Turn := ⟨1, #[.unusable], c⟩

/-- One turn after another: a constant is read below the count. -/
inductive Next (count : Nat) : Turn → Turn → Prop where
  | mk {s : Turn} {tag : Nat} {slots : Slots} {c c' : Cursor} :
      s.index.toNat < count → Read.u8 s.cursor = .ok (tag, c) →
      readSlots s.index.toNat tag c = .ok (slots, c') →
      Next count s ⟨advance s.index slots, slots.addTo s.entries, c'⟩

/-- The turns that follow each other from a cursor. -/
def Reached (count : Nat) (c : Cursor) : Turn → Prop := Relation.ReflTransGen (Next count) (start c)

/-- The number is that of the entries, as far as 16 bits go. -/
def Aligned (s : Turn) : Prop := clamp16 s.entries.size = s.index.toNat

variable {count : Nat} {s s' : Turn} {c : Cursor}

/-- Before the first constant, index and rows are in step. -/
theorem aligned_start (c : Cursor) : (start c).Aligned := rfl

/-- Below a count of 16 bits the number is exact, and there is one more. -/
theorem Aligned.exact (h : s.Aligned) (hcount : count < 0x10000) (hlt : s.index.toNat < count) :
    s.entries.size = s.index.toNat ∧ (s.index + 1).toNat = s.index.toNat + 1 := by
  rw [Aligned, clamp16] at h
  constructor
  · omega
  · rw [UInt16.toNat_add]
    exact Nat.mod_eq_of_lt (by show s.index.toNat + 1 < 0x10000; omega)

/-- A turn keeps the number that of the entries. -/
theorem Aligned.next (h : s.Aligned) (hcount : count < 0x10000) (hnext : Next count s s') :
    s'.Aligned := by
  cases hnext with
  | @mk tag slots c c' hlt htag hslots =>
    obtain ⟨hsize, hsucc⟩ := h.exact hcount hlt
    cases slots with
    | one x =>
      show clamp16 (s.entries.push x).size = (s.index + 1).toNat
      rw [hsucc, Array.size_push, hsize, clamp16]
      omega
    | two =>
      show clamp16 ((s.entries.push .other).push .unusable).size = (advance s.index .two).toNat
      rw [Array.size_push, Array.size_push, hsize, clamp16, advance]
      split
      · have hadd : (s.index + 2).toNat = s.index.toNat + 2 := by
          rw [UInt16.toNat_add]
          exact Nat.mod_eq_of_lt ‹_›
        rw [hadd]
        omega
      · -- the number stays at the greatest, and the loop is over
        show min (s.index.toNat + 1 + 1) 0xFFFF = 0xFFFF
        omega

/-- Along a run the number stays that of the entries. -/
theorem Reached.aligned (h : Reached count c s) (hcount : count < 0x10000) : s.Aligned := by
  induction h with
  | refl => exact aligned_start c
  | tail _ hnext ih => exact ih.next hcount hnext

/-- The rest of the reading gives the same from one turn to the next. -/
theorem readEntries_eq_of_next (h : s.Aligned) (hcount : count < 0x10000)
    (hnext : Next count s s') :
    readEntries count s.entries s.cursor = readEntries count s'.entries s'.cursor := by
  obtain ⟨hlt, htag, hslots⟩ := hnext
  have hsize := (h.exact hcount hlt).1
  rw [← hsize] at hlt hslots
  rw [readEntries, if_pos hlt, Read.bind_run_of_ok htag, Read.bind_run_of_ok hslots]

/-- Along a run the rest of the reading gives what the whole gives. -/
theorem Reached.readEntries_eq (h : Reached count c s) (hcount : count < 0x10000) :
    readEntries count #[.unusable] c = readEntries count s.entries s.cursor := by
  induction h with
  | refl => rfl
  | tail hrun hnext ih =>
    rw [ih, readEntries_eq_of_next (Reached.aligned hrun hcount) hcount hnext]

/-- Where a run ends: at the count, or where a tag or what stands behind it cannot be read. -/
inductive Ends (count : Nat) (s : Turn) : Except FormatError (ConstantPool × Cursor) → Prop where
  | full : ¬s.index.toNat < count → Ends count s (.ok (⟨s.entries⟩, s.cursor))
  | failed {e : FormatError} : s.index.toNat < count →
      (Read.u8 >>= readSlots s.index.toNat) s.cursor = .error e → Ends count s (.error e)

/-- From every turn a run comes to an end. -/
theorem Aligned.exists_ends (h : s.Aligned) (hcount : count < 0x10000) :
    ∃ t r, Relation.ReflTransGen (Next count) s t ∧ Ends count t r := by
  induction hn : count - s.entries.size using Nat.strongRecOn generalizing s with
  | ind n ih =>
    by_cases hlt : s.index.toNat < count
    · match hread : (Read.u8 >>= readSlots s.index.toNat) s.cursor with
      | .error e => exact ⟨s, .error e, .refl, .failed hlt hread⟩
      | .ok (slots, c') =>
        obtain ⟨tag, c, htag, hslots⟩ := Read.exists_of_bind_eq_ok hread
        have hnext : Next count s ⟨advance s.index slots, slots.addTo s.entries, c'⟩ :=
          .mk hlt htag hslots
        -- there are more entries, and so fewer numbers left
        have hfewer : count - (slots.addTo s.entries).size < n := by
          have := Slots.size_lt_addTo s.entries slots
          have := (h.exact hcount hlt).1
          omega
        obtain ⟨t, r, hrun, hends⟩ := ih _ hfewer (h.next hcount hnext) rfl
        exact ⟨t, r, .head hnext hrun, hends⟩
    · exact ⟨s, _, .refl, .full hlt⟩

/-- Where a run ends, the reading gives what it ends with. -/
theorem Ends.readEntries_eq {r : Except FormatError (ConstantPool × Cursor)} (h : Ends count s r)
    (hs : s.Aligned) (hcount : count < 0x10000) :
    (do return ConstantPool.mk (← readEntries count s.entries) : Read ConstantPool) s.cursor = r := by
  cases h with
  | full hfull =>
    have hsize : ¬s.entries.size < count := by
      rw [Aligned, clamp16] at hs
      omega
    rw [readEntries, if_neg hsize]
    rfl
  | @failed e hlt hread =>
    have hsize := (hs.exact hcount hlt).1
    rw [← hsize] at hlt hread
    have hfail : readEntries count s.entries s.cursor = .error e := by
      rw [readEntries, if_pos hlt, ← bind_assoc]
      exact Read.bind_run_of_error hread
    exact Read.bind_run_of_error hfail

end Turn

/-- A number that was read has 16 bits. -/
theorem Read.u16_lt {c c' : Cursor} {n : Nat} (h : Read.u16 c = .ok (n, c')) : n < 0x10000 := by
  rw [Read.u16] at h
  split at h
  · rename_i a b rest _
    cases h
    have := a.toNat_lt
    have := b.toNat_lt
    omega
  · cases h

/-- A pool is read by the loop with a number of its own. -/
theorem ConstantPool.read_eq_of_ends {count : Nat} {c c' : Cursor} {s : Turn}
    {r : Except FormatError (ConstantPool × Cursor)} (hcount : Read.u16 c = .ok (count, c'))
    (hrun : Turn.Reached count c' s) (hends : s.Ends count r) : ConstantPool.read c = r := by
  have hlt := Read.u16_lt hcount
  have hrest := hends.readEntries_eq (hrun.aligned hlt) hlt
  have hentries : readEntries count s.entries s.cursor = readEntries count #[.unusable] c' :=
    (hrun.readEntries_eq hlt).symm
  rw [ConstantPool.read, Read.bind_run_of_ok hcount]
  rw [← hrest]
  show (readEntries count #[.unusable] c').bind _ = (readEntries count s.entries s.cursor).bind _
  rw [hentries]

/-- Numbers and slots agree. Constants that need no more numbers than there are, stored behind
their count, are read and no more, and every lookup finds the constant that stands at its number,
or fails. For any bytes, the reader can be run with a number of 16 bits of its own: it reads the
same, and before each tag the number is that of the entries and has not overflowed, nor will it. -/
theorem ConstantPool.read_aligned :
    (∀ cs : List StoredConstant, StoredConstant.slotsOf cs ≤ 65534 → ∃ pool,
      Reads ConstantPool.read
        (bytesOf16 (StoredConstant.slotsOf cs + 1) ++ cs.flatMap StoredConstant.encode) pool ∧
      StoredConstant.Resolves cs pool) ∧
    (∀ text, Utf8.decode (Utf8.encode text) = text) ∧
    ∀ (c c' : Cursor) (count : Nat), Read.u16 c = .ok (count, c') →
      (∀ s, Turn.Reached count c' s → s.index.toNat < count →
        s.entries.size = s.index.toNat ∧ (s.index + 1).toNat = s.index.toNat + 1) ∧
      ∃ s, Turn.Reached count c' s ∧ s.Ends count (ConstantPool.read c) := by
  refine ⟨fun cs hcs => ?_, Utf8.decode_encode, fun c c' count hcount => ⟨?_, ?_⟩⟩
  · exact ⟨_, StoredConstant.reads_table hcs, StoredConstant.resolves_table cs⟩
  · intro s hrun hlt
    have hfits := Read.u16_lt hcount
    exact (hrun.aligned hfits).exact hfits hlt
  · obtain ⟨s, r, hrun, hends⟩ := (Turn.aligned_start c').exists_ends (Read.u16_lt hcount)
    rw [ConstantPool.read_eq_of_ends hcount hrun hends]
    exact ⟨s, hrun, hends⟩

/-- A double, and a method of a class with its name. -/
def doubleAndMethod : List StoredConstant :=
  [.wide .double (Vector.replicate 8 0), .text (Utf8.encode "A") (by decide +kernel), .classEntry 3,
    .member .method 4 0]

/-- A constant of two slots stands before a class and a method. -/
theorem ConstantPool.read_aligned_doubleAndMethod :
    StoredConstant.slotsOf doubleAndMethod ≤ 65534 ∧
      (∃ pool, Reads ConstantPool.read
          (bytesOf16 6 ++ doubleAndMethod.flatMap StoredConstant.encode) pool ∧
        pool.utf8 3 = .ok "A" ∧ pool.className 4 = .ok "A" ∧ pool.memberOwner 5 = .ok "A" ∧
        pool.utf8 2 = .error (.unexpectedConstant 2 .utf8) ∧
        pool.className 3 = .error (.unexpectedConstant 3 .classEntry) ∧
        pool.memberOwner 6 = .error (.badIndex 6)) ∧
      Read.u16 ⟨0, bytesOf16 6⟩ = .ok (6, ⟨2, []⟩) ∧
      (Turn.start ⟨2, []⟩).entries.size = (Turn.start ⟨2, []⟩).index.toNat := by
  have hfits : StoredConstant.slotsOf doubleAndMethod ≤ 65534 := by decide +kernel
  obtain ⟨hstored, htext, hloop⟩ := ConstantPool.read_aligned
  obtain ⟨pool, hread, hlookups⟩ := hstored doubleAndMethod hfits
  have hdouble : StoredConstant.StandsAt doubleAndMethod (.wide .double (Vector.replicate 8 0)) 1 :=
    ⟨[], _, rfl, rfl⟩
  have hname : StoredConstant.StandsAt doubleAndMethod
      (.text (Utf8.encode "A") (by decide +kernel)) 3 := ⟨doubleAndMethod.take 1, _, rfl, rfl⟩
  have hclass : StoredConstant.StandsAt doubleAndMethod (.classEntry 3) 4 :=
    ⟨doubleAndMethod.take 2, _, rfl, rfl⟩
  have hmethod : StoredConstant.StandsAt doubleAndMethod (.member .method 4 0) 5 :=
    ⟨doubleAndMethod.take 3, _, rfl, rfl⟩
  rw [← htext "A"]
  refine ⟨hfits, ⟨pool, hread, hlookups.text hname, hlookups.className hclass hname,
    hlookups.owner hmethod hclass hname, hlookups.upperHalf hdouble rfl .utf8, ?_, ?_⟩, rfl, ?_⟩
  · exact hlookups.otherKind .classEntry hname nofun
  · exact hlookups.pastEnd (by decide +kernel) .member
  · exact ((hloop ⟨0, bytesOf16 6⟩ ⟨2, []⟩ 6 rfl).1 _ .refl (by decide +kernel)).1

end CompileWatch
