import Mathlib.Data.Nat.Digits.Defs
import CompileWatch.ClassFile.Name
import CompileWatch.Proofs.Text.RoundTrip

/-!
# Sizes of names

How many bytes a text takes follows from its characters. The name of a unit takes as many as the
namespace and the name that it is made of, except that some characters of the name are spelled out.

- `sizeOfChars`: the bytes of characters in a row.
- `QualifiedName.unitSize`: how many bytes a name takes in a unit.
- `QualifiedName.unitSize_le`: that names of few characters take few bytes.
-/

namespace CompileWatch

/-- How many bytes characters in a row take. -/
def sizeOfChars : List Char → Nat
  | [] => 0
  | c :: rest => c.utf8Size + sizeOfChars rest

/-- The size of a text is that of its characters. -/
theorem utf8ByteSize_eq (s : String) : s.utf8ByteSize = sizeOfChars s.toList := by
  rw [← Utf8.length_encode, Utf8.encode_eq_flatMap]
  induction s.toList with
  | nil => rfl
  | cons c rest ih =>
    rw [List.flatMap_cons, List.length_append, ih, String.length_utf8EncodeChar, sizeOfChars]

theorem utf8ByteSize_ofList (l : List Char) : (String.ofList l).utf8ByteSize = sizeOfChars l := by
  rw [utf8ByteSize_eq, String.toList_ofList]

/-- Sizes add up. -/
theorem sizeOfChars_append (l l' : List Char) :
    sizeOfChars (l ++ l') = sizeOfChars l + sizeOfChars l' := by
  induction l with
  | nil => exact (Nat.zero_add _).symm
  | cons c rest ih => rw [List.cons_append, sizeOfChars, sizeOfChars, ih, Nat.add_assoc]

/-- Characters that each take so many bytes at most. -/
theorem sizeOfChars_le {l : List Char} {n : Nat} (h : ∀ c ∈ l, c.utf8Size ≤ n) :
    sizeOfChars l ≤ n * l.length := by
  induction l with
  | nil => exact Nat.zero_le _
  | cons c rest ih =>
    obtain ⟨hc, hrest⟩ := List.forall_mem_cons.mp h
    have hfew := ih hrest
    rw [sizeOfChars, List.length_cons, Nat.mul_succ]
    omega

/-- No character takes more than four bytes. -/
theorem utf8ByteSize_le (s : String) : s.utf8ByteSize ≤ 4 * s.length := by
  rw [utf8ByteSize_eq]
  exact sizeOfChars_le fun c _ => c.utf8Size_le_four

/-- A character in place of one of the same size. -/
theorem utf8ByteSize_replaceChar {a b : Char} (h : a.utf8Size = b.utf8Size) (s : String) :
    (replaceChar a b s).utf8ByteSize = s.utf8ByteSize := by
  rw [utf8ByteSize_eq, utf8ByteSize_eq, replaceChar, String.toList_map]
  induction s.toList with
  | nil => rfl
  | cons c rest ih =>
    have hc : (if c = a then b else c).utf8Size = c.utf8Size := by
      split
      next hca => rw [hca, h]
      · rfl
    rw [List.map_cons, sizeOfChars, sizeOfChars, ih, hc]

/-- A number is written with as many bytes as it has digits. -/
theorem utf8ByteSize_toString_le {n e : Nat} (he : 0 < e) (h : n < 10 ^ e) :
    (toString n).utf8ByteSize ≤ e := by
  have hdigits : ∀ c ∈ Nat.toDigits 10 n, c.utf8Size ≤ 1 := by
    intro c hc
    have hdigit := Nat.isDigit_of_mem_toDigits (by decide) (by decide) hc
    simp only [Char.isDigit, Bool.and_eq_true, decide_eq_true_eq] at hdigit
    rw [Char.utf8Size, if_pos (UInt32.le_trans hdigit.2 (by decide))]
  have hsize := sizeOfChars_le hdigits
  have hlength := Nat.toDigits_length 10 n e he h
  rw [show toString n = String.ofList (Nat.toDigits 10 n) from rfl, utf8ByteSize_ofList]
  omega

namespace QualifiedName

/-- A character of a name is spelled out with no less than its own bytes, and no more than seven. -/
theorem utf8Size_mungeChar (c : Char) :
    c.utf8Size ≤ sizeOfChars (mungeChar c) ∧ sizeOfChars (mungeChar c) ≤ 7 := by
  unfold mungeChar
  split
  case h_11 =>
    have hfour := c.utf8Size_le_four
    rw [sizeOfChars, sizeOfChars]
    omega
  all_goals decide

/-- A character of a name is spelled by one to seven bytes. -/
theorem utf8ByteSize_munge (name : String) :
    name.utf8ByteSize ≤ (munge name).utf8ByteSize ∧ (munge name).utf8ByteSize ≤ 7 * name.length := by
  rw [utf8ByteSize_eq, munge, utf8ByteSize_ofList, ← String.length_toList]
  induction name.toList with
  | nil => exact ⟨Nat.le_refl _, Nat.le_refl _⟩
  | cons c rest ih =>
    have hc := utf8Size_mungeChar c
    rw [List.flatMap_cons, sizeOfChars, sizeOfChars_append, List.length_cons]
    omega

variable (q : QualifiedName)

/-- How many bytes a name takes in the name of a unit, beside the dollar sign. -/
def unitSize : Nat := q.ns.utf8ByteSize + (munge q.name).utf8ByteSize

/-- A unit is named by its definition, with one character between. -/
theorem utf8ByteSize_unitName : q.unitName.utf8ByteSize = q.unitSize + 1 := by
  rw [unitName, String.utf8ByteSize_append, String.utf8ByteSize_append,
    utf8ByteSize_replaceChar (by decide), utf8ByteSize_replaceChar (by decide), unitSize]
  show q.ns.utf8ByteSize + 1 + _ = _
  omega

theorem utf8ByteSize_sourceFile_le : q.sourceFile.utf8ByteSize ≤ q.unitSize + 4 := by
  rw [sourceFile, String.utf8ByteSize_append, utf8ByteSize_replaceChar (by decide), unitSize]
  show q.ns.utf8ByteSize + 4 ≤ _
  omega

/-- Its parts take no more than the whole. -/
theorem utf8ByteSize_parts_le :
    q.ns.utf8ByteSize ≤ q.unitSize ∧ q.name.utf8ByteSize ≤ q.unitSize := by
  have hname := (utf8ByteSize_munge q.name).1
  unfold unitSize
  omega

/-- A name of few characters takes few bytes. -/
theorem unitSize_le : q.unitSize ≤ 4 * q.ns.length + 7 * q.name.length := by
  have hns := utf8ByteSize_le q.ns
  have hname := (utf8ByteSize_munge q.name).2
  unfold unitSize
  omega

end QualifiedName

end CompileWatch
