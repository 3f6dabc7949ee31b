import CompileWatch.Proofs.ClassFile.PoolSlots

/-!
# What numbers mean

What a number means is written in the bytes of a pool: by the constant that stands there, and by
what the numbers in that constant mean. Constants refer backwards, so that it depends on nothing
that is stored later.

- `StoredConstant.Means`: what a number means among stored constants.
- `StoredConstant.Means.unique`: it means one thing.
- `StoredConstant.means_append_iff`: it means the same, whatever is stored later.
- `StoredConstant.Resolves.lookup_eq`: a lookup finds what its number means.
-/

namespace CompileWatch

open ConstantPool

/-! ### Constants that are asked for -/

/-- A value that fits the bytes which it is stored in. -/
def PoolEntry.Representable : PoolEntry → Prop
  | .integer value => -0x80000000 ≤ value ∧ value < 0x80000000
  | .long value => -0x8000000000000000 ≤ value ∧ value < 0x8000000000000000
  | _ => True

/-- What a lookup gives at the number of a constant. -/
def PoolEntry.found (e : PoolEntry) (index : Nat) (kind : ConstantKind) :
    Except FormatError String :=
  match e, kind with
  | .utf8 text, .utf8 => .ok text
  | .classEntry name, .classEntry => .ok name
  | .member _ owner _ _, .member => .ok owner
  | _, kind => .error (.unexpectedConstant index kind)

/-! ### What stands at a number -/

/-- Where two splits of a row have as much in front, the same stands next. -/
theorem eq_of_split_eq {α : Type} {size : List α → Nat}
    (happend : ∀ l l', size (l ++ l') = size l + size l') (hpos : ∀ a l, 0 < size (a :: l))
    {first first' rest rest' : List α} {a b : α} (h : first ++ a :: rest = first' ++ b :: rest')
    (hsize : size first = size first') : a = b := by
  -- one front begins the other, and there is no room for anything between them
  rcases List.append_eq_append_iff.mp h with ⟨between, rfl, hrest⟩ | ⟨between, rfl, hrest⟩
  · cases between with
    | nil => exact (List.cons.inj hrest).1
    | cons x between =>
      have := hpos x between
      rw [happend] at hsize
      omega
  · cases between with
    | nil => exact (List.cons.inj hrest).1.symm
    | cons x between =>
      have := hpos x between
      rw [happend] at hsize
      omega

namespace StoredConstant

variable {c c' : StoredConstant} {cs : List StoredConstant} {pool : ConstantPool} {index : Nat}
  {e e' : PoolEntry}

theorem slots_pos (c : StoredConstant) : 0 < c.slots := by
  cases c <;> exact Nat.succ_pos _

theorem slotsOf_append (cs cs' : List StoredConstant) :
    slotsOf (cs ++ cs') = slotsOf cs + slotsOf cs' := by
  induction cs with
  | nil => exact (Nat.zero_add _).symm
  | cons c rest ih => rw [List.cons_append, slotsOf, slotsOf, ih, Nat.add_assoc]

/-- A table with a constant has a slot. -/
theorem slotsOf_cons_pos (c : StoredConstant) (cs : List StoredConstant) :
    0 < slotsOf (c :: cs) := Nat.add_pos_left c.slots_pos _

/-- A constant stands within the slots. -/
theorem StandsAt.le (h : StandsAt cs c index) : index ≤ slotsOf cs := by
  obtain ⟨first, rest, rfl, rfl⟩ := h
  have := slotsOf_cons_pos c rest
  rw [slotsOf_append]
  omega

/-- One constant stands at one number. -/
theorem StandsAt.unique (h : StandsAt cs c index) (h' : StandsAt cs c' index) : c = c' := by
  obtain ⟨first, rest, rfl, rfl⟩ := h
  obtain ⟨first', rest', hsplit, hindex⟩ := h'
  exact eq_of_split_eq slotsOf_append slotsOf_cons_pos hsplit (Nat.add_left_cancel hindex)

/-- A constant stands where it stood when others follow. -/
theorem StandsAt.append (h : StandsAt cs c index) (later : List StoredConstant) :
    StandsAt (cs ++ later) c index := by
  obtain ⟨first, rest, rfl, rfl⟩ := h
  exact ⟨first, rest ++ later, by rw [List.append_assoc]; rfl, rfl⟩

/-- Up to the last number of some constants nothing else stands there. -/
theorem StandsAt.of_append {later : List StoredConstant} (h : StandsAt (cs ++ later) c index)
    (hindex : index ≤ slotsOf cs) : StandsAt cs c index := by
  obtain ⟨first, rest, hsplit, rfl⟩ := h
  rcases List.append_eq_append_iff.mp hsplit with ⟨between, rfl, -⟩ | ⟨between, rfl, hrest⟩
  · rw [slotsOf_append] at hindex
    omega
  · cases between with
    | nil =>
      rw [List.append_nil] at hindex
      omega
    | cons x between =>
      obtain ⟨rfl, -⟩ := List.cons.inj hrest
      exact ⟨first, between, rfl, rfl⟩

/-! ### What a number means -/

/-- What a number means among stored constants. The numbers in a constant are below its own. -/
inductive Means (cs : List StoredConstant) : Nat → PoolEntry → Prop
  | utf8 {text : String} {short} {index : Nat} :
      StandsAt cs (.text (Utf8.encode text) short) index → Means cs index (.utf8 text)
  | classEntry {name : String} {nameIndex : UInt16} {index : Nat} :
      StandsAt cs (.classEntry nameIndex) index → nameIndex.toNat < index →
      Means cs nameIndex.toNat (.utf8 name) → Means cs index (.classEntry name)
  | string {text : String} {body} {textIndex : UInt16} {index : Nat} :
      StandsAt cs (.passed .string body) index → body.toList = bytesOf16 textIndex.toNat →
      textIndex.toNat < index → Means cs textIndex.toNat (.utf8 text) →
      Means cs index (.string text)
  | integer {value : Int} {body} {index : Nat} :
      StandsAt cs (.passed .integer body) index → body.toList = bytesOfInt32 value →
      Means cs index (.integer value)
  | long {value : Int} {body} {index : Nat} :
      StandsAt cs (.wide .long body) index → body.toList = bytesOfInt64 value →
      Means cs index (.long value)
  | nameAndType {name descriptor : String} {body} {nameIndex descriptorIndex : UInt16}
      {index : Nat} :
      StandsAt cs (.passed .nameAndType body) index →
      body.toList = bytesOf16 nameIndex.toNat ++ bytesOf16 descriptorIndex.toNat →
      nameIndex.toNat < index → Means cs nameIndex.toNat (.utf8 name) →
      descriptorIndex.toNat < index → Means cs descriptorIndex.toNat (.utf8 descriptor) →
      Means cs index (.nameAndType name descriptor)
  | member {kind : MemberKind} {owner name descriptor : String}
      {classIndex nameAndTypeIndex : UInt16} {index : Nat} :
      StandsAt cs (.member kind classIndex nameAndTypeIndex) index →
      classIndex.toNat < index → Means cs classIndex.toNat (.classEntry owner) →
      nameAndTypeIndex.toNat < index →
      Means cs nameAndTypeIndex.toNat (.nameAndType name descriptor) →
      Means cs index (.member kind owner name descriptor)

/-- What has a meaning is within the slots. -/
theorem Means.le (h : Means cs index e) : index ≤ slotsOf cs := by
  cases h with
  | utf8 hat | classEntry hat | string hat | integer hat | long hat | nameAndType hat
  | member hat => exact hat.le

/-- A number means one thing only. -/
theorem Means.unique (h : Means cs index e) (h' : Means cs index e') (he : e.Representable)
    (he' : e'.Representable) : e = e' := by
  induction h generalizing e' with
  | @utf8 text short index hat =>
    cases h' with
    | utf8 hat' =>
      have hbytes := StoredConstant.text.inj (hat.unique hat')
      rw [← Utf8.decode_encode text, hbytes, Utf8.decode_encode]
    | _ => cases hat.unique ‹_›
  | classEntry hat _ _ ih =>
    cases h' with
    | classEntry hat' _ hname =>
      cases hat.unique hat'
      cases ih hname trivial trivial
      rfl
    | _ => cases hat.unique ‹_›
  | string hat hbody _ _ ih =>
    cases h' with
    | string hat' hbody' _ htext =>
      cases hat.unique hat'
      have hindex := bytesOf16_inj (UInt16.toNat_lt _) (UInt16.toNat_lt _) (hbody.symm.trans hbody')
      obtain rfl := UInt16.toNat_inj.mp hindex
      cases ih htext trivial trivial
      rfl
    | _ => cases hat.unique ‹_›
  | integer hat hbody =>
    cases h' with
    | integer hat' hbody' =>
      cases hat.unique hat'
      rw [bytesOfInt32_inj he he' (hbody.symm.trans hbody')]
    | _ => cases hat.unique ‹_›
  | long hat hbody =>
    cases h' with
    | long hat' hbody' =>
      cases hat.unique hat'
      rw [bytesOfInt64_inj he he' (hbody.symm.trans hbody')]
    | _ => cases hat.unique ‹_›
  | nameAndType hat hbody _ _ _ _ ihname ihdescriptor =>
    cases h' with
    | nameAndType hat' hbody' _ hname _ hdescriptor =>
      cases hat.unique hat'
      obtain ⟨hn, hd⟩ := List.append_inj (hbody.symm.trans hbody') rfl
      obtain rfl := UInt16.toNat_inj.mp (bytesOf16_inj (UInt16.toNat_lt _) (UInt16.toNat_lt _) hn)
      obtain rfl := UInt16.toNat_inj.mp (bytesOf16_inj (UInt16.toNat_lt _) (UInt16.toNat_lt _) hd)
      cases ihname hname trivial trivial
      cases ihdescriptor hdescriptor trivial trivial
      rfl
    | _ => cases hat.unique ‹_›
  | member hat _ _ _ _ ihclass ihtype =>
    cases h' with
    | member hat' _ hclass _ htype =>
      cases hat.unique hat'
      cases ihclass hclass trivial trivial
      cases ihtype htype trivial trivial
      rfl
    | _ => cases hat.unique ‹_›

/-- What a number means depends on what stands at the numbers up to it. -/
theorem Means.of_standsAt {cs' : List StoredConstant} (h : Means cs index e)
    (hat : ∀ c n, n ≤ index → StandsAt cs c n → StandsAt cs' c n) : Means cs' index e := by
  -- the numbers in a constant are below its own
  induction h with
  | utf8 h => exact .utf8 (hat _ _ (Nat.le_refl _) h)
  | classEntry h hlt _ ih =>
    exact .classEntry (hat _ _ (Nat.le_refl _) h) hlt (ih fun c n hn => hat c n (by omega))
  | string h hbody hlt _ ih =>
    exact .string (hat _ _ (Nat.le_refl _) h) hbody hlt (ih fun c n hn => hat c n (by omega))
  | integer h hbody => exact .integer (hat _ _ (Nat.le_refl _) h) hbody
  | long h hbody => exact .long (hat _ _ (Nat.le_refl _) h) hbody
  | nameAndType h hbody hn _ hd _ ihname ihdescriptor =>
    have hname := ihname fun c n hle => hat c n (by omega)
    have hdescriptor := ihdescriptor fun c n hle => hat c n (by omega)
    exact .nameAndType (hat _ _ (Nat.le_refl _) h) hbody hn hname hd hdescriptor
  | member h hc _ ht _ ihclass ihtype =>
    have hclass := ihclass fun c n hle => hat c n (by omega)
    have htype := ihtype fun c n hle => hat c n (by omega)
    exact .member (hat _ _ (Nat.le_refl _) h) hc hclass ht htype

/-- What is stored later does not change what a number means. -/
theorem means_append_iff (later : List StoredConstant) (hindex : index ≤ slotsOf cs) :
    Means (cs ++ later) index e ↔ Means cs index e := by
  constructor
  · intro h
    exact h.of_standsAt fun c n hn hat => hat.of_append (Nat.le_trans hn hindex)
  · intro h
    exact h.of_standsAt fun c n _ hat => hat.append later

/-- A lookup finds what its number means. -/
theorem Resolves.lookup_eq (h : Resolves cs pool) (hmeans : Means cs index e)
    (kind : ConstantKind) : pool.lookup kind index = e.found index kind := by
  cases hmeans with
  | utf8 hat =>
    cases kind with
    | utf8 =>
      rw [lookup, h.text hat, Utf8.decode_encode]
      rfl
    | classEntry => exact h.otherKind .classEntry hat (by simp [kind?])
    | member => exact h.otherKind .member hat (by simp [kind?])
  | classEntry hat _ hname =>
    cases kind with
    | classEntry =>
      cases hname with
      | utf8 hname =>
        rw [lookup, h.className hat hname, Utf8.decode_encode]
        rfl
    | utf8 => exact h.otherKind .utf8 hat (by simp [kind?])
    | member => exact h.otherKind .member hat (by simp [kind?])
  | member hat _ hclass =>
    cases kind with
    | member =>
      cases hclass with
      | classEntry hclass _ hname =>
        cases hname with
        | utf8 hname =>
          rw [lookup, h.owner hat hclass hname, Utf8.decode_encode]
          rfl
    | utf8 => exact h.otherKind .utf8 hat (by simp [kind?])
    | classEntry => exact h.otherKind .classEntry hat (by simp [kind?])
  | string hat => exact h.otherKind kind hat (Option.some_ne_none kind).symm
  | integer hat => exact h.otherKind kind hat (Option.some_ne_none kind).symm
  | long hat => exact h.otherKind kind hat (Option.some_ne_none kind).symm
  | nameAndType hat => exact h.otherKind kind hat (Option.some_ne_none kind).symm

end StoredConstant

end CompileWatch
