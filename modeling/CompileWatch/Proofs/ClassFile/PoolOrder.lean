import CompileWatch.ClassFile.PoolBuilder
import Mathlib.Data.List.Basic
import Mathlib.Data.List.Induction

/-!
# The order of stored constants

What a pool holds is determined by what was asked for: the distinct constants in the order
in which they were first needed, each after those that it refers to. The numbers follow
from that order alone, and never change.

- `PoolEntry.parts`: what is stored for a constant, the constant itself at the end.
- `PoolBuilder.after`: the constants that are there after some requests.
- `PoolBuilder.Ordered`: constants that stand after those that they refer to.
- `PoolBuilder.number`: the number of a constant among others.
- `PoolBuilder.Stores`: a pool holds exactly these constants.
- `PoolBuilder.interns_intern`: asking for a constant stores what is missing and gives its
  number.
-/

namespace CompileWatch

/-! ### What belongs to a constant -/

namespace PoolEntry

/-- The constants whose numbers a constant contains, in order. -/
def refs : PoolEntry → List PoolEntry
  | .utf8 _ | .integer _ | .long _ => []
  | .classEntry name => [.utf8 name]
  | .string text => [.utf8 text]
  | .nameAndType name descriptor => [.utf8 name, .utf8 descriptor]
  | .member _ owner name descriptor => [.classEntry owner, .nameAndType name descriptor]

/-- What is stored before a constant, in order. -/
def before : PoolEntry → List PoolEntry
  | .member _ owner name descriptor =>
    [.utf8 owner, .classEntry owner, .utf8 name, .utf8 descriptor, .nameAndType name descriptor]
  | e => e.refs

/-- What is stored for a constant, the constant itself at the end. -/
def parts (e : PoolEntry) : List PoolEntry := e.before ++ [e]

/-- The first byte of a constant. -/
def tag : PoolEntry → UInt8
  | .utf8 _ => 1
  | .integer _ => 3
  | .long _ => 5
  | .classEntry _ => 7
  | .string _ => 8
  | .member kind _ _ _ => kind.tag
  | .nameAndType _ _ => 12

/-- The bytes of a constant's own value. -/
def content : PoolEntry → Bytes
  | .utf8 text => bytesOf16 (clamp16 text.utf8ByteSize) ++ Utf8.encode text
  | .integer value => bytesOfInt32 value
  | .long value => bytesOfInt64 value
  | .classEntry _ | .string _ | .nameAndType _ _ | .member _ _ _ _ => []

/-- A constant is one of its own parts. -/
theorem mem_parts (e : PoolEntry) : e ∈ e.parts := by simp [parts]

/-- A constant is not one of those that come before it. -/
theorem not_mem_before (e : PoolEntry) : e ∉ e.before := by cases e <;> simp [before, refs]

/-- What a constant refers to comes before it. -/
theorem refs_subset_before {e x : PoolEntry} (h : x ∈ e.refs) : x ∈ e.before := by
  cases e with
  | member kind owner name descriptor =>
    simp only [refs, List.mem_cons, List.not_mem_nil, or_false] at h
    rcases h with rfl | rfl <;> simp [before]
  | _ => exact h

/-- Every constant takes a slot. -/
theorem one_le_slots (e : PoolEntry) : 1 ≤ e.slots := by cases e <;> simp [slots]

end PoolEntry

namespace PoolBuilder

variable {e x : PoolEntry} {es es' l : List PoolEntry} {p : PoolBuilder}

/-! ### Constants in order -/

/-- The constants `es`, and those of a list that are not among them yet. -/
def adding (es l : List PoolEntry) : List PoolEntry :=
  l.foldl (fun es e => if e ∈ es then es else es ++ [e]) es

/-- The constants after some requests, in the order of their numbers. -/
def after (es requests : List PoolEntry) : List PoolEntry :=
  adding es (requests.flatMap PoolEntry.parts)

theorem adding_append (es l l' : List PoolEntry) :
    adding es (l ++ l') = adding (adding es l) l' := List.foldl_append

/-- A constant that is not there yet is added behind the others. -/
theorem adding_singleton_of_not_mem (h : e ∉ es) : adding es [e] = es ++ [e] := by
  simp [adding, h]

/-- Nothing is ever taken away, and the order stays. -/
theorem prefix_adding (es l : List PoolEntry) : es <+: adding es l := by
  induction l generalizing es with
  | nil => exact List.prefix_refl es
  | cons e rest ih =>
    show es <+: adding (if e ∈ es then es else es ++ [e]) rest
    refine List.IsPrefix.trans ?_ (ih _)
    split
    · exact List.prefix_refl es
    · exact List.prefix_append es [e]

/-- Those that are there in the end were there before or are added. -/
theorem mem_adding : x ∈ adding es l ↔ x ∈ es ∨ x ∈ l := by
  induction l generalizing es with
  | nil => simp [adding]
  | cons e rest ih =>
    show x ∈ adding (if e ∈ es then es else es ++ [e]) rest ↔ _
    rw [ih]
    by_cases h : e ∈ es
    · rw [if_pos h, List.mem_cons]
      constructor
      · rintro (hx | hx)
        · exact .inl hx
        · exact .inr (.inr hx)
      · rintro (hx | rfl | hx)
        · exact .inl hx
        · exact .inl h
        · exact .inr hx
    · rw [if_neg h]
      simp [or_assoc]

/-- Adding what is there already adds nothing. -/
theorem adding_of_subset (h : ∀ x ∈ l, x ∈ es) : adding es l = es := by
  induction l with
  | nil => rfl
  | cons e rest ih =>
    show adding (if e ∈ es then es else es ++ [e]) rest = es
    rw [if_pos (h e List.mem_cons_self)]
    exact ih fun x hx => h x (List.mem_cons_of_mem e hx)

theorem after_nil (es : List PoolEntry) : after es [] = es := rfl

theorem after_singleton (es : List PoolEntry) (e : PoolEntry) : after es [e] = adding es e.parts := by
  rw [after, List.flatMap_singleton]

/-- Requests are met one after the other. -/
theorem after_append (es l l' : List PoolEntry) : after es (l ++ l') = after (after es l) l' := by
  rw [after, List.flatMap_append, adding_append]
  rfl

/-- What is stored already stays in front. -/
theorem prefix_after (es l : List PoolEntry) : es <+: after es l := prefix_adding es _

/-- Everything that belongs to a constant asked for is there. -/
theorem mem_after (he : e ∈ l) (hx : x ∈ e.parts) : x ∈ after es l :=
  mem_adding.mpr (.inr (List.mem_flatMap.mpr ⟨e, he, hx⟩))

/-- No constant is stored twice. -/
theorem nodup_adding (h : es.Nodup) (l : List PoolEntry) : (adding es l).Nodup := by
  induction l generalizing es with
  | nil => exact h
  | cons e rest ih =>
    refine ih ?_
    show (if e ∈ es then es else es ++ [e]).Nodup
    by_cases he : e ∈ es
    · rwa [if_pos he]
    · rw [if_neg he]
      exact List.nodup_append.mpr ⟨h, by simp, fun x hx y hy hxy =>
        he (List.mem_singleton.mp hy ▸ hxy ▸ hx)⟩

/-- Every constant stands after those that it refers to. -/
def Ordered (es : List PoolEntry) : Prop :=
  ∀ first e rest, es = first ++ e :: rest → ∀ x ∈ e.before, x ∈ first

/-- In an ordered table, whatever comes before a constant is there too. -/
theorem Ordered.mem (h : Ordered es) (he : e ∈ es) (hx : x ∈ e.before) : x ∈ es := by
  obtain ⟨first, rest, rfl⟩ := List.append_of_mem he
  exact List.mem_append_left _ (h first e rest rfl x hx)

theorem ordered_nil : Ordered [] := by
  intro first e rest h
  simp at h

/-- A constant may be added once everything before it is there. -/
theorem Ordered.snoc (h : Ordered es) (he : ∀ x ∈ e.before, x ∈ es) : Ordered (es ++ [e]) := by
  intro first e' rest hsplit x hx
  rcases List.eq_nil_or_concat rest with rfl | ⟨others, last, rfl⟩
  · obtain ⟨rfl, hlast⟩ := List.append_inj' hsplit rfl
    obtain rfl := List.singleton_inj.mp hlast
    exact he x hx
  · rw [List.concat_eq_append, ← List.cons_append, ← List.append_assoc] at hsplit
    exact h first e' others (List.append_inj' hsplit rfl).1 x hx

/-- A text refers to nothing. -/
theorem Ordered.text (h : Ordered es) (text : String) : Ordered (es ++ [.utf8 text]) :=
  h.snoc fun _ hx => (List.not_mem_nil hx).elim

/-- What belongs to a constant is listed in such an order. -/
theorem ordered_parts (e : PoolEntry) : Ordered e.parts := by
  cases e with
  | utf8 text => exact ordered_nil.text text
  | integer value => exact ordered_nil.snoc fun x hx => (List.not_mem_nil hx).elim
  | long value => exact ordered_nil.snoc fun x hx => (List.not_mem_nil hx).elim
  | classEntry name => exact (ordered_nil.text name).snoc fun x hx => hx
  | string text => exact (ordered_nil.text text).snoc fun x hx => hx
  | nameAndType name descriptor =>
    exact ((ordered_nil.text name).text descriptor).snoc fun x hx => hx
  | member kind owner name descriptor =>
    have howner : Ordered [.utf8 owner, .classEntry owner] :=
      (ordered_nil.text owner).snoc fun x hx => hx
    have hnames := (howner.text name).text descriptor
    have htype : Ordered (PoolEntry.member kind owner name descriptor).before :=
      hnames.snoc (e := .nameAndType name descriptor) fun x hx => by
        rw [List.append_assoc]
        exact List.mem_append_right _ hx
    exact htype.snoc fun x hx => hx

/-- Adding what is missing of constants in order keeps the order. -/
theorem Ordered.adding (h : Ordered es) (hl : Ordered l) : Ordered (adding es l) := by
  induction l using List.reverseRecOn with
  | nil => exact h
  | append_singleton l e ih =>
    have hkept : Ordered (PoolBuilder.adding es l) := ih fun first e' rest hsplit =>
      hl first e' (rest ++ [e]) (by rw [hsplit, List.append_assoc]; rfl)
    rw [adding_append]
    by_cases he : e ∈ PoolBuilder.adding es l
    · rw [adding_of_subset fun x hx => List.mem_singleton.mp hx ▸ he]
      exact hkept
    · rw [adding_singleton_of_not_mem he]
      exact hkept.snoc fun x hx => mem_adding.mpr (.inr (hl l e [] rfl x hx))

/-- The table is in order after any requests. -/
theorem ordered_after (requests : List PoolEntry) : Ordered (after [] requests) := by
  induction requests using List.reverseRecOn with
  | nil => exact ordered_nil
  | append_singleton requests e ih =>
    rw [after_append, after_singleton]
    exact ih.adding (ordered_parts e)

/-- A constant is followed by another that refers to it. -/
theorem exists_following {requests : List PoolEntry} (he : e ∈ after [] requests) (hx : x ∈ e.before) :
    ∃ first next rest, after [] requests = first ++ x :: next :: rest ∧ x ∉ first := by
  obtain ⟨others, rest, hsplit⟩ := List.append_of_mem he
  obtain ⟨first, between, rfl, hnew⟩ :=
    List.eq_append_cons_of_mem (ordered_after requests others e rest hsplit x hx)
  cases between with
  | nil => exact ⟨first, e, rest, by rw [hsplit, List.append_assoc]; rfl, hnew⟩
  | cons next between =>
    exact ⟨first, next, between ++ e :: rest, by rw [hsplit, List.append_assoc]; rfl, hnew⟩

/-! ### Numbers -/

/-- How many numbers some constants take. -/
def slotsOf : List PoolEntry → Nat
  | [] => 0
  | e :: rest => e.slots + slotsOf rest

/-- The first number that a constant takes among others: the numbers start at one. -/
def place (es : List PoolEntry) (e : PoolEntry) : Nat := 1 + slotsOf (es.takeWhile (· ≠ e))

/-- The number of a constant, which ends at the greatest of 16 bits. -/
def number (es : List PoolEntry) (e : PoolEntry) : Nat := clamp16 (place es e)

theorem slotsOf_append (es es' : List PoolEntry) :
    slotsOf (es ++ es') = slotsOf es + slotsOf es' := by
  induction es with
  | nil => exact (Nat.zero_add _).symm
  | cons e rest ih => rw [List.cons_append, slotsOf, slotsOf, ih, Nat.add_assoc]

/-- A constant stands after others, and its number counts theirs. -/
theorem exists_place_eq (h : e ∈ es) :
    ∃ first rest, es = first ++ e :: rest ∧ place es e = 1 + slotsOf first := by
  obtain ⟨first, rest, rfl, hn⟩ := List.eq_append_cons_of_mem h
  refine ⟨first, rest, rfl, ?_⟩
  have ht : (first ++ e :: rest).takeWhile (· ≠ e) = first := by
    rw [List.takeWhile_append_of_pos]
    · simp
    · intro x hx
      exact decide_eq_true fun he => hn (he ▸ hx)
  rw [place, ht]

/-- Constants that come later change no number. -/
theorem place_append (h : e ∈ es) (es' : List PoolEntry) : place (es ++ es') e = place es e := by
  obtain ⟨first, rest, rfl, -⟩ := List.eq_append_cons_of_mem h
  rw [place, place, List.append_assoc]
  congr 2
  induction first with
  | nil => simp
  | cons x first ih =>
    by_cases hx : x = e
    · simp [hx]
    · have := ih (by simp)
      simp_all

/-- A number does not change when the table grows. -/
theorem number_extend (h : es <+: es') (he : e ∈ es) : number es' e = number es e := by
  obtain ⟨rest, rfl⟩ := h
  rw [number, number, place_append he]

/-- A new constant is placed behind the slots of all others. -/
theorem place_append_self (h : e ∉ es) : place (es ++ [e]) e = 1 + slotsOf es := by
  have ht : (es ++ [e]).takeWhile (· ≠ e) = es := by
    rw [List.takeWhile_append_of_pos]
    · simp
    · intro x hx
      exact decide_eq_true fun he => h (he ▸ hx)
  rw [place, ht]

/-! ### What a pool holds -/

/-- The bytes of a constant among others. -/
def encoded (es : List PoolEntry) (e : PoolEntry) : Bytes :=
  e.tag :: (e.content ++ e.refs.flatMap fun r => bytesOf16 (number es r))

/-- A pool holds exactly these constants, in this order. -/
structure Stores (p : PoolBuilder) (es : List PoolEntry) : Prop where
  closed : ∀ e ∈ es, ∀ x ∈ e.before, x ∈ es
  chunks : p.chunks.toList = es.map (encoded es)
  next : p.nextIndex = clamp16 (1 + slotsOf es)
  interned : ∀ e, p.interned[e]? = if e ∈ es then some (number es e) else none

/-- A new builder stores nothing. -/
theorem stores_empty : Stores {} [] :=
  ⟨by simp, rfl, rfl, by simp⟩

/-- Later constants do not change the bytes of a constant whose references are there. -/
theorem encoded_append (h : ∀ x ∈ e.before, x ∈ es) (es' : List PoolEntry) :
    encoded (es ++ es') e = encoded es e := by
  have hr : ∀ r ∈ e.refs, bytesOf16 (number (es ++ es') r) = bytesOf16 (number es r) := by
    intro r hr
    rw [number_extend (List.prefix_append es es') (h r (PoolEntry.refs_subset_before hr))]
  rw [encoded, encoded, List.flatMap_congr hr]

/-- One more constant, all of its references being there. -/
theorem stores_store (h : Stores p es) (he : e ∉ es) (hb : ∀ x ∈ e.before, x ∈ es) :
    Stores (p.store e (encoded es e)).2 (es ++ [e]) where
  closed y hy x hx := by
    rcases List.mem_append.mp hy with hy | hy
    · exact List.mem_append_left [e] (h.closed y hy x hx)
    · obtain rfl := List.mem_singleton.mp hy
      exact List.mem_append_left _ (hb x hx)
  chunks := by
    -- the bytes that are there name constants that are there, whose numbers stay
    have hs : ∀ y ∈ es, encoded (es ++ [e]) y = encoded es y :=
      fun y hy => encoded_append (h.closed y hy) [e]
    show (p.chunks.push (encoded es e)).toList = _
    rw [Array.toList_push, h.chunks, List.map_append, List.map_congr_left hs]
    simp [encoded_append hb]
  next := by
    show clamp16 (p.nextIndex + e.slots) = _
    rw [h.next, slotsOf_append]
    simp only [clamp16, slotsOf]
    omega
  interned y := by
    show (p.interned.insert e p.nextIndex)[y]? = _
    rw [Std.HashMap.getElem?_insert, h.interned, h.next]
    by_cases hy : e = y
    · subst hy
      rw [if_pos (by simp), if_pos (by simp), number, place_append_self he]
    · rw [if_neg (by simpa using hy)]
      by_cases hm : y ∈ es
      · rw [if_pos hm, if_pos (List.mem_append_left [e] hm),
          number_extend (List.prefix_append es [e]) hm]
      · rw [if_neg hm, if_neg (by simpa [hm] using Ne.symm hy)]

/-! ### Asking for constants -/

/-- A computation stores what is missing of a constant and gives its number. -/
def Interns (m : StateM PoolBuilder Nat) (e : PoolEntry) : Prop :=
  ∀ p es, Stores p es → (m p).1 = number (after es [e]) e ∧ Stores (m p).2 (after es [e])

/-- A constant that is there is found with its number. One that is not comes after those
that it refers to. -/
theorem interns_internWith {encode : StateM PoolBuilder Bytes}
    (h : ∀ p es, Stores p es → (encode p).1 = encoded (adding es e.before) e ∧
      Stores (encode p).2 (adding es e.before)) : Interns (internWith e encode) e := by
  intro p es hp
  rw [after_singleton]
  by_cases he : e ∈ es
  · -- a pool is closed, so what the constant refers to is there too
    have hs : adding es e.parts = es := by
      refine adding_of_subset fun x hx => ?_
      rcases List.mem_append.mp hx with hx | hx
      · exact hp.closed e he x hx
      · exact List.mem_singleton.mp hx ▸ he
    have hi : internWith e encode p = (number es e, p) := by
      unfold internWith
      rw [hp.interned, if_pos he]
    rw [hs, hi]
    exact ⟨rfl, hp⟩
  · -- storing what the constant refers to first does not store the constant itself
    obtain ⟨hb, hs⟩ := h p es hp
    have hn : e ∉ adding es e.before := by
      rw [mem_adding]
      rintro (hm | hm)
      · exact he hm
      · exact e.not_mem_before hm
    have hi : internWith e encode p = (encode p).2.store e (encoded (adding es e.before) e) := by
      unfold internWith
      rw [hp.interned, if_neg he, ← hb]
      rfl
    have ha : adding es e.parts = adding es e.before ++ [e] := by
      rw [PoolEntry.parts, adding_append, adding_singleton_of_not_mem hn]
    rw [ha, hi]
    constructor
    · show (encode p).2.nextIndex = _
      rw [hs.next, number, place_append_self hn]
    · exact stores_store hs hn fun x hx => mem_adding.mpr (.inr hx)

-- from here on it is known by `interns_internWith` alone
attribute [local irreducible] internWith

/-- A text is interned as itself. -/
theorem interns_utf8 (text : String) : Interns (utf8 text) (.utf8 text) := by
  refine interns_internWith fun p es hp => ⟨?_, hp⟩
  show 1 :: bytesOf16 (clamp16 text.utf8ByteSize) ++ Utf8.encode text = _
  simp [encoded, PoolEntry.tag, PoolEntry.content, PoolEntry.refs]

theorem interns_integer (value : Int) : Interns (integer value) (.integer value) := by
  refine interns_internWith fun p es hp => ⟨?_, hp⟩
  show 3 :: bytesOfInt32 value = _
  simp [encoded, PoolEntry.tag, PoolEntry.content, PoolEntry.refs]

theorem interns_long (value : Int) : Interns (long value) (.long value) := by
  refine interns_internWith fun p es hp => ⟨?_, hp⟩
  show 5 :: bytesOfInt64 value = _
  simp [encoded, PoolEntry.tag, PoolEntry.content, PoolEntry.refs]

/-- A class is interned after its name. -/
theorem interns_classEntry (name : String) : Interns (classEntry name) (.classEntry name) := by
  refine interns_internWith fun p es hp => ?_
  obtain ⟨hn, hs⟩ := interns_utf8 name p es hp
  rw [after_singleton] at hn hs
  refine ⟨?_, hs⟩
  show 7 :: bytesOf16 (utf8 name p).1 = _
  rw [hn]
  simp [encoded, PoolEntry.tag, PoolEntry.content, PoolEntry.refs, PoolEntry.parts,
    PoolEntry.before]

theorem interns_string (text : String) : Interns (string text) (.string text) := by
  refine interns_internWith fun p es hp => ?_
  obtain ⟨hn, hs⟩ := interns_utf8 text p es hp
  rw [after_singleton] at hn hs
  refine ⟨?_, hs⟩
  show 8 :: bytesOf16 (utf8 text p).1 = _
  rw [hn]
  simp [encoded, PoolEntry.tag, PoolEntry.content, PoolEntry.refs, PoolEntry.parts,
    PoolEntry.before]

/-- Two constants in a row, for a third that refers to both: the number of the first stays
what it is when the second is stored. -/
theorem interns_pair {m m' : StateM PoolBuilder Nat} {a b : PoolEntry} (ha : Interns m a)
    (hb : Interns m' b) (hp : Stores p es) :
    (m p).1 = number (after es [a, b]) a ∧ (m' (m p).2).1 = number (after es [a, b]) b ∧
      Stores (m' (m p).2).2 (after es [a, b]) := by
  obtain ⟨hn, hs⟩ := ha p es hp
  obtain ⟨hn', hs'⟩ := hb _ _ hs
  have hm : a ∈ after es [a] := mem_after List.mem_cons_self a.mem_parts
  rw [show [a, b] = [a] ++ [b] from rfl, after_append]
  refine ⟨?_, hn', hs'⟩
  rw [hn, number_extend (prefix_after _ [b]) hm]

/-- A name and a type are interned after the texts of both. -/
theorem interns_nameAndType (name descriptor : String) :
    Interns (nameAndType name descriptor) (.nameAndType name descriptor) := by
  refine interns_internWith fun p es hp => ?_
  obtain ⟨hn, hd, hs⟩ := interns_pair (interns_utf8 name) (interns_utf8 descriptor) hp
  refine ⟨?_, hs⟩
  show 12 :: bytesOf16 (utf8 name p).1 ++ bytesOf16 (utf8 descriptor (utf8 name p).2).1 = _
  rw [hn, hd]
  simp [encoded, PoolEntry.tag, PoolEntry.content, PoolEntry.refs, PoolEntry.parts,
    PoolEntry.before, after]

/-- A member is interned after its owner, its name and its type. -/
theorem interns_member (kind : MemberKind) (owner name descriptor : String) :
    Interns (member kind owner name descriptor) (.member kind owner name descriptor) := by
  refine interns_internWith fun p es hp => ?_
  obtain ⟨ho, hn, hs⟩ :=
    interns_pair (interns_classEntry owner) (interns_nameAndType name descriptor) hp
  refine ⟨?_, hs⟩
  show kind.tag :: bytesOf16 (classEntry owner p).1 ++
    bytesOf16 (nameAndType name descriptor (classEntry owner p).2).1 = _
  rw [ho, hn]
  simp [encoded, PoolEntry.tag, PoolEntry.content, PoolEntry.refs, PoolEntry.parts,
    PoolEntry.before, after]

/-- Whatever constant is asked for. -/
theorem interns_intern (e : PoolEntry) : Interns (intern e) e := by
  cases e with
  | utf8 text => exact interns_utf8 text
  | classEntry name => exact interns_classEntry name
  | string text => exact interns_string text
  | integer value => exact interns_integer value
  | long value => exact interns_long value
  | nameAndType name descriptor => exact interns_nameAndType name descriptor
  | member kind owner name descriptor => exact interns_member kind owner name descriptor

end PoolBuilder

end CompileWatch
