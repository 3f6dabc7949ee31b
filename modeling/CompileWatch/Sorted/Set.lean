import CompileWatch.Sorted.Map

/-!
# Finite sets in order

A set is a sorted map to nothing: its members are the keys.

- `SortedSet.has_add`, `SortedSet.has_remove`: adding and removing show at the one member and
  nowhere else.
- `SortedSet.ext_has`: two sets with the same members are equal.
-/

namespace CompileWatch

/-- A finite set as its members in strictly increasing order. -/
abbrev SortedSet (α : Type) [Ord α] := SortedMap α PUnit

namespace SortedSet

variable {α : Type} [Ord α]

/-- The members in order. -/
def members (s : SortedSet α) : List α := SortedMap.keys s

/-- Whether `a` is a member. -/
def has (s : SortedSet α) (a : α) : Bool := SortedMap.contains s a

/-- The members that satisfy `p`. -/
def keep [Std.TransOrd α] [Std.LawfulEqOrd α] (s : SortedSet α) (p : α → Bool) : SortedSet α :=
  SortedMap.filter s fun a _ => p a

variable [Std.TransOrd α] [Std.LawfulEqOrd α]

/-- The set with `a` as a member. -/
def add (s : SortedSet α) (a : α) : SortedSet α := SortedMap.insert s a ⟨⟩

/-- The set without `a`. -/
def remove (s : SortedSet α) (a : α) : SortedSet α := keep s fun b => compare a b != .eq

/-- The set with every element of a list as a member. -/
def addAll (s : SortedSet α) (l : List α) : SortedSet α := l.foldl add s

/-- The set of the elements of a list. -/
def ofMembers (l : List α) : SortedSet α := addAll SortedMap.empty l

/-- A set has what was added, and what it had. -/
theorem has_add (s : SortedSet α) (a b : α) :
    has (add s a) b = (compare b a == .eq || has s b) :=
  SortedMap.contains_alter s a b _

/-- A set has everything that was added, and what it had. -/
theorem has_addAll (s : SortedSet α) (l : List α) (b : α) :
    has (addAll s l) b ↔ b ∈ l ∨ has s b := by
  induction l generalizing s with
  | nil => simp [addAll]
  | cons a rest ih =>
    show has (addAll (add s a) rest) b ↔ _
    rw [ih, has_add, List.mem_cons, Bool.or_eq_true, beq_iff_eq, Std.LawfulEqCmp.compare_eq_iff_eq]
    rw [or_left_comm, or_assoc]

/-- What is kept was there and passes the test. -/
theorem has_keep (s : SortedSet α) (p : α → Bool) (b : α) : has (keep s p) b ↔ has s b ∧ p b := by
  have hmembers : members (keep s p) = (members s).filter p := List.filter_map.symm
  unfold has
  rw [← SortedMap.mem_keys, ← SortedMap.mem_keys]
  show b ∈ members (keep s p) ↔ b ∈ members s ∧ _
  rw [hmembers, List.mem_filter]

/-- What is removed is not there any more. -/
theorem has_remove (s : SortedSet α) (a b : α) : has (remove s a) b ↔ has s b ∧ b ≠ a := by
  unfold remove
  rw [has_keep, bne_iff_ne, ne_eq, ne_eq, Std.LawfulEqCmp.compare_eq_iff_eq, eq_comm (a := a)]

omit [Std.TransOrd α] in
/-- The members of a set are what it has. -/
theorem mem_members {s : SortedSet α} {a : α} : a ∈ s.members ↔ has s a := SortedMap.mem_keys

/-- Two sets with the same members are equal. -/
theorem ext_has {s t : SortedSet α} (h : ∀ a, has s a ↔ has t a) : s = t := by
  refine SortedMap.ext_get? fun a => ?_
  have ha : (s.get? a).isSome ↔ (t.get? a).isSome := h a
  cases hs : s.get? a <;> cases ht : t.get? a
  · rfl
  · simp [hs, ht] at ha
  · simp [hs, ht] at ha
  · rfl

end SortedSet

end CompileWatch
