/-!
# Finite maps in key order

Every collection that the tool shows to a reader is ordered by key, so the map
is the list of its entries in strictly increasing key order, and the order is
part of the type.

- `SortedMap κ β`: the entries, and the fact that their keys increase.
- `SortedMap.alter`: the one writing operation; `insert` is a special case.
- `SortedMap.get?_alter`: a write shows at its own key and nowhere else.
- `SortedMap.mem_values`, `SortedMap.pairwise_values`: the values, and the order of them.
- `SortedMap.ext_get?`: two maps that answer alike are equal.
-/

namespace CompileWatch

/-- A finite map as its list of entries, the keys strictly increasing. -/
structure SortedMap (κ : Type) (β : Type) [Ord κ] where
  /-- The entries in key order. -/
  entries : List (κ × β)
  /-- Each key comes before every later one. -/
  increasing : entries.Pairwise fun a b => compare a.1 b.1 = .lt

namespace SortedMap

variable {κ β γ : Type} [Ord κ]

/-- The map without entries. -/
def empty : SortedMap κ β := ⟨[], .nil⟩

instance : EmptyCollection (SortedMap κ β) := ⟨empty⟩

instance : Inhabited (SortedMap κ β) := ⟨empty⟩

/-! ### Reading -/

/-- The value at `k` in a list of entries. -/
def lookup (k : κ) : List (κ × β) → Option β
  | [] => none
  | (k', v) :: rest => if compare k k' = .eq then some v else lookup k rest

/-- The value at `k`. -/
def get? (m : SortedMap κ β) (k : κ) : Option β := lookup k m.entries

/-- Whether `k` has a value. -/
def contains (m : SortedMap κ β) (k : κ) : Bool := (m.get? k).isSome

/-- The keys in order. -/
def keys (m : SortedMap κ β) : List κ := m.entries.map (·.1)

/-- The values in the order of their keys. -/
def values (m : SortedMap κ β) : List β := m.entries.map (·.2)

/-- The number of keys. -/
def size (m : SortedMap κ β) : Nat := m.entries.length

/-- Whether no key has a value. -/
def isEmpty (m : SortedMap κ β) : Bool := m.entries.isEmpty

/-! ### Writing -/

/-- Put `f (old value)` at `k`, keeping the key order. -/
def alterEntries (k : κ) (f : Option β → β) : List (κ × β) → List (κ × β)
  | [] => [(k, f none)]
  | (k', v) :: rest =>
    match compare k k' with
    | .lt => (k, f none) :: (k', v) :: rest
    | .eq => (k, f (some v)) :: rest
    | .gt => (k', v) :: alterEntries k f rest

/-- Every key after the write is `k` or was there before. -/
theorem mem_alterEntries {k : κ} {f : Option β → β} {l : List (κ × β)} {p : κ × β}
    (h : p ∈ alterEntries k f l) : p.1 = k ∨ p ∈ l := by
  induction l with
  | nil =>
    simp only [alterEntries, List.mem_singleton] at h
    exact .inl (by rw [h])
  | cons e rest ih =>
    simp only [alterEntries] at h
    split at h
    · rcases List.mem_cons.1 h with h | h
      · exact .inl (by rw [h])
      · exact .inr h
    · rcases List.mem_cons.1 h with h | h
      · exact .inl (by rw [h])
      · exact .inr (List.mem_cons_of_mem _ h)
    · rcases List.mem_cons.1 h with h | h
      · exact .inr (List.mem_cons.2 (.inl h))
      · exact (ih h).imp_right (List.mem_cons_of_mem _)

variable [Std.TransOrd κ] [Std.LawfulEqOrd κ]

/-- A write keeps the keys increasing. -/
theorem increasing_alterEntries {k : κ} {f : Option β → β} {l : List (κ × β)}
    (h : l.Pairwise fun a b => compare a.1 b.1 = .lt) :
    (alterEntries k f l).Pairwise fun a b => compare a.1 b.1 = .lt := by
  induction l with
  | nil => exact List.pairwise_singleton _ _
  | cons e rest ih =>
    obtain ⟨h₁, h₂⟩ := List.pairwise_cons.1 h
    simp only [alterEntries]
    split
    next hk =>
      refine List.pairwise_cons.2 ⟨fun p hp => ?_, h⟩
      rcases List.mem_cons.1 hp with rfl | hp
      · exact hk
      · exact Std.TransCmp.lt_trans hk (h₁ p hp)
    next hk =>
      have hk := Std.LawfulEqCmp.eq_of_compare hk
      subst hk
      exact List.pairwise_cons.2 ⟨h₁, h₂⟩
    next hk =>
      refine List.pairwise_cons.2 ⟨fun p hp => ?_, ih h₂⟩
      rcases mem_alterEntries hp with hp | hp
      · rw [hp]
        exact Std.OrientedCmp.lt_of_gt hk
      · exact h₁ p hp

/-- Put `f (old value)` at `k`. -/
def alter (m : SortedMap κ β) (k : κ) (f : Option β → β) : SortedMap κ β :=
  ⟨alterEntries k f m.entries, increasing_alterEntries m.increasing⟩

/-- Put `v` at `k`, in place of any earlier value. -/
def insert (m : SortedMap κ β) (k : κ) (v : β) : SortedMap κ β := m.alter k fun _ => v

/-- The map of a list of entries; a later entry replaces an earlier one of its key. -/
def ofList (l : List (κ × β)) : SortedMap κ β :=
  l.foldl (fun m p => m.insert p.1 p.2) empty

/-- The entries that satisfy `p`. -/
def filter (m : SortedMap κ β) (p : κ → β → Bool) : SortedMap κ β :=
  ⟨m.entries.filter fun e => p e.1 e.2, m.increasing.filter _⟩

/-! ### What a write shows -/

omit [Std.TransOrd κ] [Std.LawfulEqOrd κ] in
@[simp] theorem get?_empty (k : κ) : (empty : SortedMap κ β).get? k = none := rfl

/-- A lookup finds what was altered, and elsewhere what was there. -/
theorem lookup_alterEntries (k k' : κ) (f : Option β → β) {l : List (κ × β)}
    (h : l.Pairwise fun a b => compare a.1 b.1 = .lt) :
    lookup k' (alterEntries k f l) =
      if compare k' k = .eq then some (f (lookup k l)) else lookup k' l := by
  induction l with
  | nil => simp [alterEntries, lookup]
  | cons e rest ih =>
    obtain ⟨h₁, h₂⟩ := List.pairwise_cons.1 h
    simp only [alterEntries]
    split
    next hk =>
      have hnone : lookup k rest = none := by
        clear ih h
        induction rest with
        | nil => rfl
        | cons e' rest ih =>
          have hlt := Std.TransCmp.lt_trans hk (h₁ e' (List.mem_cons_self ..))
          simp only [lookup, hlt]
          exact ih (fun p hp => h₁ p (List.mem_cons_of_mem _ hp)) (List.pairwise_cons.1 h₂).2
      simp [lookup, hk, hnone]
    next hk =>
      have hk := Std.LawfulEqCmp.eq_of_compare hk
      subst hk
      by_cases hc : compare k' e.1 = .eq <;> simp [lookup, hc]
    next hk =>
      by_cases hc : compare k' e.1 = .eq
      · have hc' := Std.LawfulEqCmp.eq_of_compare hc
        subst hc'
        have : ¬ compare e.1 k = .eq := by
          rw [Std.OrientedCmp.lt_of_gt hk]
          decide
        simp [lookup, this]
      · simp [lookup, hc, hk, ih h₂]

/-- A write shows at its own key and nowhere else. -/
theorem get?_alter (m : SortedMap κ β) (k k' : κ) (f : Option β → β) :
    (m.alter k f).get? k' = if compare k' k = .eq then some (f (m.get? k)) else m.get? k' :=
  lookup_alterEntries k k' f m.increasing

/-- What is inserted is found under its key. -/
theorem get?_insert (m : SortedMap κ β) (k k' : κ) (v : β) :
    (m.insert k v).get? k' = if compare k' k = .eq then some v else m.get? k' :=
  get?_alter m k k' _

/-- A write gives its own key a value, and takes none away. -/
theorem contains_alter (m : SortedMap κ β) (k k' : κ) (f : Option β → β) :
    (m.alter k f).contains k' = (compare k' k == .eq || m.contains k') := by
  unfold contains
  rw [get?_alter]
  by_cases h : compare k' k = .eq <;> simp [h]

omit [Std.TransOrd κ] in
/-- The keys are those under which something is found. -/
theorem mem_keys {m : SortedMap κ β} {k : κ} : k ∈ m.keys ↔ m.contains k := by
  unfold keys contains get?
  induction m.entries with
  | nil => simp [lookup]
  | cons e rest ih =>
    have hkey : k = e.1 ↔ compare k e.1 = .eq := Std.LawfulEqCmp.compare_eq_iff_eq.symm
    rw [List.map_cons, List.mem_cons, ih, lookup, hkey]
    by_cases h : compare k e.1 = .eq <;> simp [h]

/-! ### Entries and values -/

section

omit [Std.TransOrd κ]

variable {m : SortedMap κ β}

/-- In sorted entries, a lookup finds the entry of its key. -/
theorem lookup_eq_some_iff {k : κ} {v : β} {l : List (κ × β)}
    (h : l.Pairwise fun a b => compare a.1 b.1 = .lt) : lookup k l = some v ↔ (k, v) ∈ l := by
  induction l with
  | nil => simp [lookup]
  | cons e rest ih =>
    obtain ⟨hfirst, hrest⟩ := List.pairwise_cons.mp h
    rw [lookup, List.mem_cons]
    by_cases hk : compare k e.1 = .eq
    · obtain rfl := Std.LawfulEqCmp.eq_of_compare hk
      have hnone : (e.1, v) ∉ rest := by
        intro hmem
        have hlt := hfirst _ hmem
        rw [hk] at hlt
        cases hlt
      rw [if_pos hk, or_iff_left hnone, Prod.ext_iff, Option.some_inj, eq_comm]
      simp
    · have hne : (k, v) ≠ e := by
        rintro rfl
        exact hk Std.ReflCmp.compare_self
      rw [if_neg hk, or_iff_right hne, ih hrest]

/-- The entries are what is found under their keys. -/
theorem mem_entries {k : κ} {v : β} : (k, v) ∈ m.entries ↔ m.get? k = some v :=
  (lookup_eq_some_iff m.increasing).symm

theorem mem_values {v : β} : v ∈ m.values ↔ ∃ k, m.get? k = some v := by
  simp only [values, List.mem_map, Prod.exists, exists_eq_right, mem_entries]

/-- Values that know their keys stand in the order of them. -/
theorem pairwise_values {f : β → κ} (h : ∀ k v, m.get? k = some v → f v = k) :
    m.values.Pairwise fun a b => compare (f a) (f b) = .lt := by
  refine List.pairwise_map.mpr (m.increasing.imp_of_mem fun {a b} ha hb hlt => ?_)
  rwa [h a.1 a.2 (mem_entries.mp ha), h b.1 b.2 (mem_entries.mp hb)]

end

/-! ### Equality -/

omit [Std.TransOrd κ] [Std.LawfulEqOrd κ] in
/-- A key below every key of a list has no value in it. -/
theorem lookup_eq_none_of_lt {k : κ} {l : List (κ × β)}
    (h : ∀ p ∈ l, compare k p.1 = .lt) : lookup k l = none := by
  induction l with
  | nil => rfl
  | cons e rest ih =>
    simp only [lookup, h e (List.mem_cons_self ..)]
    exact ih fun p hp => h p (List.mem_cons_of_mem _ hp)

/-- Sorted entries in which the same is found are the same. -/
theorem eq_of_lookup_eq {l₁ l₂ : List (κ × β)}
    (h₁ : l₁.Pairwise fun a b => compare a.1 b.1 = .lt)
    (h₂ : l₂.Pairwise fun a b => compare a.1 b.1 = .lt)
    (h : ∀ k, lookup k l₁ = lookup k l₂) : l₁ = l₂ := by
  induction l₁ generalizing l₂ with
  | nil =>
    cases l₂ with
    | nil => rfl
    | cons e _ => simpa [lookup] using h e.1
  | cons e₁ r₁ ih =>
    obtain ⟨hr₁, hp₁⟩ := List.pairwise_cons.1 h₁
    cases l₂ with
    | nil => simpa [lookup] using h e₁.1
    | cons e₂ r₂ =>
      obtain ⟨hr₂, hp₂⟩ := List.pairwise_cons.1 h₂
      have hkey : e₁.1 = e₂.1 := by
        cases hc : compare e₁.1 e₂.1 with
        | eq => exact Std.LawfulEqCmp.eq_of_compare hc
        | lt =>
          have := h e₁.1
          simp only [lookup, Std.ReflCmp.compare_self, hc] at this
          rw [lookup_eq_none_of_lt fun p hp => Std.TransCmp.lt_trans hc (hr₂ p hp)] at this
          simp at this
        | gt =>
          have hc := Std.OrientedCmp.lt_of_gt hc
          have := h e₂.1
          simp only [lookup, Std.ReflCmp.compare_self, hc] at this
          rw [lookup_eq_none_of_lt fun p hp => Std.TransCmp.lt_trans hc (hr₁ p hp)] at this
          simp at this
      have hval : e₁.2 = e₂.2 := by
        have := h e₁.1
        simpa [lookup, ← hkey] using this
      have htail : r₁ = r₂ := by
        refine ih hp₁ hp₂ fun k => ?_
        by_cases hk : compare k e₁.1 = .eq
        · have hk := Std.LawfulEqCmp.eq_of_compare hk
          subst hk
          rw [lookup_eq_none_of_lt hr₁, lookup_eq_none_of_lt (hkey ▸ hr₂)]
        · have := h k
          simpa [lookup, hk, ← hkey] using this
      rw [htail, show e₁ = e₂ from Prod.ext hkey hval]

/-- Two maps that answer alike are equal. -/
theorem ext_get? {m₁ m₂ : SortedMap κ β} (h : ∀ k, m₁.get? k = m₂.get? k) : m₁ = m₂ := by
  obtain ⟨l₁, h₁⟩ := m₁
  obtain ⟨l₂, h₂⟩ := m₂
  obtain rfl : l₁ = l₂ := eq_of_lookup_eq h₁ h₂ h
  rfl

end SortedMap

end CompileWatch
