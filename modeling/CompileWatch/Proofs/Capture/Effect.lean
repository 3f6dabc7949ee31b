import CompileWatch.Sorted.Map

/-!
# What a buffer undergoes

A buffer is shown captures one after the other, and between them it is emptied, or switched on
and off. Which captures it took, and which of them are still there, can be told from what it
underwent alone.

- `Effect`: one thing that happens to a buffer.
- `Effect.Taken`: a capture met a buffer that was switched on.
- `Effect.Since`, `Effect.Latest`: a capture that was taken since the buffer was last emptied,
  and one that no later one of its key replaced.
- `Effect.Holds`: a map holds the latest capture of each key.
- `Effect.holds_snoc`: one effect more.
-/

namespace CompileWatch

/-- What may happen to a buffer of captures. -/
inductive Effect (α : Type) where
  /-- It is shown a capture, and takes it if it is switched on. -/
  | capture (a : α)
  /-- Everything in it is handed out or forgotten. -/
  | empty
  | switch (on : Bool)
  /-- Something that is not about this buffer. -/
  | other

namespace Effect

variable {α β κ σ : Type}

/-- Whether a buffer is switched on after an effect. -/
def switched (on : Bool) : Effect α → Bool
  | .switch on' => on'
  | _ => on

/-- What is in a buffer after an effect, when `put` puts a capture in. -/
def content (put : σ → α → σ) (fresh : σ) (on : Bool) (m : σ) : Effect α → σ
  | .capture a => if on then put m a else m
  | .empty => fresh
  | _ => m

/-- Whether a buffer is switched on after effects in a row. A new one is. -/
def isOn (effects : List (Effect α)) : Bool := effects.foldl switched true

theorem isOn_snoc (effects : List (Effect α)) (f : Effect α) :
    isOn (effects ++ [f]) = f.switched (isOn effects) := by
  rw [isOn, List.foldl_append]
  rfl

/-! ### Captures that were taken -/

/-- The effect number `i` was a capture, and the buffer was switched on. -/
def Taken (effects : List (Effect α)) (i : Nat) (a : α) : Prop :=
  effects[i]? = some (.capture a) ∧ isOn (effects.take i)

/-- A capture was taken, and the buffer was not emptied since. -/
structure Since (effects : List (Effect α)) (i : Nat) (a : α) : Prop where
  taken : Taken effects i a
  kept : ∀ j, i < j → effects[j]? ≠ some .empty

/-- A capture was taken, and since then the buffer was neither emptied nor has it taken another
capture of the same key. -/
structure Latest (key : α → κ) (effects : List (Effect α)) (i : Nat) (a : α) : Prop
    extends Since effects i a where
  last : ∀ j b, i < j → Taken effects j b → key b ≠ key a

section

variable {key : α → κ} {effects : List (Effect α)} {f : Effect α} {i : Nat} {a : α}

theorem Taken.lt (h : Taken effects i a) : i < effects.length :=
  (List.getElem?_eq_some_iff.mp h.1).1

/-- A further effect comes last. -/
theorem getElem?_snoc {x : Effect α} :
    (effects ++ [f])[i]? = some x ↔ effects[i]? = some x ∨ i = effects.length ∧ f = x := by
  rcases Nat.lt_trichotomy i effects.length with hi | rfl | hi
  · rw [List.getElem?_append_left hi]
    simp [Nat.ne_of_lt hi]
  · simp
  · rw [List.getElem?_eq_none (by simp; omega), List.getElem?_eq_none (Nat.le_of_lt hi)]
    simp [Nat.ne_of_gt hi]

/-- A further effect takes what it captures, if the buffer is on, and untakes nothing. -/
theorem taken_snoc :
    Taken (effects ++ [f]) i a ↔
      Taken effects i a ∨ i = effects.length ∧ f = .capture a ∧ isOn effects := by
  unfold Taken
  rw [getElem?_snoc]
  constructor
  · rintro ⟨h | ⟨rfl, rfl⟩, hon⟩
    · have hi := (List.getElem?_eq_some_iff.mp h).1
      rw [List.take_append_of_le_length (Nat.le_of_lt hi)] at hon
      exact .inl ⟨h, hon⟩
    · exact .inr ⟨rfl, rfl, by simpa using hon⟩
  · rintro (⟨h, hon⟩ | ⟨rfl, rfl, hon⟩)
    · have hi := (List.getElem?_eq_some_iff.mp h).1
      exact ⟨.inl h, by rwa [List.take_append_of_le_length (Nat.le_of_lt hi)]⟩
    · exact ⟨.inr ⟨rfl, rfl⟩, by simpa using hon⟩

/-- After a further effect a capture is there if it was before and the effect does not empty the
buffer, or if it is that effect. -/
theorem since_snoc :
    Since (effects ++ [f]) i a ↔
      (Since effects i a ∧ f ≠ .empty) ∨ i = effects.length ∧ f = .capture a ∧ isOn effects := by
  constructor
  · rintro ⟨htaken, hkept⟩
    rcases taken_snoc.mp htaken with h | h
    · refine .inl ⟨⟨h, fun j hj hempty => ?_⟩, fun hf => ?_⟩
      · exact hkept j hj (getElem?_snoc.mpr (.inl hempty))
      · exact hkept effects.length h.lt (getElem?_snoc.mpr (.inr ⟨rfl, hf⟩))
    · exact .inr h
  · rintro (⟨⟨htaken, hkept⟩, hf⟩ | h)
    · refine ⟨taken_snoc.mpr (.inl htaken), fun j hj hempty => ?_⟩
      rcases getElem?_snoc.mp hempty with h | ⟨-, h⟩
      · exact hkept j hj h
      · exact hf h
    · refine ⟨taken_snoc.mpr (.inr h), fun j hj hempty => ?_⟩
      have hlt := (List.getElem?_eq_some_iff.mp hempty).1
      rw [List.length_append, List.length_singleton] at hlt
      omega

/-- After a further effect a capture is the latest of its key if it was before and the effect
neither empties the buffer nor captures the key again, or if it is that effect. -/
theorem latest_snoc :
    Latest key (effects ++ [f]) i a ↔
      (Latest key effects i a ∧ f ≠ .empty ∧
        ∀ b, f = .capture b → isOn effects → key b ≠ key a) ∨
      i = effects.length ∧ f = .capture a ∧ isOn effects := by
  constructor
  · rintro ⟨hsince, hlast⟩
    rcases since_snoc.mp hsince with ⟨h, hf⟩ | h
    · refine .inl ⟨⟨h, fun j b hj hb => ?_⟩, hf, fun b hb hon => ?_⟩
      · exact hlast j b hj (taken_snoc.mpr (.inl hb))
      · exact hlast effects.length b h.taken.lt (taken_snoc.mpr (.inr ⟨rfl, hb, hon⟩))
    · exact .inr h
  · rintro (⟨⟨hsince, hlast⟩, hf, hnew⟩ | h)
    · refine ⟨since_snoc.mpr (.inl ⟨hsince, hf⟩), fun j b hj hb => ?_⟩
      rcases taken_snoc.mp hb with hb | ⟨-, hb, hon⟩
      · exact hlast j b hj hb
      · exact hnew b hb hon
    · refine ⟨since_snoc.mpr (.inr h), fun j b hj hb => ?_⟩
      have hlt := hb.lt
      rw [List.length_append, List.length_singleton] at hlt
      omega

/-! Read off before the row is over, a capture has only what came between against it. -/

/-- Among the first effects, the same are taken as among all of them. -/
theorem taken_take {n : Nat} : Taken (effects.take n) i a ↔ i < n ∧ Taken effects i a := by
  unfold Taken
  by_cases hi : i < n
  · rw [List.getElem?_take_of_lt hi, List.take_take, Nat.min_eq_left (Nat.le_of_lt hi)]
    simp [hi]
  · rw [List.getElem?_take, if_neg hi]
    simp [hi]

/-- What was the latest of its key at an earlier time. -/
theorem latest_take {n : Nat} :
    Latest key (effects.take n) i a ↔
      i < n ∧ Taken effects i a ∧ ∀ j, i < j → j < n →
        effects[j]? ≠ some .empty ∧ ∀ b, Taken effects j b → key b ≠ key a := by
  constructor
  · rintro ⟨⟨htaken, hkept⟩, hlast⟩
    obtain ⟨hi, htaken⟩ := taken_take.mp htaken
    refine ⟨hi, htaken, fun j hij hj => ⟨fun hempty => ?_, fun b hb => ?_⟩⟩
    · exact hkept j hij (by rwa [List.getElem?_take_of_lt hj])
    · exact hlast j b hij (taken_take.mpr ⟨hj, hb⟩)
  · rintro ⟨hi, htaken, hbetween⟩
    refine ⟨⟨taken_take.mpr ⟨hi, htaken⟩, fun j hij hempty => ?_⟩, fun j b hij hb => ?_⟩
    · have hj : j < n := by
        have := (List.getElem?_eq_some_iff.mp hempty).1
        rw [List.length_take] at this
        omega
      rw [List.getElem?_take_of_lt hj] at hempty
      exact (hbetween j hij hj).1 hempty
    · obtain ⟨hj, hb⟩ := taken_take.mp hb
      exact (hbetween j hij hj).2 b hb

end

/-! ### Buffers of everything that was taken -/

/-- What a buffer shows, when it shows whatever one of the captures in it shows. -/
theorem shown_snoc (shown : σ → Prop) {put : σ → α → σ} {fresh : σ} {shows : α → Prop}
    (hfresh : ¬ shown fresh) (hput : ∀ m a, shown (put m a) ↔ shows a ∨ shown m)
    {effects : List (Effect α)} {m : σ} (h : shown m ↔ ∃ i a, Since effects i a ∧ shows a)
    (f : Effect α) :
    shown (f.content put fresh (isOn effects) m) ↔
      ∃ i a, Since (effects ++ [f]) i a ∧ shows a := by
  have hidle (hf : f ≠ .empty) (hcapture : ∀ a, f = .capture a → isOn effects = false) :
      shown m ↔ ∃ i a, Since (effects ++ [f]) i a ∧ shows a := by
    rw [h]
    constructor
    · rintro ⟨i, a, hsince, ha⟩
      exact ⟨i, a, since_snoc.mpr (.inl ⟨hsince, hf⟩), ha⟩
    · rintro ⟨i, a, hsince, ha⟩
      rcases since_snoc.mp hsince with ⟨hsince, -⟩ | ⟨-, hf, hon⟩
      · exact ⟨i, a, hsince, ha⟩
      · rw [hcapture a hf] at hon
        cases hon
  cases f with
  | capture a =>
    by_cases hon : isOn effects
    · rw [content, if_pos hon, hput, h]
      constructor
      · rintro (ha | ⟨i, b, hsince, hb⟩)
        · exact ⟨effects.length, a, since_snoc.mpr (.inr ⟨rfl, rfl, hon⟩), ha⟩
        · exact ⟨i, b, since_snoc.mpr (.inl ⟨hsince, nofun⟩), hb⟩
      · rintro ⟨i, b, hsince, hb⟩
        rcases since_snoc.mp hsince with ⟨hsince, -⟩ | ⟨-, ⟨⟩, -⟩
        · exact .inr ⟨i, b, hsince, hb⟩
        · exact .inl hb
    · rw [content, if_neg hon]
      exact hidle nofun fun _ _ => eq_false_of_ne_true hon
  | empty =>
    refine iff_of_false hfresh ?_
    rintro ⟨i, a, hsince, -⟩
    rcases since_snoc.mp hsince with ⟨-, hempty⟩ | ⟨-, hcapture, -⟩
    · exact absurd rfl hempty
    · cases hcapture
  | switch on => exact hidle nofun nofun
  | other => exact hidle nofun nofun

/-! ### Buffers of one capture for each key -/

/-- A map has the records of the captures that are the latest of their keys, and nothing else. -/
def Holds [Ord κ] (key : α → κ) (record : α → β) (effects : List (Effect α))
    (m : SortedMap κ β) : Prop :=
  ∀ k v, m.get? k = some v ↔ ∃ i a, Latest key effects i a ∧ key a = k ∧ record a = v

section

variable [Ord κ] [Std.TransOrd κ] [Std.LawfulEqOrd κ] {key : α → κ} {record : α → β}
  {effects : List (Effect α)} {m : SortedMap κ β}

omit [Std.TransOrd κ] [Std.LawfulEqOrd κ] in
/-- A buffer that nothing happened to holds nothing. -/
theorem holds_nil : Holds key record [] SortedMap.empty := by
  intro k v
  constructor
  · intro h
    cases h
  · rintro ⟨i, a, hlatest, -⟩
    cases hlatest.taken.1

omit [Std.TransOrd κ] [Std.LawfulEqOrd κ] in
/-- An effect that neither puts a capture in nor takes any out. -/
theorem Holds.idle (h : Holds key record effects m) {f : Effect α} (hf : f ≠ .empty)
    (hcapture : ∀ a, f = .capture a → isOn effects = false) :
    Holds key record (effects ++ [f]) m := by
  intro k v
  rw [h k v]
  constructor
  · rintro ⟨i, a, hlatest, hkey⟩
    refine ⟨i, a, latest_snoc.mpr (.inl ⟨hlatest, hf, fun b hb hon => ?_⟩), hkey⟩
    rw [hcapture b hb] at hon
    cases hon
  · rintro ⟨i, a, hlatest, hkey⟩
    rcases latest_snoc.mp hlatest with ⟨hlatest, -⟩ | ⟨-, ha, hon⟩
    · exact ⟨i, a, hlatest, hkey⟩
    · rw [hcapture a ha] at hon
      cases hon

/-- A capture that is taken stands at its key, in place of an earlier one. -/
theorem Holds.take (h : Holds key record effects m) (hon : isOn effects) (a : α) :
    Holds key record (effects ++ [.capture a]) (m.insert (key a) (record a)) := by
  intro k v
  rw [SortedMap.get?_insert]
  by_cases hk : k = key a
  · subst hk
    rw [if_pos Std.ReflCmp.compare_self, Option.some_inj]
    constructor
    · rintro rfl
      exact ⟨effects.length, a, latest_snoc.mpr (.inr ⟨rfl, rfl, hon⟩), rfl, rfl⟩
    · rintro ⟨i, b, hlatest, hkey, rfl⟩
      rcases latest_snoc.mp hlatest with ⟨-, -, hnew⟩ | ⟨-, hb, -⟩
      · exact absurd hkey.symm (hnew a rfl hon)
      · cases hb
        rfl
  · rw [if_neg fun hc => hk (Std.LawfulEqCmp.eq_of_compare hc), h k v]
    constructor
    · rintro ⟨i, b, hlatest, rfl, rfl⟩
      refine ⟨i, b, latest_snoc.mpr (.inl ⟨hlatest, nofun, ?_⟩), rfl, rfl⟩
      rintro c ⟨⟩ -
      exact fun hkey => hk hkey.symm
    · rintro ⟨i, b, hlatest, rfl, rfl⟩
      rcases latest_snoc.mp hlatest with ⟨hlatest, -⟩ | ⟨-, hb, -⟩
      · exact ⟨i, b, hlatest, rfl, rfl⟩
      · cases hb
        exact absurd rfl hk

/-- A buffer that holds what it should does so after a further effect. -/
theorem holds_snoc (h : Holds key record effects m) (f : Effect α) :
    Holds key record (effects ++ [f])
      (f.content (fun m a => m.insert (key a) (record a)) SortedMap.empty (isOn effects) m) := by
  cases f with
  | capture a =>
    by_cases hon : isOn effects
    · exact (congrArg (Holds key record _) (if_pos hon)).mpr (h.take hon a)
    · refine (congrArg (Holds key record _) (if_neg hon)).mpr (h.idle nofun fun _ _ => ?_)
      exact eq_false_of_ne_true hon
  | empty =>
    intro k v
    constructor
    · intro h
      cases h
    · rintro ⟨i, a, hlatest, -⟩
      rcases latest_snoc.mp hlatest with ⟨-, hempty, -⟩ | ⟨-, hcapture, -⟩
      · exact absurd rfl hempty
      · cases hcapture
  | switch on => exact h.idle nofun nofun
  | other => exact h.idle nofun nofun

end

end Effect

end CompileWatch
