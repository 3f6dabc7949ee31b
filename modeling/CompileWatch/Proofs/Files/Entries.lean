import Mathlib.Data.String.Basic
import CompileWatch.Files.Path

/-!
# Paths of entries

The path of an entry means what the path of the directory means, and the name.

- `Path.segments_eq_map_splitOnP`: the segments are the texts between the separators.
- `IsEntryName`: what a directory can call an entry.
- `Path.components_join`, `components_below`: what the paths below a directory mean.
- `Path.extension?_join`: the extension is that of the name.
-/

namespace CompileWatch

namespace Path

/-! ### Segments -/

section Splitting

open String

/-- In front of a character a text does not end, and the next place is behind it. -/
theorem at_character (l m r : List Char) (c : Char) :
    ¬Pos.Raw.atEnd (ofList (l ++ m ++ c :: r)) ⟨utf8Len l + utf8Len m⟩ ∧
      Pos.Raw.get (ofList (l ++ m ++ c :: r)) ⟨utf8Len l + utf8Len m⟩ = c ∧
      Pos.Raw.next (ofList (l ++ m ++ c :: r)) ⟨utf8Len l + utf8Len m⟩ =
        ⟨utf8Len l + utf8Len m + c.utf8Size⟩ := by
  rw [← utf8Len_append, atEnd_of_valid, get_of_valid, next_of_valid]
  exact ⟨List.cons_ne_nil c r, rfl, rfl⟩

/-- The separator is read at its start, and it is one byte. -/
theorem at_slash : Pos.Raw.get "/" 0 = '/' ∧ Pos.Raw.next "/" 0 = ⟨1⟩ ∧ Pos.Raw.atEnd "/" ⟨1⟩ ∧
    '/'.utf8Size = 1 := by
  decide +kernel

/-- The texts between separators, when the part `m` of a text is under way. -/
theorem splitOnAux_slash (l m r : List Char) (acc : List String) :
    splitOnAux (ofList (l ++ m ++ r)) "/" ⟨utf8Len l⟩ ⟨utf8Len l + utf8Len m⟩ 0 acc =
      acc.reverse ++ (List.splitOnPPrepend (· == '/') r m.reverse).map ofList := by
  obtain ⟨hslash, hnextSlash, hwhole, hone⟩ := at_slash
  induction r generalizing l m acc with
  | nil =>
    have hend : Pos.Raw.atEnd (ofList (l ++ m ++ [])) ⟨utf8Len l + utf8Len m⟩ := by
      rw [← utf8Len_append, atEnd_of_valid]
    rw [splitOnAux, if_pos hend]
    simpa using extract_of_valid l m []
  | cons c r ih =>
    obtain ⟨hend, hget, hnext⟩ := at_character l m r c
    rw [splitOnAux, if_neg hend, hget, hslash]
    by_cases hc : c = '/'
    · -- the part ends, and the next one is empty yet
      subst hc
      have hback : Pos.Raw.unoffsetBy ⟨utf8Len l + utf8Len m + '/'.utf8Size⟩ ⟨1⟩ =
          ⟨utf8Len l + utf8Len m⟩ := by
        simp [Pos.Raw.unoffsetBy, hone]
      have htext : l ++ m ++ '/' :: r = l ++ m ++ ['/'] ++ [] ++ r := by simp
      have hlen : utf8Len l + utf8Len m + '/'.utf8Size = utf8Len (l ++ m ++ ['/']) := by
        simp [Nat.add_assoc]
      rw [if_pos (beq_self_eq_true _)]
      simp only [hnext, hnextSlash, if_pos hwhole, hback]
      rw [extract_of_valid, htext, hlen]
      have := ih (l ++ m ++ ['/']) [] (ofList m :: acc)
      simpa [List.splitOnPPrepend_cons_eq_if] using this
    · have hstay : Pos.Raw.unoffsetBy ⟨utf8Len l + utf8Len m⟩ 0 = ⟨utf8Len l + utf8Len m⟩ := rfl
      have htext : l ++ m ++ c :: r = l ++ (m ++ [c]) ++ r := by simp
      have hlen : utf8Len l + utf8Len m + c.utf8Size = utf8Len l + utf8Len (m ++ [c]) := by
        simp [Nat.add_assoc]
      rw [if_neg (by simpa using hc), hstay, hnext, htext, hlen, ih]
      simp [List.splitOnPPrepend_cons_eq_if, hc]

/-- The segments of a path are the parts of its text between slashes. -/
theorem segments_eq_map_splitOnP (p : Path) :
    p.segments = (p.text.toList.splitOnP (· == '/')).map ofList := by
  have h := splitOnAux_slash [] [] p.text.toList []
  rw [segments, splitOn, if_neg (by decide +kernel)]
  simpa using h

end Splitting

/-- A text with a separator in it has the segments of what stands before and behind it. -/
theorem segments_ofList_append_slash (before after : List Char) :
    Path.segments ⟨String.ofList (before ++ '/' :: after)⟩ =
      Path.segments ⟨String.ofList before⟩ ++ Path.segments ⟨String.ofList after⟩ := by
  simp only [segments_eq_map_splitOnP, String.toList_ofList]
  rw [List.splitOnP_append_cons (p := fun c => c == '/') _ _ rfl, List.map_append]

/-- A text without a separator is its only segment. -/
theorem segments_ofList_of_not_mem {cs : List Char} (h : '/' ∉ cs) :
    Path.segments ⟨String.ofList cs⟩ = [String.ofList cs] := by
  rw [segments_eq_map_splitOnP, String.toList_ofList, List.splitOnP_eq_singleton]
  · rfl
  · intro c hc
    exact beq_eq_false_iff_ne.mpr (ne_of_mem_of_not_mem hc h)

/-- Every path has a segment, though it may be empty. -/
theorem segments_ne_nil (p : Path) : p.segments ≠ [] := by
  rw [segments_eq_map_splitOnP]
  simp [List.splitOnP_ne_nil]

/-! ### Names of entries -/

/-- What a directory can call an entry. -/
structure IsEntryName (name : String) : Prop where
  ne_empty : name ≠ ""
  ne_dot : name ≠ "."
  ne_dots : name ≠ ".."
  not_mem : '/' ∉ name.toList

instance (name : String) : Decidable (IsEntryName name) :=
  decidable_of_iff (name ≠ "" ∧ name ≠ "." ∧ name ≠ ".." ∧ '/' ∉ name.toList)
    ⟨fun ⟨hempty, hdot, hdots, hslash⟩ => ⟨hempty, hdot, hdots, hslash⟩,
      fun h => ⟨h.ne_empty, h.ne_dot, h.ne_dots, h.not_mem⟩⟩

/-- A name of an entry is one segment. -/
theorem segments_of_isEntryName {name : String} (h : IsEntryName name) :
    Path.segments ⟨name⟩ = [name] := by
  have := segments_ofList_of_not_mem h.not_mem
  rwa [String.ofList_toList] at this

/-- A path is absolute if it begins with a slash. -/
theorem isAbsolute_iff {p : Path} : p.isAbsolute ↔ p.text.toList.head? = some '/' := by
  rw [isAbsolute, String.startsWith_string_iff]
  show ['/'] <+: p.text.toList ↔ _
  cases p.text.toList with
  | nil => simp
  | cons c cs => simp [List.cons_prefix_cons, eq_comm]

variable {p : Path} {name : String}

/-- The path of an entry is that of the directory up to a separator at the end, a separator
and the name. -/
theorem join_eq (h : p.text ≠ "") (name : String) :
    ∃ before : List Char,
      ((p.text.toList = before ∧ before ≠ []) ∨ p.text.toList = before ++ ['/']) ∧
        p.join name = ⟨String.ofList (before ++ '/' :: name.toList)⟩ := by
  have hempty : ¬p.text.isEmpty := by simpa using h
  by_cases hslash : p.text.endsWith "/"
  · have hsuffix := hslash
    rw [String.endsWith_eq_endsWith_toSlice, String.Slice.endsWith_string_iff] at hsuffix
    obtain ⟨before, hbefore⟩ := hsuffix
    have htext : p.text.toList = before ++ ['/'] := by simpa using hbefore.symm
    refine ⟨before, .inr htext, ?_⟩
    rw [join, if_pos (by simp [hslash]), Path.mk.injEq, ← String.toList_inj]
    simp [htext]
  · refine ⟨p.text.toList, .inl ⟨rfl, by simpa using h⟩, ?_⟩
    rw [join, if_neg (by simp [hslash, hempty]), Path.mk.injEq, ← String.toList_inj]
    simp

/-- A path that is joined to a name is as long as both of them at least. -/
theorem utf8ByteSize_le_join (p : Path) (name : String) :
    p.text.utf8ByteSize + name.utf8ByteSize ≤ (p.join name).text.utf8ByteSize := by
  rw [join]
  split
  · simp
  · simp

theorem text_join_ne_empty (h : p.text ≠ "") (name : String) : (p.join name).text ≠ "" := by
  obtain ⟨before, -, hjoin⟩ := join_eq h name
  rw [hjoin, ← String.toList_inj.ne]
  simp

/-- The path of an entry means what the directory's means, and the name. -/
theorem components_join (h : p.text ≠ "") (hname : IsEntryName name) :
    (p.join name).components = p.components ++ [.name name] := by
  obtain ⟨before, hbefore, hjoin⟩ := join_eq h name
  have hsegments : (p.join name).segments = Path.segments ⟨String.ofList before⟩ ++ [name] := by
    rw [hjoin, segments_ofList_append_slash, String.ofList_toList,
      segments_of_isEntryName hname]
  -- what stands in front is the same, with one more separator or without
  have hfront : ∃ trailing, (trailing = [] ∨ trailing = [""]) ∧
      p.segments = Path.segments ⟨String.ofList before⟩ ++ trailing := by
    obtain ⟨htext, -⟩ | htext := hbefore
    · refine ⟨[], .inl rfl, ?_⟩
      rw [← htext, String.ofList_toList, List.append_nil]
    · refine ⟨[""], .inr rfl, ?_⟩
      have := segments_ofList_append_slash before []
      rw [← htext, String.ofList_toList] at this
      rw [this, segments_ofList_of_not_mem List.not_mem_nil]
  have habsolute : (p.join name).isAbsolute = p.isAbsolute := by
    rw [Bool.eq_iff_iff, isAbsolute_iff, isAbsolute_iff, hjoin, String.toList_ofList]
    obtain ⟨htext, hne⟩ | htext := hbefore
    · rw [htext, List.head?_append_of_ne_nil _ hne]
    · rw [htext]
      cases before <;> simp
  obtain ⟨trailing, htrailing, hsplit⟩ := hfront
  have hhead : (p.join name).segments.head? = p.segments.head? := by
    rw [hsegments, hsplit, List.head?_append_of_ne_nil _ (segments_ne_nil _),
      List.head?_append_of_ne_nil _ (segments_ne_nil _)]
  have hkept : (p.join name).segments.filter (fun s => s != "" && s != ".") =
      p.segments.filter (fun s => s != "" && s != ".") ++ [name] := by
    rw [hsegments, hsplit, List.filter_append, List.filter_append]
    obtain rfl | rfl := htrailing <;> simp [hname.ne_empty, hname.ne_dot]
  have hlast : Component.ofSegment name = .name name := if_neg hname.ne_dots
  simp only [components, habsolute, hhead, hkept, List.map_append, List.map_cons, List.map_nil,
    hlast, List.append_assoc]

/-- The path at the end of some names below a directory. -/
def below (p : Path) (names : List String) : Path := names.foldl join p

@[simp] theorem below_nil (p : Path) : p.below [] = p := rfl

@[simp] theorem below_cons (p : Path) (name : String) (names : List String) :
    p.below (name :: names) = (p.join name).below names := rfl

/-- Names lead further down one after the other. -/
theorem below_append (p : Path) (names rest : List String) :
    p.below (names ++ rest) = (p.below names).below rest := List.foldl_append

theorem text_below_ne_empty (h : p.text ≠ "") (names : List String) :
    (p.below names).text ≠ "" := by
  induction names generalizing p with
  | nil => exact h
  | cons name rest ih => exact ih (text_join_ne_empty h name)

/-- Each name that leads down is one component more. -/
theorem components_below (h : p.text ≠ "") {names : List String}
    (hnames : ∀ name ∈ names, IsEntryName name) :
    (p.below names).components = p.components ++ names.map .name := by
  induction names generalizing p with
  | nil => simp
  | cons name rest ih =>
    obtain ⟨hname, hrest⟩ := List.forall_mem_cons.mp hnames
    rw [below_cons, ih (text_join_ne_empty h name) hrest, components_join h hname]
    simp

/-- The extension of an entry is that of its name. -/
theorem extension?_join (h : p.text ≠ "") (hname : IsEntryName name) :
    (p.join name).extension? = (splitName name).2 := by
  rw [extension?, fileName?, components_join h hname, List.getLast?_concat]
  rfl

/-! ### Separators behind a name -/

/-- A name with separators behind it. -/
def trailed (name : String) (n : Nat) : Path :=
  ⟨String.ofList (name.toList ++ List.replicate n '/')⟩

/-- Separators behind a text are segments that say nothing. -/
theorem segments_append_replicate {cs : List Char} (h : '/' ∉ cs) (n : Nat) :
    Path.segments ⟨String.ofList (cs ++ List.replicate n '/')⟩ =
      String.ofList cs :: List.replicate n "" := by
  induction n generalizing cs with
  | zero =>
    rw [List.replicate_zero, List.append_nil]
    exact segments_ofList_of_not_mem h
  | succ n ih =>
    rw [List.replicate_succ, segments_ofList_append_slash, segments_ofList_of_not_mem h]
    exact congrArg (String.ofList cs :: ·) (ih List.not_mem_nil)

/-- Slashes behind a name are empty segments. -/
theorem segments_trailed (h : IsEntryName name) (n : Nat) :
    (trailed name n).segments = name :: List.replicate n "" := by
  rw [trailed, segments_append_replicate h.not_mem, String.ofList_toList]

theorem isAbsolute_trailed (h : IsEntryName name) (n : Nat) :
    (trailed name n).isAbsolute = false := by
  have hne : name.toList ≠ [] := by simpa using h.ne_empty
  rw [← Bool.not_eq_true, isAbsolute_iff, trailed, String.toList_ofList,
    List.head?_append_of_ne_nil _ hne]
  exact fun hhead => h.not_mem (List.mem_of_head? hhead)

/-- Each slash behind a name is one byte. -/
theorem utf8ByteSize_trailed (name : String) (n : Nat) :
    (trailed name n).text.utf8ByteSize = name.utf8ByteSize + n := by
  have hslashes : String.utf8Len (List.replicate n '/') = n := by
    induction n with
    | zero => rfl
    | succ n ih =>
      rw [List.replicate_succ, String.utf8Len_cons, ih]
      rfl
  rw [trailed, String.utf8ByteSize_ofList, String.utf8Len_append, hslashes,
    ← String.utf8ByteSize_ofList, String.ofList_toList]

end Path

end CompileWatch
