import CompileWatch.Files.Disk
import CompileWatch.Proofs.Files.Entries

/-!
# Trees whose directories are listed in another order

- `FileTree.Proper`: a tree as a disk can hold it.
- `FileTree.Relisted`: some directories are listed in another order.
- `FileTree.Alike`: directories and files at the same names.
- `Disk.Alike.locate_eq`: paths lead to the same places.
-/

namespace CompileWatch

/-! ### Entries by name -/

section Entries

variable {entries entries' : List (String × FileTree)}

/-- Where no two entries have one name, looking up is being there. -/
theorem lookup_eq_some_iff_mem (h : (entries.map Prod.fst).Nodup) {name : String} {t : FileTree} :
    entries.lookup name = some t ↔ (name, t) ∈ entries := by
  induction entries with
  | nil => simp
  | cons e rest ih =>
    obtain ⟨hfirst, hrest⟩ := List.nodup_cons.mp h
    rw [List.lookup_cons]
    by_cases hname : name = e.1
    · subst hname
      have habsent : (e.1, t) ∉ rest := fun hmem => hfirst (List.mem_map.mpr ⟨_, hmem, rfl⟩)
      simp [habsent, Prod.ext_iff, eq_comm]
    · have hdiffers : (name, t) ≠ e := fun heq => hname (congrArg Prod.fst heq)
      rw [beq_eq_false_iff_ne.mpr hname, List.mem_cons]
      exact (ih hrest).trans (or_iff_right hdiffers).symm

/-- Entries with distinct names can be listed in any order. -/
theorem lookup_eq_of_perm (h : (entries.map Prod.fst).Nodup) (hperm : entries.Perm entries')
    (name : String) : entries.lookup name = entries'.lookup name := by
  have h' : (entries'.map Prod.fst).Nodup := (hperm.map Prod.fst).nodup_iff.mp h
  refine Option.ext fun t => ?_
  rw [lookup_eq_some_iff_mem h, lookup_eq_some_iff_mem h', hperm.mem_iff]

end Entries

namespace FileTree

/-- Names lead through a tree one after the other. -/
theorem get?_append (t : FileTree) (names rest : List String) :
    t.get? (names ++ rest) = (t.get? names).bind (·.get? rest) := by
  induction names generalizing t with
  | nil => rfl
  | cons name names ih =>
    rw [List.cons_append, get?, get?]
    cases t.entry? name with
    | none => rfl
    | some u => exact ih u

/-! ### Proper trees -/

/-- Each directory has at most one entry of a name, and names that a directory can have. -/
inductive Proper : FileTree → Prop where
  | file (bytes : Bytes) : Proper (.file bytes)
  | dir {entries : List (String × FileTree)} : (entries.map Prod.fst).Nodup →
      (∀ e ∈ entries, Path.IsEntryName e.1) → (∀ e ∈ entries, Proper e.2) → Proper (.dir entries)

variable {t t' u : FileTree} {name : String} {names : List String}

theorem Proper.singleton (hname : Path.IsEntryName name) (h : t.Proper) :
    (FileTree.dir [(name, t)]).Proper :=
  .dir (List.pairwise_singleton _ _) (List.forall_mem_singleton.mpr hname)
    (List.forall_mem_singleton.mpr h)

/-- An entry of a proper tree has a proper name, and what it is of is proper. -/
theorem Proper.of_entry? (h : t.Proper) (hentry : t.entry? name = some u) :
    Path.IsEntryName name ∧ u.Proper := by
  cases h with
  | file bytes => cases hentry
  | dir hnodup hnames hproper =>
    have hmem := (lookup_eq_some_iff_mem hnodup).mp hentry
    exact ⟨hnames _ hmem, hproper _ hmem⟩

/-- What lies in a proper tree is proper, at the end of names that entries can have. -/
theorem Proper.of_get? (h : t.Proper) (hget : t.get? names = some u) :
    (∀ name ∈ names, Path.IsEntryName name) ∧ u.Proper := by
  induction names generalizing t with
  | nil =>
    cases hget
    exact ⟨List.forall_mem_nil _, h⟩
  | cons name rest ih =>
    obtain ⟨v, hentry, hrest⟩ := Option.bind_eq_some_iff.mp hget
    obtain ⟨hname, hv⟩ := h.of_entry? hentry
    obtain ⟨hnames, hu⟩ := ih hv hrest
    exact ⟨List.forall_mem_cons.mpr ⟨hname, hnames⟩, hu⟩

/-! ### Listing in another order -/

/-- Directories of a tree are listed in another order. -/
inductive Relisted : FileTree → FileTree → Prop where
  | refl (t : FileTree) : Relisted t t
  | order {entries entries' : List (String × FileTree)} :
      entries.Perm entries' → Relisted (.dir entries) (.dir entries')
  | inside {t t' : FileTree} (before after : List (String × FileTree)) (name : String) :
      Relisted t t' →
      Relisted (.dir (before ++ (name, t) :: after)) (.dir (before ++ (name, t') :: after))
  | trans {t u v : FileTree} : Relisted t u → Relisted u v → Relisted t v

/-- A tree that is listed in another order is as proper. -/
theorem Relisted.proper (h : t.Relisted t') (ht : t.Proper) : t'.Proper := by
  induction h with
  | refl t => exact ht
  | order hperm =>
    cases ht with
    | dir hnodup hnames hproper =>
      constructor
      · exact (hperm.map Prod.fst).nodup_iff.mp hnodup
      · intro e he
        exact hnames e (hperm.mem_iff.mpr he)
      · intro e he
        exact hproper e (hperm.mem_iff.mpr he)
  | @inside t t' before after name _ ih =>
    cases ht with
    | dir hnodup hnames hproper =>
      simp only [List.forall_mem_append, List.forall_mem_cons] at hnames hproper
      constructor
      · simpa using hnodup
      · simpa only [List.forall_mem_append, List.forall_mem_cons] using hnames
      · simp only [List.forall_mem_append, List.forall_mem_cons]
        exact ⟨hproper.1, ih hproper.2.1, hproper.2.2⟩
  | trans _ _ ih ih' => exact ih' (ih ht)

/-- Directories and files lie at the same names. -/
def Alike (t t' : FileTree) : Prop :=
  ∀ names, (t.get? names).map isDir = (t'.get? names).map isDir

/-- The order in which directories are listed says nothing about what lies where. -/
theorem Relisted.alike (h : t.Relisted t') (ht : t.Proper) : t.Alike t' := by
  induction h with
  | refl t => exact fun _ => rfl
  | order hperm =>
    cases ht with
    | dir hnodup _ _ =>
      rintro (_ | ⟨name, rest⟩)
      · rfl
      · rw [get?, get?, entry?, entry?, lookup_eq_of_perm hnodup hperm]
  | @inside t t' before after name _ ih =>
    have hinside : t.Proper := by
      cases ht with
      | dir _ _ hproper => exact hproper (name, t) (by simp)
    rintro (_ | ⟨n, rest⟩)
    · rfl
    · rw [get?, get?, entry?, entry?, List.lookup_append, List.lookup_append, List.lookup_cons,
        List.lookup_cons]
      -- only below the name itself is anything listed differently
      cases List.lookup n before with
      | some u => rfl
      | none =>
        cases n == name with
        | true => exact ih hinside rest
        | false => rfl
  | trans huv _ ih ih' => exact fun names => (ih ht names).trans (ih' (huv.proper ht) names)

end FileTree

/-! ### Paths in disks that are listed in another order -/

namespace Disk

/-- The directories of a disk are listed in another order. -/
structure Relisted (d d' : Disk) : Prop where
  root : d.root.Relisted d'.root
  home : d'.home = d.home

variable {d d' : Disk}

/-- What lies at the end of some names below a path. -/
def below? (d : Disk) (p : Path) (names : List String) : Option FileTree :=
  (d.find? p).bind (·.get? names)

/-- A step leads to the same place in trees that are alike. -/
theorem step_eq_of_alike (h : d.root.Alike d'.root) (place : List String) (segment : String) :
    d.step place segment = d'.step place segment := by
  have hplace := h place
  have hentry := h (place ++ [segment])
  rw [FileTree.get?_append, FileTree.get?_append] at hentry
  rw [step, step]
  -- what lies at the place, and then whether the segment is the name of an entry
  match hp : d.root.get? place, hp' : d'.root.get? place with
  | none, none => rfl
  | some (.file _), some (.file _) => rfl
  | some (.dir entries), some (.dir entries') =>
    have hlookup : (entries.lookup segment).map FileTree.isDir =
        (entries'.lookup segment).map FileTree.isDir := by
      simpa [hp, hp', FileTree.get?, FileTree.entry?] using hentry
    dsimp only
    split
    · rfl
    split
    · rfl
    rw [entry, entry]
    split
    · rfl
    · match hl : entries.lookup segment, hl' : entries'.lookup segment with
      | none, none => rfl
      | some _, some _ => rfl
      | none, some _ | some _, none => rw [hl, hl'] at hlookup; cases hlookup
  | none, some _ | some _, none => rw [hp, hp'] at hplace; cases hplace
  | some (.file _), some (.dir _) | some (.dir _), some (.file _) =>
    rw [hp, hp'] at hplace
    cases hplace

theorem locate_eq_of_alike (h : d.root.Alike d'.root) (hhome : d'.home = d.home) (p : Path) :
    d.locate p = d'.locate p := by
  have hstep : d.step = d'.step := funext fun place => funext (step_eq_of_alike h place)
  rw [locate, locate, start, start, hstep, hhome]

/-- Below a path lie directories and files at the same names. -/
theorem Relisted.below?_eq (h : d.Relisted d') (hd : d.root.Proper) (p : Path)
    (names : List String) :
    (d.below? p names).map FileTree.isDir = (d'.below? p names).map FileTree.isDir := by
  have halike := h.root.alike hd
  rw [below?, below?, find?, find?, locate_eq_of_alike halike h.home]
  cases (d'.locate p).toOption with
  | none => rfl
  | some place =>
    have := halike (place ++ names)
    rwa [FileTree.get?_append, FileTree.get?_append] at this

/-! ### Directories that are given by their names -/

/-- A path can be asked about if it is not empty, has no zero character and is not too long. -/
theorem checkText_eq_ok_iff {p : Path} :
    checkText p = .ok () ↔ p.text ≠ "" ∧ ¬p.text.contains '\x00' ∧ ¬p.isTooLong := by
  rw [checkText]
  split <;> rename_i hempty
  · simp [String.isEmpty_iff.mp hempty]
  split <;> rename_i hnul
  · simp [hnul]
  split <;> rename_i hlong
  · simp [hlong]
  · simp only [String.isEmpty_iff] at hempty
    exact iff_of_true rfl ⟨hempty, hnul, hlong⟩

variable {name : String} {entries inner : List (String × FileTree)} {n : Nat}

/-- A name with slashes behind it can be asked about as long as it fits. -/
theorem checkText_trailed (hname : Path.IsEntryName name) (hnul : '\x00' ∉ name.toList)
    (hfits : name.utf8ByteSize + n ≤ Path.byteLimit) :
    checkText (Path.trailed name n) = .ok () := by
  refine checkText_eq_ok_iff.mpr ⟨?_, ?_, ?_⟩
  · have hne : name.toList ≠ [] := by simpa using hname.ne_empty
    rw [← String.toList_inj.ne, Path.trailed, String.toList_ofList]
    simp [hne]
  · rw [String.contains_char_eq, Path.trailed, String.toList_ofList]
    simp [hnul]
  · rw [Path.isTooLong, Path.utf8ByteSize_trailed]
    simpa using hfits

/-- Segments that say nothing stay in a directory. -/
theorem foldlM_step_replicate {place : List String}
    (h : d.root.get? place = some (.dir entries)) (n : Nat) :
    (List.replicate n "").foldlM d.step place = .ok place := by
  induction n with
  | zero => rfl
  | succ n ih =>
    have hstay : d.step place "" = .ok place := by
      rw [step, h]
      rfl
    rw [List.replicate_succ, List.foldlM_cons, hstay]
    exact ih

/-- A directory of the working directory can be given by its name, with separators behind it. -/
theorem find?_trailed (hname : Path.IsEntryName name) (hnul : '\x00' ∉ name.toList)
    (hlimit : name.utf8ByteSize ≤ Path.nameByteLimit)
    (hfits : name.utf8ByteSize + n ≤ Path.byteLimit)
    (hhome : d.root.get? d.home = some (.dir entries))
    (hentry : entries.lookup name = some (.dir inner)) :
    d.find? (Path.trailed name n) = some (.dir inner) := by
  have hplace : d.root.get? (d.home ++ [name]) = some (.dir inner) := by
    rw [FileTree.get?_append, hhome]
    simp [FileTree.get?, FileTree.entry?, hentry]
  have hstep : d.step d.home name = .ok (d.home ++ [name]) := by
    rw [step, hhome]
    simp only [hname.ne_empty, hname.ne_dot, hname.ne_dots, or_self, if_false, entry,
      if_neg (Nat.not_lt.mpr hlimit), hentry]
    rfl
  have hlocate : d.locate (Path.trailed name n) = .ok (d.home ++ [name]) := by
    rw [locate, checkText_trailed hname hnul hfits, Path.segments_trailed hname, start,
      Path.isAbsolute_trailed hname]
    show List.foldlM d.step d.home (name :: List.replicate n "") = _
    rw [List.foldlM_cons, hstep]
    exact foldlM_step_replicate hplace n
  rw [find?, hlocate]
  exact hplace

end Disk

end CompileWatch
