import CompileWatch.Proofs.Files.Listing
import CompileWatch.Proofs.Files.Order
import CompileWatch.Scan.Units

/-!
# Collecting unit files

What is collected are the files that were given and the unit files below the directories that
were given, in order and each once, however the directories are listed. A directory below a
given one is only looked into if its path is not too long to lead anywhere; otherwise it counts
by its name.

- `FileTree.Meets`: what the walk through a tree meets.
- `Disk.Finds`: the files there are to be found, whatever the length of their paths.
- `Disk.Lists`: what is collected instead.
- `collectUnits_exact`: collecting is exact, and the order of listing is of no account.
-/

namespace CompileWatch

/-! ### The walk through a tree -/

/-- Whether the name of an entry is that of a unit file. -/
def isUnitName (name : String) : Bool := (Path.splitName name).2 = some unitExtension

namespace Path

variable {p : Path} {names : List String} {name : String}

/-- Whether an entry of a directory is a unit is seen from its name. -/
theorem isUnitFile_join (h : p.text ≠ "") (hname : IsEntryName name) :
    isUnitFile (p.join name) = isUnitName name := by
  rw [isUnitFile, extension?_join h hname, isUnitName]

theorem isUnitFile_below (h : p.text ≠ "") (hname : IsEntryName name) :
    isUnitFile (p.below (names ++ [name])) = isUnitName name := by
  rw [below_append, below_cons, below_nil, isUnitFile_join (text_below_ne_empty h names) hname]

/-- No directory on the way has a path that is too long. -/
def Leads (p : Path) (names : List String) : Prop :=
  ∀ front, front <+: names → front ≠ names → ¬(p.below front).isTooLong

theorem leads_nil : p.Leads [] := by
  intro front hfront hne
  exact absurd (List.prefix_nil.mp hfront) hne

/-- A path leads on as long as the directories on the way can be asked about. -/
theorem leads_cons : p.Leads (name :: names) ↔ ¬p.isTooLong ∧ (p.join name).Leads names := by
  constructor
  · intro h
    refine ⟨h [] List.nil_prefix (List.cons_ne_nil _ _).symm, fun front hfront hne => ?_⟩
    exact h (name :: front) ((List.prefix_cons_inj name).mpr hfront) (by simpa using hne)
  · rintro ⟨hshort, hrest⟩ front hfront hne
    obtain rfl | ⟨front, rfl, hinner⟩ := List.prefix_cons_iff.mp hfront
    · exact hshort
    · exact hrest front hinner (by simpa using hne)

end Path

namespace FileTree

variable {p f : Path} {t u : FileTree} {entries : List (String × FileTree)}

/-- The unit files of a directory are those of its entries. -/
theorem mem_entryFiles_iff :
    f ∈ entryFiles p entries ↔ ∃ e ∈ entries, f ∈ e.2.unitFiles (p.join e.1) := by
  induction entries with
  | nil => simp [entryFiles]
  | cons e rest ih => rw [entryFiles, List.mem_append, ih, List.exists_mem_cons_iff]

/-- Below a directory, a name leads into the entry that has it. -/
theorem get?_dir_cons (h : (entries.map Prod.fst).Nodup) {name : String} {rest : List String} :
    (dir entries).get? (name :: rest) = some u ↔
      ∃ v, (name, v) ∈ entries ∧ v.get? rest = some u := by
  rw [get?, entry?, Option.bind_eq_some_iff]
  simp only [lookup_eq_some_iff_mem h]

/-- A path is met in the walk: that of a unit file whose directories have paths that lead
somewhere, or of what is taken for one because its path leads nowhere. -/
def Meets (t : FileTree) (p f : Path) : Prop :=
  ∃ names u, t.get? names = some u ∧ p.Leads names ∧ (u.isDir → f.isTooLong) ∧
    f = p.below names ∧ isUnitFile f

/-- A file meets nothing but its own path, if that is the path of a unit. -/
theorem meets_file_iff {bytes : Bytes} : (file bytes).Meets p f ↔ f = p ∧ isUnitFile p := by
  constructor
  · rintro ⟨names, u, hget, -, -, rfl, hunit⟩
    cases names with
    | nil => exact ⟨rfl, hunit⟩
    | cons name rest => cases hget
  · rintro ⟨rfl, hunit⟩
    exact ⟨[], file bytes, rfl, Path.leads_nil, (fun h => by cases h), rfl, hunit⟩

/-- In a directory paths are met below its entries, or only its own if that is too long. -/
theorem meets_dir_iff (h : (entries.map Prod.fst).Nodup) :
    (dir entries).Meets p f ↔ if p.isTooLong then f = p ∧ isUnitFile p
      else ∃ e ∈ entries, e.2.Meets (p.join e.1) f := by
  split
  · rename_i hlong
    constructor
    · rintro ⟨names, u, -, hleads, -, rfl, hunit⟩
      cases names with
      | nil => exact ⟨rfl, hunit⟩
      | cons name rest => exact absurd hlong (Path.leads_cons.mp hleads).1
    · rintro ⟨rfl, hunit⟩
      exact ⟨[], dir entries, rfl, Path.leads_nil, fun _ => hlong, rfl, hunit⟩
  · rename_i hshort
    constructor
    · rintro ⟨names, u, hget, hleads, hdir, rfl, hunit⟩
      cases names with
      | nil =>
        cases hget
        exact absurd (hdir rfl) hshort
      | cons name rest =>
        obtain ⟨v, hv, hget⟩ := (get?_dir_cons h).mp hget
        exact ⟨(name, v), hv, rest, u, hget, (Path.leads_cons.mp hleads).2, hdir, rfl, hunit⟩
    · rintro ⟨e, he, names, u, hget, hleads, hdir, rfl, hunit⟩
      have hentry : (dir entries).get? (e.1 :: names) = some u :=
        (get?_dir_cons h).mpr ⟨e.2, he, hget⟩
      exact ⟨e.1 :: names, u, hentry, Path.leads_cons.mpr ⟨hshort, hleads⟩, hdir, rfl, hunit⟩

/-- The walk gives the paths that are met. -/
theorem mem_unitFiles_iff (ht : t.Proper) : f ∈ t.unitFiles p ↔ t.Meets p f := by
  induction ht generalizing p with
  | file bytes =>
    rw [unitFiles, meets_file_iff]
    split <;> rename_i hunit <;> simp [hunit]
  | dir hnodup _ _ ih =>
    rw [unitFiles, meets_dir_iff hnodup]
    by_cases hlong : p.isTooLong
    · rw [if_neg (by simpa using hlong), if_pos hlong]
      split <;> rename_i hunit <;> simp [hunit]
    · rw [if_pos (by simpa using hlong), if_neg hlong, mem_entryFiles_iff]
      constructor
      · rintro ⟨e, he, hf⟩
        exact ⟨e, he, (ih e he).mp hf⟩
      · rintro ⟨e, he, hf⟩
        exact ⟨e, he, (ih e he).mpr hf⟩

/-- What is passed on the way to something is a directory. -/
theorem isDir_of_get?_append {names rest : List String} (hrest : rest ≠ [])
    (h : t.get? (names ++ rest) = some u) : ∃ v, t.get? names = some v ∧ v.isDir := by
  rw [get?_append] at h
  obtain ⟨v, hv, hget⟩ := Option.bind_eq_some_iff.mp h
  refine ⟨v, hv, ?_⟩
  cases v with
  | dir entries => rfl
  | file bytes =>
    cases rest with
    | nil => exact absurd rfl hrest
    | cons name rest => cases hget

end FileTree

/-! ### What is to be found -/

namespace Disk

variable {d d' : Disk} {paths paths' : List Path} {p f : Path} {names : List String}
  {t u : FileTree}

/-- A path that leads somewhere is neither empty nor too long. -/
theorem text_of_find? (h : d.find? p = some t) : p.text ≠ "" ∧ ¬p.isTooLong := by
  obtain ⟨place, hlocate, -⟩ := Option.bind_eq_some_iff.mp h
  have hchecked : checkText p = .ok () := by
    cases hcheck : checkText p with
    | ok => rfl
    | error fault => rw [locate, hcheck] at hlocate; cases hlocate
  rw [checkText_eq_ok_iff] at hchecked
  exact ⟨hchecked.1, hchecked.2.2⟩

theorem below?_nil (p : Path) : d.below? p [] = d.find? p := by
  rw [below?]
  cases d.find? p <;> rfl

/-- Any part of a proper tree is proper. -/
theorem proper_of_find? (hd : d.root.Proper) (h : d.find? p = some t) : t.Proper := by
  obtain ⟨place, -, hget⟩ := Option.bind_eq_some_iff.mp h
  exact (hd.of_get? hget).2

/-- The files under some paths: the files among them, and the unit files at any depth below
the directories among them, each by a path that goes on where the directory's path ends. -/
inductive Finds (d : Disk) (paths : List Path) : Path → Prop where
  | given {p : Path} {bytes : Bytes} :
      p ∈ paths → d.find? p = some (.file bytes) → Finds d paths p
  | below {p f : Path} {names : List String} {name : String} {bytes : Bytes} :
      p ∈ paths → d.below? p (names ++ [name]) = some (.file bytes) → isUnitName name →
      f.components = p.components ++ (names ++ [name]).map .name → Finds d paths f

/-- What is listed under some paths: below a directory, what is reached through directories
with paths that are not too long, and is no directory or has a path that is too long. -/
inductive Lists (d : Disk) (paths : List Path) : Path → Prop where
  | given {p : Path} {bytes : Bytes} :
      p ∈ paths → d.find? p = some (.file bytes) → Lists d paths p
  | below {p : Path} {names : List String} {name : String} {u : FileTree} :
      p ∈ paths → d.below? p (names ++ [name]) = some u → isUnitName name →
      p.Leads (names ++ [name]) → (u.isDir → (p.below (names ++ [name])).isTooLong) →
      Lists d paths (p.below (names ++ [name]))

/-- Every directory below some paths has a path that is not too long. -/
def Reaches (d : Disk) (paths : List Path) : Prop :=
  ∀ p ∈ paths, ∀ names u, d.below? p names = some u → u.isDir → ¬(p.below names).isTooLong

/-- The path of what lies below a directory goes on where the directory's path ends. -/
theorem components_of_below? (hd : d.root.Proper) (h : d.below? p names = some u) :
    (p.below names).components = p.components ++ names.map .name := by
  obtain ⟨t, ht, hget⟩ := Option.bind_eq_some_iff.mp h
  have hnames := ((proper_of_find? hd ht).of_get? hget).1
  exact Path.components_below (text_of_find? ht).1 hnames

/-- Where every directory is reached, only what there is to be found is listed. -/
theorem Lists.finds (hd : d.root.Proper) (h : d.Reaches paths) (hf : d.Lists paths f) :
    d.Finds paths f := by
  obtain ⟨hp, hfile⟩ | @⟨p, names, name, u, hp, hbelow, hunit, hleads, hdir⟩ := hf
  · exact .given hp hfile
  · cases u with
    | file bytes => exact .below hp hbelow hunit (components_of_below? hd hbelow)
    | dir entries => exact absurd (hdir rfl) (h p hp _ _ hbelow rfl)

/-- Where every directory is reached, what there is to be found is listed. -/
theorem Finds.exists_lists (hd : d.root.Proper) (h : d.Reaches paths) (hf : d.Finds paths f) :
    ∃ g, d.Lists paths g ∧ g.components = f.components := by
  obtain ⟨hp, hfile⟩ | @⟨p, _, names, name, bytes, hp, hbelow, hunit, hmeaning⟩ := hf
  · exact ⟨f, .given hp hfile, rfl⟩
  · have hsame := (components_of_below? hd hbelow).trans hmeaning.symm
    refine ⟨_, .below hp hbelow hunit ?_ nofun, hsame⟩
    rintro front ⟨rest, hrest⟩ hne
    have hrest' : rest ≠ [] := by
      rintro rfl
      exact hne ((List.append_nil front).symm.trans hrest)
    obtain ⟨t, ht, hget⟩ := Option.bind_eq_some_iff.mp hbelow
    rw [← hrest] at hget
    obtain ⟨v, hv, hdir⟩ := FileTree.isDir_of_get?_append hrest' hget
    exact h p hp front v (Option.bind_eq_some_iff.mpr ⟨t, ht, hv⟩) hdir

/-- The paths that one path is listed as. -/
def listing (d : Disk) (p : Path) : List Path :=
  match d.find? p with
  | some (.dir entries) => entryFiles p entries
  | _ => [p]

/-- What is found in the entries of a directory is what is listed for its path. -/
theorem mem_entryFiles_iff_lists {entries : List (String × FileTree)} (hd : d.root.Proper)
    (h : d.find? p = some (.dir entries)) : f ∈ entryFiles p entries ↔ d.Lists [p] f := by
  obtain ⟨htext, hshort⟩ := text_of_find? h
  have hproper := proper_of_find? hd h
  have hbelow : ∀ names, d.below? p names = (FileTree.dir entries).get? names := fun names => by
    rw [below?, h]
    rfl
  have hwalk : entryFiles p entries = (FileTree.dir entries).unitFiles p := by
    rw [FileTree.unitFiles, if_pos (by simpa using hshort)]
  rw [hwalk, FileTree.mem_unitFiles_iff hproper]
  constructor
  · rintro ⟨names, u, hget, hleads, hdir, rfl, hunit⟩
    obtain rfl | ⟨front, name, rfl⟩ := List.eq_nil_or_concat names
    · -- the directory itself has a path that leads to it
      cases hget
      exact absurd (hdir rfl) hshort
    · rw [List.concat_eq_append] at *
      have hname := (hproper.of_get? hget).1 name (by simp)
      rw [Path.isUnitFile_below htext hname] at hunit
      exact .below (List.mem_singleton_self p) ((hbelow _).trans hget) hunit hleads hdir
  · rintro (⟨hp, hfile⟩ | @⟨q, names, name, u, hq, hu, hunit, hleads, hdir⟩)
    · obtain rfl := List.mem_singleton.mp hp
      cases h.symm.trans hfile
    · obtain rfl := List.mem_singleton.mp hq
      rw [hbelow] at hu
      have hname := (hproper.of_get? hu).1 name (by simp)
      exact ⟨_, u, hu, hleads, hdir, rfl, (Path.isUnitFile_below htext hname).trans hunit⟩

theorem mem_listing_iff (hd : d.root.Proper) (h : (d.find? p).isSome) :
    f ∈ d.listing p ↔ d.Lists [p] f := by
  rw [listing]
  split
  · rename_i entries hdir
    exact mem_entryFiles_iff_lists hd hdir
  · rename_i hnodir
    match hfind : d.find? p with
    | some (.dir entries) => exact absurd hfind (hnodir entries)
    | none => rw [hfind] at h; cases h
    | some (.file bytes) =>
      constructor
      · intro hf
        obtain rfl := List.mem_singleton.mp hf
        exact .given (List.mem_singleton_self f) hfind
      · rintro (⟨hp, -⟩ | @⟨q, names, name, u, hq, hu, -, -, -⟩)
        · exact hp
        · -- below a file lies nothing
          obtain rfl := List.mem_singleton.mp hq
          rw [below?, hfind] at hu
          cases names <;> cases hu

theorem lists_iff_exists : d.Lists paths f ↔ ∃ p ∈ paths, d.Lists [p] f := by
  constructor
  · rintro (⟨hp, hfile⟩ | ⟨hp, hbelow, hunit, hleads, hdir⟩)
    · exact ⟨f, hp, .given (List.mem_singleton_self f) hfile⟩
    · exact ⟨_, hp, .below (List.mem_singleton_self _) hbelow hunit hleads hdir⟩
  · rintro ⟨p, hp, ⟨hq, hfile⟩ | ⟨hq, hbelow, hunit, hleads, hdir⟩⟩
    · obtain rfl := List.mem_singleton.mp hq
      exact .given hp hfile
    · obtain rfl := List.mem_singleton.mp hq
      exact .below hp hbelow hunit hleads hdir

/-- What is listed for several paths is what is listed for one of them. -/
theorem mem_flatMap_listing_iff (hd : d.root.Proper) (h : ∀ p ∈ paths, (d.find? p).isSome) :
    f ∈ paths.flatMap d.listing ↔ d.Lists paths f := by
  rw [List.mem_flatMap, lists_iff_exists]
  constructor
  · rintro ⟨p, hp, hf⟩
    exact ⟨p, hp, (mem_listing_iff hd (h p hp)).mp hf⟩
  · rintro ⟨p, hp, hf⟩
    exact ⟨p, hp, (mem_listing_iff hd (h p hp)).mpr hf⟩

/-! ### Listing in another order -/

/-- What is listed is known from where directories and files lie, and from the paths. -/
theorem Lists.mono (h : ∀ p names,
    (d.below? p names).map FileTree.isDir = (d'.below? p names).map FileTree.isDir)
    (hpaths : ∀ p ∈ paths, p ∈ paths') (hf : d.Lists paths f) : d'.Lists paths' f := by
  have hfound : ∀ {p names u}, d.below? p names = some u →
      ∃ u', d'.below? p names = some u' ∧ u'.isDir = u.isDir := by
    intro p names u hu
    have := h p names
    rw [hu, Option.map_some] at this
    exact Option.map_eq_some_iff.mp this.symm
  obtain ⟨hp, hfile⟩ | ⟨hp, hbelow, hunit, hleads, hdir⟩ := hf
  · obtain ⟨u', hu', hkind⟩ := hfound ((below?_nil f).trans hfile)
    cases u' with
    | dir entries => cases hkind
    | file bytes => exact .given (hpaths f hp) ((below?_nil f).symm.trans hu')
  · obtain ⟨u', hu', hkind⟩ := hfound hbelow
    exact .below (hpaths _ hp) hu' hunit hleads fun h => hdir (hkind.symm.trans h)

/-- Where every path exists, all of them are listed and then sorted. -/
theorem collectUnits_eq (h : ∀ p ∈ paths, (d.find? p).isSome) :
    collectUnits d paths = .ok (Path.sorted (paths.flatMap d.listing)) := by
  have hfiles : ∀ p ∈ paths, filesAt d p = .ok (d.listing p) := by
    intro p hp
    rw [filesAt, listing]
    obtain ⟨t, ht⟩ := Option.isSome_iff_exists.mp (h p hp)
    rw [ht]
    cases t <;> rfl
  have hall : paths.mapM (filesAt d) = .ok (paths.map d.listing) := by
    clear h
    induction paths with
    | nil => rfl
    | cons p rest ih =>
      obtain ⟨hp, hrest⟩ := List.forall_mem_cons.mp hfiles
      rw [List.mapM_cons, hp, ih hrest]
      rfl
  rw [collectUnits, hall, List.flatMap]
  rfl

end Disk

/-- Collecting under paths that lead somewhere gives paths in strict order, just what is listed
under the paths. If no directory below them has a path that is too long, that is every file that
was given and every unit file at any depth below a directory that was given. The meanings of
the collected paths depend neither on the order in which directories are listed nor on how
often and in which order the paths are given. -/
theorem collectUnits_exact (d : Disk) (hd : d.root.Proper) (paths : List Path)
    (hpaths : ∀ p ∈ paths, (d.find? p).isSome) :
    ∃ files, collectUnits d paths = .ok files ∧ files.Pairwise Path.Before ∧
      (∀ f ∈ files, d.Lists paths f) ∧ (∀ f, d.Lists paths f → ∃ g ∈ files, g.sameAs f) ∧
      (d.Reaches paths →
        (∀ f ∈ files, d.Finds paths f) ∧ ∀ f, d.Finds paths f → ∃ g ∈ files, g.sameAs f) ∧
      ∀ d' paths', d.Relisted d' → (∀ p, p ∈ paths' ↔ p ∈ paths) →
        ∃ files', collectUnits d' paths' = .ok files' ∧
          files'.map Path.components = files.map Path.components := by
  have honly : ∀ f ∈ Path.sorted (paths.flatMap d.listing), d.Lists paths f := fun f hf =>
    (Disk.mem_flatMap_listing_iff hd hpaths).mp (Path.mem_of_mem_sorted hf)
  have hall : ∀ f, d.Lists paths f → ∃ g ∈ Path.sorted (paths.flatMap d.listing),
      g.components = f.components := fun f hf =>
    Path.exists_mem_sorted ((Disk.mem_flatMap_listing_iff hd hpaths).mpr hf)
  refine ⟨_, Disk.collectUnits_eq hpaths, Path.pairwise_sorted _, honly, ?_, ?_, ?_⟩
  · intro f hf
    obtain ⟨g, hg, hsame⟩ := hall f hf
    exact ⟨g, hg, Path.sameAs_iff.mpr hsame⟩
  · intro hreaches
    refine ⟨fun f hf => (honly f hf).finds hd hreaches, fun f hf => ?_⟩
    obtain ⟨l, hl, hmeaning⟩ := hf.exists_lists hd hreaches
    obtain ⟨g, hg, hsame⟩ := hall l hl
    exact ⟨g, hg, Path.sameAs_iff.mpr (hsame.trans hmeaning)⟩
  · intro d' paths' hrelisted hmem
    have hd' := hrelisted.root.proper hd
    have hbelow := fun p names => hrelisted.below?_eq hd p names
    have hpaths' : ∀ p ∈ paths', (d'.find? p).isSome := by
      intro p hp
      have := congrArg Option.isSome (hbelow p [])
      simp only [Disk.below?_nil, Option.isSome_map] at this
      exact this.symm.trans (hpaths p ((hmem p).mp hp))
    -- on both disks the same is listed, and sorting forgets its order
    refine ⟨_, Disk.collectUnits_eq hpaths', Path.map_components_sorted_eq fun f => ?_⟩
    rw [Disk.mem_flatMap_listing_iff hd' hpaths', Disk.mem_flatMap_listing_iff hd hpaths]
    exact ⟨.mono (fun p names => (hbelow p names).symm) fun p => (hmem p).mp,
      .mono hbelow fun p => (hmem p).mpr⟩

/-! ### Two paths to one directory -/

/-- The entries of a directory with a unit file in it and one in a directory below. -/
def outputEntries : List (String × FileTree) :=
  [("A.class", .file []), ("deep", .dir [("B.class", .file []), ("notes", .file [])])]

/-- The directory in the working directory. -/
def output : Disk where
  root := .dir [("out", .dir outputEntries)]

/-- The same disk with both directories listed the other way around. -/
def outputRelisted : Disk where
  root := .dir [("out", .dir [("deep", .dir [("notes", .file []), ("B.class", .file [])]),
    ("A.class", .file [])])]

/-- The directory, given twice. -/
def outputPaths : List Path := [Path.trailed "out" 0, Path.trailed "out" 1]

/-- The second listing differs in the order of the entries. -/
theorem output_relisted : output.Relisted outputRelisted where
  root := by
    refine .inside [] [] "out" (.trans (.order (.swap _ _ _)) ?_)
    exact .inside [] [("A.class", .file [])] "deep" (.order (.swap _ _ _))
  home := rfl

theorem output_proper : output.root.Proper := by
  have hdeep : (FileTree.dir [("B.class", .file []), ("notes", .file [])]).Proper :=
    .dir (by decide +kernel) (by decide +kernel) (by simp [FileTree.Proper.file])
  have hout : (FileTree.dir outputEntries).Proper :=
    .dir (by decide +kernel) (by decide +kernel)
      (by simp [outputEntries, FileTree.Proper.file, hdeep])
  exact .singleton (by decide +kernel) hout

theorem find?_of_mem_outputPaths {p : Path} (h : p ∈ outputPaths) :
    output.find? p = some (.dir outputEntries) := by
  have hsize : "out".utf8ByteSize = 3 := by decide +kernel
  obtain rfl | rfl := List.mem_pair.mp h
  all_goals
    refine Disk.find?_trailed (by decide +kernel) (by decide +kernel) (by decide +kernel) ?_ rfl rfl
    rw [hsize, Path.byteLimit]
    omega

/-- Every entry of the tree can be reached from the paths. -/
theorem output_reaches : output.Reaches outputPaths := by
  have hshort : ∀ p ∈ outputPaths, ¬p.isTooLong ∧ ¬(p.below ["deep"]).isTooLong := by
    decide +kernel
  intro p hp names u hu hdir
  rw [Disk.below?, find?_of_mem_outputPaths hp] at hu
  -- there is only one directory below the one that is given
  have hnames : names = [] ∨ names = ["deep"] := by
    cases names with
    | nil => exact .inl rfl
    | cons name rest =>
      obtain ⟨v, hv, hget⟩ := (FileTree.get?_dir_cons (by decide +kernel)).mp hu
      simp only [outputEntries, List.mem_cons, List.not_mem_nil, Prod.mk.injEq, or_false] at hv
      obtain ⟨rfl, rfl⟩ | ⟨rfl, rfl⟩ := hv
      · cases rest <;> cases hget
        cases hdir
      · cases rest with
        | nil => exact .inr rfl
        | cons second rest =>
          obtain ⟨w, hw, hget⟩ := (FileTree.get?_dir_cons (by decide +kernel)).mp hget
          simp only [List.mem_cons, List.not_mem_nil, Prod.mk.injEq, or_false] at hw
          obtain ⟨-, rfl⟩ | ⟨-, rfl⟩ := hw
          all_goals
            cases rest <;> cases hget
            cases hdir
  obtain rfl | rfl := hnames
  · exact (hshort p hp).1
  · exact (hshort p hp).2

/-- The unit in the inner directory is found, however often the paths are given and in whatever
order. -/
theorem collectUnits_exact_output :
    output.root.Proper ∧ (∀ p ∈ outputPaths, (output.find? p).isSome) ∧ output.Reaches outputPaths ∧
      ∃ files, collectUnits output outputPaths = .ok files ∧
        (∀ f ∈ files, output.Finds outputPaths f) ∧
        (∃ f ∈ files, f.sameAs ((Path.trailed "out" 1).below ["deep", "B.class"])) ∧
        ∃ files', collectUnits outputRelisted (outputPaths.reverse ++ outputPaths) = .ok files' ∧
          files'.map Path.components = files.map Path.components := by
  have hpaths : ∀ p ∈ outputPaths, (output.find? p).isSome := by
    intro p hp
    rw [find?_of_mem_outputPaths hp]
    rfl
  obtain ⟨files, hcollect, -, -, -, hexact, horder⟩ :=
    collectUnits_exact output output_proper outputPaths hpaths
  obtain ⟨honly, hall⟩ := hexact output_reaches
  refine ⟨output_proper, hpaths, output_reaches, files, hcollect, honly, ?_, ?_⟩
  · have hp : Path.trailed "out" 1 ∈ outputPaths := List.mem_pair.mpr (.inr rfl)
    have hfile : output.below? (Path.trailed "out" 1) (["deep"] ++ ["B.class"]) =
        some (.file []) := by
      rw [Disk.below?, find?_of_mem_outputPaths hp]
      rfl
    exact hall _ (.below hp hfile (by decide +kernel)
      (Disk.components_of_below? output_proper hfile))
  · exact horder outputRelisted _ output_relisted fun p => by simp

/-! ### A directory that is passed over -/

/-- A unit file in a directory in a directory. -/
def nested : Disk where
  root := .dir [("d", .dir [("s", .dir [("x.class", .file [])])])]

/-- The outer directory can be given in a way in which nothing is found below, since the path of
the inner one is too long. -/
theorem not_collectUnits_exact_tooLong :
    nested.root.Proper ∧ (nested.find? (Path.trailed "d" 4094)).isSome ∧
      nested.Finds [Path.trailed "d" 4094] ((Path.trailed "d" 4094).below ["s", "x.class"]) ∧
      collectUnits nested [Path.trailed "d" 4094] = .ok [] := by
  have hproper : nested.root.Proper := by
    refine .singleton (by decide +kernel) (.singleton (by decide +kernel) ?_)
    exact .singleton (by decide +kernel) (.file [])
  have hfind : nested.find? (Path.trailed "d" 4094) =
      some (.dir [("s", .dir [("x.class", .file [])])]) :=
    Disk.find?_trailed (by decide +kernel) (by decide +kernel) (by decide +kernel)
      (by decide +kernel) rfl rfl
  have hsome : (nested.find? (Path.trailed "d" 4094)).isSome := by
    rw [hfind]
    rfl
  refine ⟨hproper, hsome, ?_, ?_⟩
  · have hfile : nested.below? (Path.trailed "d" 4094) (["s"] ++ ["x.class"]) =
        some (.file []) := by
      rw [Disk.below?, hfind]
      rfl
    exact .below (List.mem_singleton_self _) hfile (by decide +kernel)
      (Disk.components_of_below? hproper hfile)
  · have hlong : ((Path.trailed "d" 4094).join "s").isTooLong := by
      have hsize := Path.utf8ByteSize_le_join (Path.trailed "d" 4094) "s"
      have hone : "d".utf8ByteSize = 1 ∧ "s".utf8ByteSize = 1 := by decide +kernel
      rw [Path.utf8ByteSize_trailed, hone.1, hone.2] at hsize
      exact decide_eq_true hsize
    have hname : isUnitFile ((Path.trailed "d" 4094).join "s") = false := by
      rw [Path.isUnitFile_join (Disk.text_of_find? hfind).1 (by decide +kernel)]
      decide +kernel
    have hlisting : nested.listing (Path.trailed "d" 4094) = [] := by
      rw [Disk.listing, hfind]
      simp [entryFiles, FileTree.unitFiles, hlong, hname]
    rw [Disk.collectUnits_eq (List.forall_mem_singleton.mpr hsome), List.flatMap_singleton,
      hlisting, Path.sorted_nil]

end CompileWatch
