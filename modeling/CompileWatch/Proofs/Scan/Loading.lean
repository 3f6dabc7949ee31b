import CompileWatch.Proofs.Capture.Recorded
import CompileWatch.Proofs.ClassFile.Needed
import CompileWatch.Proofs.ClassFile.Visited
import CompileWatch.Scan.Units
import CompileWatch.Watching.Instrumentation

/-!
# Units that are loaded and units that are defined

A unit on disk is recorded under the name that it gives itself, and a unit that a host defines
under the name that the host gives it. Where the two are the same, so is what a session captures,
even if nothing but the header of the unit can be read.

- `UnitFile`: a file on disk with the header of a unit.
- `Session.captureUnit_congr`: the spelling of a name is of no account.
- `loadUnits_agrees`: units that are loaded are captured like those that are defined, and of
  those with one name the last one is recorded.
-/

namespace CompileWatch

/-! ### Spellings of a name -/

/-- A dotted name has no slash left. -/
theorem dottedName_dottedName (name : String) : dottedName (dottedName name) = dottedName name := by
  refine String.ext ?_
  simp only [dottedName, replaceChar, String.toList_map, List.map_map]
  refine List.map_congr_left fun c _ => ?_
  by_cases hc : c = '/' <;> simp [hc]

/-- Only an empty name is dotted to an empty one. -/
theorem dottedName_eq_empty_iff {name : String} : dottedName name = "" ↔ name = "" := by
  rw [← String.toList_inj, ← String.toList_inj, dottedName, replaceChar, String.toList_map]
  exact List.map_eq_nil_iff

/-- A unit is captured alike under either spelling of its name. -/
theorem Session.captureUnit_congr (s : Session) {name name' : String}
    (h : dottedName name = dottedName name') (bytes : Bytes) :
    (s.captureUnit name bytes).value = (s.captureUnit name' bytes).value := by
  have hempty : name.isEmpty = name'.isEmpty := by
    rw [Bool.eq_iff_iff, String.isEmpty_iff, String.isEmpty_iff, ← dottedName_eq_empty_iff, h,
      dottedName_eq_empty_iff]
  have haccepts : s.units.accepts name = s.units.accepts name' := by
    rw [UnitBuffer.accepts, hempty]
    rfl
  rw [value_captureUnit, value_captureUnit, noticeOf?, noticeOf?, haccepts, h, UnitBuffer.capture,
    UnitBuffer.capture, haccepts, h]

/-! ### Files of units -/

/-- A file on disk that has, in front, the header of a unit with a name. -/
structure UnitFile (d : Disk) where
  path : Path
  bytes : Bytes
  header : Header
  read_path : d.read path = .ok bytes
  header_mem : .header header ∈ (ClassFile.visit bytes).events
  /-- The name that the unit is known by is not empty. -/
  name_ne_empty : dottedName header.thisClass ≠ ""

namespace UnitFile

variable {d : Disk}

/-- The name that the unit of a file is known by. -/
def name (f : UnitFile d) : String := dottedName f.header.thisClass

/-- The unit of a file, as it is shown to a buffer. -/
def unit (f : UnitFile d) : String × Bytes := (f.name, f.bytes)

theorem dottedName_name (f : UnitFile d) : dottedName f.name = f.name := dottedName_dottedName _

/-- A unit is loaded under the name that it gives itself. -/
theorem value_loadUnit (f : UnitFile d) (s : Session) :
    (loadUnit d f.path s).value = .ok (s.captureUnit f.name f.bytes).value := by
  have hname : (unitNameFor f.path f.bytes).value = f.name := by
    rw [unitNameFor, ClassFile.ownName_of_header_mem f.header_mem]
    rfl
  rw [loadUnit, f.read_path]
  show Except.ok (s.captureUnit (unitNameFor f.path f.bytes).value f.bytes).value = _
  rw [hname]

/-- Files of units are captured one after the other. -/
theorem value_loadUnits (files : List (UnitFile d)) (s : Session) :
    (loadUnits d (files.map path) s).value =
      (none, files.foldl (fun s f => (s.captureUnit f.name f.bytes).value) s) := by
  induction files generalizing s with
  | nil => rfl
  | cons f rest ih =>
    rw [List.map_cons, loadUnits, Logged.value_bind, f.value_loadUnit]
    exact ih _

/-- What a buffer holds after units were captured one after the other. -/
theorem units_foldl_captureUnit (files : List (UnitFile d)) (s : Session) :
    (files.foldl (fun s f => (s.captureUnit f.name f.bytes).value) s).units =
      (files.map unit).foldl UnitBuffer.take s.units := by
  induction files generalizing s with
  | nil => rfl
  | cons f rest ih =>
    rw [List.foldl_cons, ih, Session.value_captureUnit]
    rfl

end UnitFile

/-! ### Loading and defining -/

/-- The name that a unit gives itself is that of the header that is reported of it. Loading it
leaves a session as it is when the unit is defined, whatever the rest of its bytes is. So after
loading any files of units, the record of a name is that of the last file with the name. -/
theorem loadUnits_agrees :
    (∀ bytes header, .header header ∈ (ClassFile.visit bytes).events →
      ClassFile.ownName bytes = .ok (dottedName header.thisClass)) ∧
    ∀ (d : Disk) (s : Session), s.units.enabled →
      (∀ (f : UnitFile d) (name : String), dottedName name = f.name →
        ∀ (o : Instrumentation) (state : CaptureState), state.session = s →
          (loadUnits d [f.path] s).value = (none, (o.unit name f.bytes state).session)) ∧
      ∀ files : List (UnitFile d), ∃ s',
        (loadUnits d (files.map UnitFile.path) s).value = (none, s') ∧
          ∀ name, s'.units.units.get? name =
            ((files.filter (·.name = name)).getLast?.map (.ofUnit ·.unit)).or
              (s.units.units.get? name) := by
  refine ⟨fun bytes header => ClassFile.ownName_of_header_mem, fun d s hs => ⟨?_, fun files => ?_⟩⟩
  · rintro f name hname o state rfl
    have hunit : (o.unit name f.bytes state).session =
        (state.session.captureUnit name f.bytes).value := by
      rw [Instrumentation.unit, if_neg (by simp [hs])]
      rfl
    -- the host's spelling of the name and the file's become one in the record
    have hspelled : dottedName name = dottedName f.name := hname.trans f.dottedName_name.symm
    rw [hunit, state.session.captureUnit_congr hspelled]
    exact UnitFile.value_loadUnits [f] state.session
  · refine ⟨_, UnitFile.value_loadUnits files s, fun name => ?_⟩
    have hnames : ∀ u ∈ files.map UnitFile.unit, u.1 ≠ "" := by
      intro u hu
      obtain ⟨f, -, rfl⟩ := List.mem_map.mp hu
      exact f.name_ne_empty
    have hfilter : (files.map UnitFile.unit).filter (dottedName ·.1 = name) =
        (files.filter (·.name = name)).map UnitFile.unit := by
      rw [List.filter_map]
      congr 2
      funext f
      exact congrArg (fun n => decide (n = name)) f.dottedName_name
    rw [UnitFile.units_foldl_captureUnit, UnitBuffer.get?_foldl_take_eq hs hnames, hfilter,
      List.getLast?_map, Option.map_map]
    rfl

/-! ### Two files of one unit -/

/-- Two files of one unit, of which the second ends with the header. -/
def twoFiles : Disk where
  root := .dir [("a", .file ClassFile.smallUnit), ("b", .file (ClassFile.smallUnit.take 51))]

/-- A path of one segment leads to a file in the working directory. -/
theorem Disk.read_of_step {d : Disk} {p : Path} {name : String} {place : List String} {bytes : Bytes}
    (hcheck : checkText p = .ok ()) (hsegments : p.segments = [name])
    (hstep : d.step (d.start p) name = .ok place)
    (hget : d.root.get? place = some (.file bytes)) : d.read p = .ok bytes := by
  have hlocate : d.locate p = .ok place := by
    rw [locate, hcheck, hsegments]
    show d.step (d.start p) name >>= (fun place => List.foldlM d.step place []) = _
    rw [hstep]
    rfl
  simp only [read, hlocate, hget, bind, Except.bind]

/-- Each of the files is read from the working directory. -/
theorem read_twoFiles {name : String} {bytes : Bytes}
    (h : (name, bytes) ∈ [("a", ClassFile.smallUnit), ("b", ClassFile.smallUnit.take 51)]) :
    twoFiles.read ⟨name⟩ = .ok bytes := by
  obtain ⟨hcheck, hsegments, hstep, hget⟩ : Disk.checkText ⟨name⟩ = .ok () ∧
      Path.segments ⟨name⟩ = [name] ∧ twoFiles.step (twoFiles.start ⟨name⟩) name = .ok [name] ∧
      twoFiles.root.get? [name] = some (.file bytes) := by
    simp only [List.mem_cons, Prod.mk.injEq, List.not_mem_nil, or_false] at h
    obtain ⟨rfl, rfl⟩ | ⟨rfl, rfl⟩ := h
    all_goals
      refine ⟨?_, ?_, by decide +kernel, rfl⟩
      · rw [Disk.checkText, if_neg (by decide +kernel), if_neg (by simp), if_neg (by decide +kernel)]
      · -- one step for the character, and one that finds the end
        rw [Path.segments, String.splitOn, if_neg (by decide +kernel), String.splitOnAux,
          if_neg (by decide +kernel), if_neg (by decide +kernel), String.splitOnAux,
          if_pos (by decide +kernel)]
        decide +kernel
  exact Disk.read_of_step hcheck hsegments hstep hget

/-- What the unit says about itself. -/
def smallHeader : Header where
  major := 0x34
  minor := 0
  access := 1
  thisClass := "app/Demo"
  superClass := none
  interfaces := []

/-- The first of the files. -/
def wholeFile : UnitFile twoFiles where
  path := ⟨"a"⟩
  bytes := ClassFile.smallUnit
  header := smallHeader
  read_path := read_twoFiles (by simp)
  header_mem := by decide +kernel
  name_ne_empty := by decide +kernel

/-- The second of the files. -/
def cutFile : UnitFile twoFiles where
  path := ⟨"b"⟩
  bytes := ClassFile.smallUnit.take 51
  header := smallHeader
  read_path := read_twoFiles (by simp)
  header_mem := by decide +kernel
  name_ne_empty := by decide +kernel

/-- The unit calls itself by slashes, a host may call it by dots or by slashes, and its record
has dots. -/
theorem loadUnits_agrees_twoFiles :
    ClassFile.ownName cutFile.bytes = .ok "app.Demo" ∧ ({} : Session).units.enabled ∧
      (∀ name ∈ ["app/Demo", "app.Demo"], (loadUnits twoFiles [cutFile.path] {}).value =
        (none, (Instrumentation.unit {} name cutFile.bytes {}).session)) ∧
      ∃ s', (loadUnits twoFiles [wholeFile.path, cutFile.path] {}).value = (none, s') ∧
        s'.units.units.get? "app.Demo" = some (.ofUnit cutFile.unit) ∧
          s'.units.units.get? "app/Demo" = none := by
  have hname : dottedName smallHeader.thisClass = "app.Demo" := by decide +kernel
  have hspellings : ∀ name ∈ ["app/Demo", "app.Demo"], dottedName name = "app.Demo" := by
    decide +kernel
  have hdotted : ∀ f ∈ [wholeFile, cutFile], f.name = "app.Demo" := by
    intro f hf
    rcases List.mem_pair.mp hf with rfl | rfl <;> exact hname
  obtain ⟨hown, hload⟩ := loadUnits_agrees
  obtain ⟨hone, hall⟩ := hload twoFiles {} rfl
  refine ⟨?_, rfl, fun name hspelled => ?_, ?_⟩
  · rw [hown cutFile.bytes smallHeader cutFile.header_mem, hname]
  · exact hone cutFile name ((hspellings name hspelled).trans hname.symm) {} {} rfl
  · obtain ⟨s', hloaded, hget⟩ := hall [wholeFile, cutFile]
    refine ⟨s', hloaded, (hget "app.Demo").trans ?_, (hget "app/Demo").trans ?_⟩
    · have hboth : [wholeFile, cutFile].filter (·.name = "app.Demo") = [wholeFile, cutFile] :=
        List.filter_eq_self.mpr fun f hf => decide_eq_true (hdotted f hf)
      rw [hboth]
      rfl
    · have hnone : [wholeFile, cutFile].filter (·.name = "app/Demo") = [] :=
        List.filter_eq_nil_iff.mpr fun f hf => by
          rw [hdotted f hf]
          decide +kernel
      rw [hnone]
      rfl

end CompileWatch
