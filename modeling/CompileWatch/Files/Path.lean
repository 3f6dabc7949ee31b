/-!
# Paths

A path is kept as it was written. What it means is the list of its components: repeated
separators and single dots say nothing, except for a dot at the start. Paths are
compared by components, so that what lies in a directory stays together.

- `Path.components`: what a path means.
- `Path.namesFrom`, `stretches`: where it ends and what it passes through, going by its text.
- `Path.precedes`, `sameAs`: order and equality of meanings.
- `Path.stem?`, `extension?`: the two parts of a file name.
-/

namespace CompileWatch

/-- A component of a path. -/
inductive Component where
  /-- The separator that an absolute path starts with. -/
  | root
  /-- The dot that a relative path starts with. -/
  | here
  | parent
  | name (s : String)
deriving DecidableEq, Repr, Inhabited

namespace Component

/-- The place of a component among components of other kinds. -/
def rank : Component → Nat
  | .root => 0
  | .here => 1
  | .parent => 2
  | .name _ => 3

/-- The order of components: by kind, and names by their characters. -/
def order (a b : Component) : Ordering :=
  match a, b with
  | .name s, .name t => compare s t
  | a, b => compare a.rank b.rank

/-- The component of a segment that is no separator and no dot. -/
def ofSegment (s : String) : Component := if s = ".." then .parent else .name s

end Component

/-- A path as it was written. -/
structure Path where
  text : String
deriving DecidableEq, Repr, Inhabited

namespace Path

/-- The texts between the separators. -/
def segments (p : Path) : List String := p.text.splitOn "/"

/-- Whether the path starts at the root. -/
def isAbsolute (p : Path) : Bool := p.text.startsWith "/"

/-- The most bytes that a path can have. -/
def byteLimit : Nat := 4095

/-- The most bytes that a name on a disk can have. -/
def nameByteLimit : Nat := 255

/-- Whether the path has too many bytes to lead anywhere. -/
def isTooLong (p : Path) : Bool := byteLimit < p.text.utf8ByteSize

/-- What the path means. -/
def components (p : Path) : List Component :=
  let start : List Component :=
    if p.isAbsolute then [.root]
    else if p.segments.head? = some "." then [.here]
    else []
  start ++ (p.segments.filter fun s => s != "" && s != ".").map Component.ofSegment

/-- The order of lists of components, from the left. -/
def orderComponents : List Component → List Component → Ordering
  | [], [] => .eq
  | [], _ :: _ => .lt
  | _ :: _, [] => .gt
  | a :: as, b :: bs => (a.order b).then (orderComponents as bs)

/-- Whether one path comes before another or means the same. -/
def precedes (p q : Path) : Bool := (orderComponents p.components q.components).isLE

/-- Whether two paths mean the same. -/
def sameAs (p q : Path) : Bool := p.components = q.components

/-- The names from the root at which the path ends when it is taken in the directory `home`,
going by its text alone. -/
def namesFrom (home : List String) (p : Path) : List String :=
  p.components.foldl (fun names c =>
    match c with
    | .root => []
    | .here => names
    | .parent => names.dropLast
    | .name s => names ++ [s]) home

/-- Every path that a path passes through, and the path itself. -/
def stretches (p : Path) : List Path :=
  (List.range p.segments.length).map fun i => ⟨"/".intercalate (p.segments.take (i + 1))⟩

/-- The path of an entry of a directory. -/
def join (p : Path) (name : String) : Path :=
  if p.text.isEmpty || p.text.endsWith "/" then ⟨p.text ++ name⟩ else ⟨p.text ++ "/" ++ name⟩

/-! ### File names -/

/-- The last component, if it is a name. -/
def fileName? (p : Path) : Option String :=
  match p.components.getLast? with
  | some (.name s) => some s
  | _ => none

/-- A name around its last dot. A dot at the start does not count. -/
def splitName (name : String) : String × Option String :=
  let afterDot := name.toList.reverse.takeWhile (· != '.')
  match name.toList.reverse.drop afterDot.length with
  | _ :: c :: before =>
    (String.ofList (c :: before).reverse, some (String.ofList afterDot.reverse))
  | _ => (name, none)

/-- The file name without what follows its last dot. -/
def stem? (p : Path) : Option String := p.fileName?.map fun name => (splitName name).1

/-- What follows the last dot of the file name. -/
def extension? (p : Path) : Option String := p.fileName?.bind fun name => (splitName name).2

/-! ### Sorting -/

/-- The paths without those that mean the same as the one before. -/
def dropRepeated : List Path → List Path
  | p :: q :: rest => if p.sameAs q then dropRepeated (p :: rest) else p :: dropRepeated (q :: rest)
  | paths => paths

/-- The paths in order, each meaning once; the one given first is kept. -/
def sorted (paths : List Path) : List Path := dropRepeated (paths.mergeSort precedes)

end Path

end CompileWatch
