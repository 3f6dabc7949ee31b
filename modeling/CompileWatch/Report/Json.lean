import CompileWatch.Text.Quoted

/-!
# JSON documents

The values of an exported document and their written form: two blanks of indentation for
each level, one item or member on each line, and nothing between the brackets of an
empty collection.

- `Json`: values; an object keeps its members in order.
- `Json.text`: the written form.
-/

namespace CompileWatch

/-- A JSON value. -/
inductive Json where
  | null
  | bool (b : Bool)
  | number (n : Int)
  | string (s : String)
  | array (items : List Json)
  | object (members : List (String × Json))

namespace Json

instance : Inhabited Json := ⟨.null⟩

/-- A value that may be absent. -/
def orNull (f : α → Json) : Option α → Json
  | some a => f a
  | none => .null

/-- A natural number. -/
def nat (n : Nat) : Json := .number n

/-- A character inside a written string. -/
def escaped (c : Char) : String :=
  if c = '"' then "\\\""
  else if c = '\\' then "\\\\"
  else if c = '\x08' then "\\b"
  else if c = '\x0c' then "\\f"
  else if c = '\n' then "\\n"
  else if c = '\r' then "\\r"
  else if c = '\t' then "\\t"
  else if c.toNat < 0x20 then "\\u" ++ hexPadded 4 c.toNat
  else c.toString

/-- A written string. -/
def stringText (s : String) : String := "\"" ++ String.join (s.toList.map escaped) ++ "\""

/-- The start of a line at a level. -/
def newline (level : Nat) : String := "\n" ++ String.join (List.replicate level "  ")

/-- Written parts between brackets, one on each line. -/
def bracketed (left right : String) (level : Nat) (parts : List String) : String :=
  match parts with
  | [] => left ++ right
  | _ => left ++ newline (level + 1) ++ ("," ++ newline (level + 1)).intercalate parts ++
      newline level ++ right

mutual

/-- The written form at a level. -/
def textAt (level : Nat) : Json → String
  | .null => "null"
  | .bool b => if b then "true" else "false"
  | .number n => toString n
  | .string s => stringText s
  | .array items => bracketed "[" "]" level (itemTexts (level + 1) items)
  | .object members => bracketed "\x7b" "\x7d" level (memberTexts (level + 1) members)

/-- The written items of an array. -/
def itemTexts (level : Nat) : List Json → List String
  | [] => []
  | item :: rest => textAt level item :: itemTexts level rest

/-- The written members of an object. -/
def memberTexts (level : Nat) : List (String × Json) → List String
  | [] => []
  | (name, value) :: rest =>
    (stringText name ++ ": " ++ textAt level value) :: memberTexts level rest

end

/-- The written form of a document. -/
def text (j : Json) : String := j.textAt 0

end Json

end CompileWatch
