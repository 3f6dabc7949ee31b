/-!
# What can be wrong with a source text
-/

namespace CompileWatch

/-- The causes for which reading stops, with the line where it stopped. -/
inductive ReadError where
  /-- The source ended inside a form. -/
  | unexpectedEnd (line : Nat)
  /-- A closing delimiter without its opening one. -/
  | unbalanced (delimiter : Char) (line : Nat)
  /-- A token that is no form. -/
  | invalidToken (token : String) (line : Nat)
  /-- Metadata that is no keyword or map, or has nothing to attach to. -/
  | danglingMetadata (line : Nat)
deriving DecidableEq, Repr, Inhabited

/-- The text of a reading error. -/
def ReadError.message : ReadError → String
  | .unexpectedEnd line => "Unexpected end of input at line " ++ toString line
  | .unbalanced c line => "Unbalanced '" ++ c.toString ++ "' at line " ++ toString line
  | .invalidToken token line => "Invalid token '" ++ token ++ "' at line " ++ toString line
  | .danglingMetadata line =>
    "Metadata must precede a symbol or collection at line " ++ toString line

end CompileWatch
