import CompileWatch.Form.Text

/-!
# Malformed calls

The ways in which a call of a built-in shorthand or a special form can be malformed.
-/

namespace CompileWatch

/-- What is wrong with a call. -/
inductive SyntaxError where
  /-- A function definition without a name. -/
  | functionWithoutName
  /-- A function definition whose name is another form. -/
  | functionName (found : Form)
  /-- A function definition without a parameter vector. -/
  | functionParameters (name : Symbol)
  /-- A conditional without a test. -/
  | whenWithoutTest
  /-- A thread without a form to start from. -/
  | threadWithoutStart
  /-- A chain of clauses that ends in a test. -/
  | oddClauses
  /-- A namespace declaration without a name. -/
  | namespaceWithoutName
  /-- A definition whose name is another form. -/
  | definitionName (definition : Form)
  /-- A definition inside another form. -/
  | nestedDefinition
  /-- A function without a parameter vector. -/
  | functionWithoutParameters
  /-- A binding form without its vector. -/
  | letWithoutBindings
  /-- A binding vector that ends in a name. -/
  | oddBindings

/-- The text of a syntax error. -/
def SyntaxError.message : SyntaxError → String
  | .functionWithoutName => "defn requires a name"
  | .functionName found => "defn name must be a symbol, got " ++ found.text
  | .functionParameters name => name.text ++ ": parameter vector expected"
  | .whenWithoutTest => "when requires a test"
  | .threadWithoutStart => "-> requires an initial form"
  | .oddClauses => "cond requires an even number of forms"
  | .namespaceWithoutName => "ns requires a name"
  | .definitionName definition => "def requires a symbol name: " ++ definition.text
  | .nestedDefinition => "def is only supported at top level"
  | .functionWithoutParameters => "fn requires a parameter vector"
  | .letWithoutBindings => "let requires a binding vector"
  | .oddBindings => "let requires an even number of binding forms"

end CompileWatch
