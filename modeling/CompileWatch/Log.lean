/-!
# Log records

What the tool tells its operator, apart from its results. A computation that logs
returns its records with its value.
-/

namespace CompileWatch

/-- How much a record matters. -/
inductive Level where
  | debug
  | info
  | warn
deriving DecidableEq, Repr, Inhabited

/-- The name of a level. -/
def Level.text : Level → String
  | .debug => "DEBUG"
  | .info => "INFO"
  | .warn => "WARN"

/-- One record. -/
structure LogRecord where
  level : Level
  text : String
deriving DecidableEq, Repr, Inhabited

/-- A value with the records that were logged on the way to it, in order. -/
structure Logged (α : Type) where
  value : α
  records : List LogRecord := []

namespace Logged

instance : Monad Logged where
  pure a := ⟨a, []⟩
  bind x f := let y := f x.value; ⟨y.value, x.records ++ y.records⟩

/-- Log one record. -/
def note (level : Level) (text : String) : Logged Unit := ⟨(), [⟨level, text⟩]⟩

@[simp] theorem value_pure (a : α) : (pure a : Logged α).value = a := rfl

/-- A computation goes on with the value of the one before it. -/
@[simp] theorem value_bind (x : Logged α) (f : α → Logged β) :
    (x >>= f).value = (f x.value).value := rfl

/-- What is logged later comes behind what was logged before. -/
@[simp] theorem records_bind (x : Logged α) (f : α → Logged β) :
    (x >>= f).records = x.records ++ (f x.value).records := rfl

end Logged

end CompileWatch
