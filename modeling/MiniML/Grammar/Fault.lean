import MiniML.Source.Span
/-!
# Syntax errors

A fault says what went wrong and, where that is known, what was expected,
what was found instead, and where.
-/
namespace MiniML

/-- What went wrong. -/
inductive FaultCause
  | unexpectedToken | unexpectedEnd | integerRange | emptyChar
  | unknownType (name : String)
  | note (text : String)
deriving DecidableEq, Repr, Inhabited

/-- The text of a cause. -/
def FaultCause.text : FaultCause → String
  | .unexpectedToken => "unexpected token"
  | .unexpectedEnd => "unexpected end of input"
  | .integerRange => "integer literal out of range"
  | .emptyChar => "empty char literal"
  | .unknownType name => "unknown type `" ++ name ++ "`"
  | .note text => text

/-- A syntax error. -/
structure Fault where
  cause : FaultCause
  expected : List String := []
  found : Option String := none
  span : Option Span := none
deriving DecidableEq, Repr, Inhabited

namespace Fault

/-- What was expected and found, as it follows the cause. -/
def details (f : Fault) : String :=
  let wanted := "expected " ++ " or ".intercalate f.expected
  match f.expected.isEmpty, f.found with
  | true, none => ""
  | true, some found => ": found " ++ found
  | false, none => ": " ++ wanted
  | false, some found => ": " ++ wanted ++ ", found " ++ found

/-- The text of a fault. -/
def message (f : Fault) : String := f.cause.text ++ f.details

/-- The fault with one more thing expected. -/
def expecting (f : Fault) (what : String) : Fault := { f with expected := f.expected ++ [what] }

end Fault
end MiniML
