import MiniML.Grammar.Atom
import MiniML.Grammar.Hint
/-!
# The grammar of patterns and parameters

    pattern := "(" ")" | constant | "(" pattern ("," pattern)* ")" | "_" | identifier
    param   := "(" pattern ":" hint ")" | pattern
-/
namespace MiniML.Grammar
open MiniML.Parser

/-- A constant as a pattern. -/
def literalPattern : Parser Pattern := do
  let (value, span) ← either unit constant
  return .literal value { span }

/-- Patterns in parentheses; a single one stands for itself. -/
def tuplePattern (self : Parser Pattern) : Parser Pattern := do
  let start ← token .lparen
  let items ← sepBy1 self (token .comma)
  let stop ← token .rparen
  match items with
  | [p] => return p
  | ps => return .tuple ps { span := start.span.merge stop.span }

/-- The alternatives of a pattern, in the order in which they are tried. -/
def patternRule (self : Unit → Parser Pattern) (_ : Unit) : Parser Pattern :=
  either (either (either literalPattern (tuplePattern (self ())))
    (do return .wildcard { span := (← token .underscore).span }))
    (do return .ident (← ident))

/-- A pattern. -/
def pattern : Parser Pattern := recursive patternRule ()

/-- A parameter with an annotation. -/
def annotatedParam : Parser (Pattern × Option Hint) := do
  let _ ← token .lparen
  let p ← pattern
  let h ← token .colon *> hint
  let _ ← token .rparen
  return (p, some h)

/-- A parameter of a function. -/
def param : Parser (Pattern × Option Hint) :=
  either annotatedParam (do return (← pattern, none))

end MiniML.Grammar
