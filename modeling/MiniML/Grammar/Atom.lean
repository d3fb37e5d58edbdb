import MiniML.Grammar.Parser
import MiniML.Tree
/-!
# Identifiers and constants
-/
namespace MiniML.Grammar
open MiniML.Parser

/-- An identifier. -/
def ident : Parser Name :=
  take "identifier" fun t =>
    match t.lexeme with
    | .word .ident s => some (.ok ⟨s, { span := t.span }⟩)
    | _ => none

/-- The value of a constant's token. -/
def literal? : Lexeme → Option (Except FaultCause Literal)
  | .word .integer s =>
    some (match Literal.ofInteger? s with | some l => .ok l | none => .error .integerRange)
  | .word .float s => some (.ok (Literal.ofFloat s))
  | .word .string s => some (.ok (Literal.ofString s))
  | .word .char s =>
    some (match Literal.ofChar? s with | some l => .ok l | none => .error .emptyChar)
  | .fixed .true_ => some (.ok (.bool true))
  | .fixed .false_ => some (.ok (.bool false))
  | _ => none

/-- A constant of one token. -/
def constant : Parser (Literal × Span) :=
  take "literal" fun t => (literal? t.lexeme).map fun r => r.map fun l => (l, t.span)

/-- The unit value, a pair of parentheses. -/
def unit : Parser (Literal × Span) := do
  let start ← token .lparen
  let stop ← token .rparen
  return (.unit, start.span.merge stop.span)

end MiniML.Grammar
