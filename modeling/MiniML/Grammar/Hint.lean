import MiniML.Grammar.Parser
import MiniML.Hint
/-!
# The grammar of type annotations

    hint    := product ("->" hint)?
    product := item ("*" item)*
    item    := "(" hint ")" | primitive | variable | "_"
-/
namespace MiniML.Grammar
open MiniML.Parser

/-- The type of a token. -/
def hintName? : Lexeme → Option (Except FaultCause Hint)
  | .word .ident s =>
    some (match Prim.ofName? s with | some p => .ok (.prim p) | none => .error (.unknownType s))
  | .word .typeVar s => some (.ok (.var s))
  | .fixed .underscore => some (.ok .wildcard)
  | _ => none

/-- A type without arrows and stars outside parentheses. -/
def hintItem (self : Parser Hint) : Parser Hint :=
  either (do
    let _ ← token .lparen
    let h ← self
    let _ ← token .rparen
    return h)
  (take "type" fun t => hintName? t.lexeme)

/-- A type without arrows outside parentheses; a single item stands for
itself. -/
def hintProduct (self : Parser Hint) : Parser Hint := do
  match ← sepBy1 (hintItem self) (token .star) with
  | [h] => return h
  | hs => return .tuple hs

/-- A type, arrows included; they group to the right. -/
def hintRule (self : Unit → Parser Hint) (_ : Unit) : Parser Hint := do
  let h ← hintProduct (self ())
  match ← optional (token .arrow *> self ()) with
  | some r => return .fn h r
  | none => return h

/-- A type annotation. -/
def hint : Parser Hint := recursive hintRule ()

/-- The annotation of a function's result, where an arrow starts the body. -/
def resultHint : Parser Hint := hintProduct hint

end MiniML.Grammar
