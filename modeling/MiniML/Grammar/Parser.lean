import MiniML.Grammar.Cursor
/-!
# Parsers and their combinators

A parser moves a cursor and yields a value, or fails; the cursor survives a
failure, with the faults it has recorded.

Repetition and recursion are bounded by the number of tokens left, which is
no bound for a parser that takes a token each time it succeeds: such a
parser succeeds at most once for each token.
-/
namespace MiniML

/-- A parser of values of a type. -/
abbrev Parser := EStateM Fault Cursor

namespace Parser

/-- Fail with a fault, and record it. -/
def raise {α : Type} (f : Fault) : Parser α := fun c => .error f (c.record f)

/-- Take the next token if it can be read: `read` tells that a token is not
the expected one, or what is wrong with it, or its value. -/
def take {α : Type} (expected : String) (read : Token → Option (Except FaultCause α)) :
    Parser α := fun c =>
  match c.peek with
  | none =>
    raise { cause := .unexpectedEnd, expected := [expected], span := some c.lastSpan } c
  | some t =>
    match read t with
    | some (.ok a) => .ok a c.advance
    | some (.error cause) => raise { cause, span := some t.span } c
    | none =>
      raise { cause := .unexpectedToken, expected := [expected], found := some t.describe,
              span := some t.span } c

/-- Take a fixed token. -/
def token (f : Fixed) : Parser Token :=
  take (Lexeme.fixed f).describe fun t => if t.lexeme = .fixed f then some (.ok t) else none

/-- The next token, which stays. -/
def peek : Parser (Option Token) := fun c => .ok c.peek c

/-- Whether the next token is this fixed one. -/
def nextIs (f : Fixed) : Parser Bool := fun c => .ok (c.nextIs f) c

/-- Go behind the next token. -/
def skip : Parser Unit := fun c => .ok () c.advance

/-- The first parser, or where it fails the second one from the same place. -/
def either {α : Type} (p q : Parser α) : Parser α := fun c =>
  match p c with
  | .ok a c' => .ok a c'
  | .error _ c' => q (c'.restore c.index)

/-- A parser whose failure says that `name` was expected. -/
def label {α : Type} (name : String) (p : Parser α) : Parser α := fun c =>
  match p c with
  | .ok a c' => .ok a c'
  | .error f c' => raise { f with expected := [name] } c'

/-- A value, or none from the same place. -/
def optional {α : Type} (p : Parser α) : Parser (Option α) := fun c =>
  match p c with
  | .ok a c' => .ok (some a) c'
  | .error _ c' => .ok none (c'.restore c.index)

/-- As many values as there are, at most `n`. -/
def manyUpTo {α : Type} (p : Parser α) : Nat → Parser (List α)
  | 0 => pure []
  | n + 1 => do
    match ← optional p with
    | none => pure []
    | some a => return a :: (← manyUpTo p n)

/-- As many values as there are. -/
def many {α : Type} (p : Parser α) : Parser (List α) := fun c =>
  manyUpTo p (c.remaining + 1) c

/-- As many values as there are, at least one. -/
def many1 {α : Type} (p : Parser α) : Parser (List α) := do
  let a ← p
  return a :: (← many p)

/-- One or more items with separators between them. -/
def sepBy1 {α β : Type} (item : Parser α) (separator : Parser β) : Parser (List α) := do
  let a ← item
  return a :: (← many (separator *> item))

/-- Unroll a recursive rule `n` times. -/
def unroll {ι α : Type} (rule : (ι → Parser α) → ι → Parser α) : Nat → ι → Parser α
  | 0, _ => fun c => .error (c.faultHere .unexpectedToken) c
  | n + 1, i => rule (unroll rule n) i

/-- The parsers of a recursive rule: `rule self i` reads the goal `i` and
may call `self` for further goals after it has taken a token. -/
def recursive {ι α : Type} (rule : (ι → Parser α) → ι → Parser α) (i : ι) : Parser α := fun c =>
  unroll rule (c.remaining + 1) i c

end Parser
end MiniML
