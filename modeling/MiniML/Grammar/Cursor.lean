import MiniML.Token
import MiniML.Grammar.Fault
/-!
# Reading positions

A cursor stands in a list of tokens. Alternatives are tried one after the
other from the same place, so a cursor also remembers the fault that was
met furthest into the tokens: it is the one worth reporting when all
alternatives have failed. Of two faults at the same place the later one is
kept. A fault that is committed moves to the list of reported ones.
-/
namespace MiniML

/-- A place in a list of tokens, with the faults met so far. -/
structure Cursor where
  tokens : Array Token
  index : Nat := 0
  furthest : Option (Nat × Fault) := none
  faults : List Fault := []
deriving Repr, Inhabited

namespace Cursor

/-- At the first token. -/
def ofTokens (tokens : List Token) : Cursor := { tokens := tokens.toArray }

/-- The token at the cursor. -/
def peek (c : Cursor) : Option Token := c.tokens[c.index]?

/-- Whether a token is left. -/
def hasNext (c : Cursor) : Bool := c.index < c.tokens.size

/-- The number of tokens left. -/
def remaining (c : Cursor) : Nat := c.tokens.size - c.index

/-- Whether the next token is this fixed one. -/
def nextIs (c : Cursor) (f : Fixed) : Bool :=
  match c.peek with
  | some t => t.lexeme = .fixed f
  | none => false

/-- Go behind the next token, if there is one. -/
def advance (c : Cursor) : Cursor := if c.hasNext then { c with index := c.index + 1 } else c

/-- Go to any place. -/
def restore (c : Cursor) (index : Nat) : Cursor := { c with index }

/-- Where the token before the cursor is. -/
def lastSpan (c : Cursor) : Span :=
  match c.index with
  | 0 => .nowhere
  | i + 1 => (c.tokens[i]?.map Token.span).getD .nowhere

/-- Remember a fault met here, unless one was met further on. -/
def record (c : Cursor) (f : Fault) : Cursor :=
  match c.furthest with
  | none => { c with furthest := some (c.index, f) }
  | some (i, _) => if i ≤ c.index then { c with furthest := some (c.index, f) } else c

/-- Forget the furthest fault. -/
def clear (c : Cursor) : Cursor := { c with furthest := none }

/-- Report a fault. -/
def collect (c : Cursor) (f : Fault) : Cursor := { c with faults := c.faults ++ [f] }

/-- Report the furthest fault and forget it. -/
def commit (c : Cursor) : Cursor :=
  match c.furthest with
  | none => c
  | some (_, f) => (c.collect f).clear

/-- Drop the reported faults, after they were taken. -/
def dropFaults (c : Cursor) : Cursor := { c with faults := [] }

/-- A fault about the next token. -/
def faultHere (c : Cursor) (cause : FaultCause) : Fault :=
  match c.peek with
  | some t => { cause, found := some t.describe, span := some t.span }
  | none => { cause, found := some "end of input", span := some c.lastSpan }

/-- Go on while the next token satisfies a test, for at most `n` tokens. -/
def skipWhile (p : Token → Bool) : Nat → Cursor → Cursor
  | 0, c => c
  | n + 1, c =>
    match c.peek with
    | some t => if p t then skipWhile p n c.advance else c
    | none => c

end Cursor
end MiniML
