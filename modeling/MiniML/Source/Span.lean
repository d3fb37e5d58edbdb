/-!
# Places in a source text

A location is a line and a column, both counted from zero; columns count
bytes. A span runs from a start up to an end location and carries the text
it belongs to, so that it can be quoted long after the text was read.
-/
namespace MiniML

/-- A line and a byte column, both from zero. -/
structure Loc where
  line : Nat := 0
  col : Nat := 0
deriving DecidableEq, Repr, Inhabited

/-- The text between two locations of a source. -/
structure Span where
  start : Loc := {}
  stop : Loc := {}
  source : String := ""
deriving DecidableEq, Repr, Inhabited

namespace Span

/-- The span of nothing: it is at the origin of an empty source. -/
def nowhere : Span := {}

/-- From the start of one span to the end of another. -/
def merge (s t : Span) : Span := { s with stop := t.stop }

end Span

/-- The number of bytes of a text. -/
def byteLength : List Char → Nat
  | [] => 0
  | c :: cs => c.utf8Size + byteLength cs

/-- Cut a text after a number of bytes; `none` inside a character or past
the end. -/
def splitAtByte? : List Char → Nat → Option (List Char × List Char)
  | cs, 0 => some ([], cs)
  | [], _ + 1 => none
  | c :: cs, n + 1 =>
    if c.utf8Size ≤ n + 1 then
      (splitAtByte? cs (n + 1 - c.utf8Size)).map fun (l, r) => (c :: l, r)
    else none

end MiniML
