import MiniML.Source.Span
import MiniML.Source.Lines
/-!
# Quoting a span

A message about a span is shown under the lines that the span covers, with
the line before them for context and a caret under the last column; lines
are numbered from one. A span of the second line of a source reads

     |
     |let x = 1
    2 |let y = x + true
    3 |               ^--- message
     |

The quoted part may be coloured. A span that does not lie in its source
cannot be quoted.
-/
namespace MiniML.Excerpt

/-- The sequence that starts red text. -/
def redOn : String := "\x1b[31m"

/-- The sequence that ends all colours. -/
def colourOff : String := "\x1b[0m"

/-- Start red text again behind each end of colours in a text. -/
def keepRed : List Char → List Char
  | '\x1b' :: '[' :: '0' :: 'm' :: cs => colourOff.toList ++ redOn.toList ++ keepRed cs
  | c :: cs => c :: keepRed cs
  | [] => []

/-- A text in red to its end, where colours are wanted. -/
def red (colour : Bool) (text : String) : String :=
  if colour then redOn ++ String.ofList (keepRed text.toList) ++ colourOff else text

/-- So many spaces. -/
def spaces (n : Nat) : String := String.ofList (List.replicate n ' ')

/-- The first line of a span, with the part that the span covers in red. -/
def firstLine (colour : Bool) (span : Span) (line : List Char) : Option String := do
  let (left, right) ← splitAtByte? line span.start.col
  if span.start.line ≠ span.stop.line then
    return String.ofList left ++ red colour (String.ofList right)
  if span.stop.col < span.start.col then none
  let (hot, cold) ← splitAtByte? right (span.stop.col - span.start.col)
  return String.ofList left ++ red colour (String.ofList hot) ++ String.ofList cold

/-- Quote a span with a message; `none` for a span that does not lie in its
source, or that ends before the first column. -/
def render (colour : Bool) (span : Span) (message : String) : Option String := do
  let ls := lines span.source.toList
  let margin := spaces (toString span.stop.line).length
  let before ← if span.start.line = 0 then some [] else ls[span.start.line - 1]?
  let line ← ls[span.start.line]?
  let first ← firstLine colour span line
  let further := span.stop.line - span.start.line
  let below := (ls.drop (span.start.line + 1)).take further
  if below.length < further then none
  if span.stop.col = 0 then none
  let rows :=
    [margin ++ " |",
     margin ++ " |" ++ String.ofList before ++ " ",
     toString (span.start.line + 1) ++ " |" ++ first] ++
    below.map (fun l => margin ++ " |" ++ red colour (String.ofList l)) ++
    [toString (span.stop.line + 2) ++ " |" ++ spaces (span.stop.col - 1) ++ "^--- " ++ message,
     margin ++ " |"]
  return "\n".intercalate rows

end MiniML.Excerpt
