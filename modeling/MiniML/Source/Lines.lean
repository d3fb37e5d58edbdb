/-!
# Lines

A line ends at a line break or, for the last one, at the end of the text. A
carriage return in front of a line break belongs to the break.
-/
namespace MiniML

/-- The pieces between line breaks; there is always one. -/
def pieces : List Char → List (List Char)
  | [] => [[]]
  | c :: cs =>
    match pieces cs with
    | [] => [[c]]
    | l :: ls => if c = '\n' then [] :: l :: ls else (c :: l) :: ls

/-- A line without the carriage return in front of its line break. -/
def dropReturn (l : List Char) : List Char :=
  if l.getLast? = some '\r' then l.dropLast else l

/-- All pieces but an empty last one are lines. -/
def linesOf : List (List Char) → List (List Char)
  | [] => []
  | [l] => if l.isEmpty then [] else [l]
  | l :: ls => dropReturn l :: linesOf ls

/-- The lines of a text, without their ends. -/
def lines (text : List Char) : List (List Char) := linesOf (pieces text)

end MiniML
