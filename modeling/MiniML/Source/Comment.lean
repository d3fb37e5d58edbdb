/-!
# Comments

Comments run from `(*` to `*)` and nest. They are blanked out and not cut
out: each character of a comment becomes a space, except that line breaks
stay. So the blanked text has the lines of the source and as many characters
in each, but fewer bytes where a comment holds wider characters.

Inside a string or a character literal nothing opens a comment. Inside a
comment nothing opens a literal: only the two comment marks count there.
-/
namespace MiniML.Comment

/-- What the text up to here leaves open: nothing, a string, or a comment
with a number of comments around it. -/
inductive Mode
  | code | string | comment (outer : Nat)
deriving DecidableEq, Repr

/-- The mode behind an opening comment mark. -/
def Mode.enter : Mode → Mode
  | .comment n => .comment (n + 1)
  | _ => .comment 0

/-- The mode behind a closing comment mark of a comment with `n` around it. -/
def leave : Nat → Mode
  | 0 => .code
  | n + 1 => .comment n

/-- What a comment's character is blanked to. -/
def blanked (c : Char) : Char := if c = '\n' then '\n' else ' '

/-- Blank the comments of a text that starts in the given mode. A character
literal, such as a quote or an escaped quote between apostrophes, is passed
over whole. -/
def blankFrom : Mode → List Char → List Char
  | _, [] => []
  | .string, '\\' :: c :: cs => '\\' :: c :: blankFrom .string cs
  | .string, c :: cs => c :: blankFrom (if c = '"' then .code else .string) cs
  | .comment n, '(' :: '*' :: cs => ' ' :: ' ' :: blankFrom (.comment (n + 1)) cs
  | .comment n, '*' :: ')' :: cs => ' ' :: ' ' :: blankFrom (leave n) cs
  | .comment n, c :: cs => blanked c :: blankFrom (.comment n) cs
  | .code, '(' :: '*' :: cs => ' ' :: ' ' :: blankFrom (.comment 0) cs
  | .code, '\'' :: '\\' :: c :: '\'' :: cs => '\'' :: '\\' :: c :: '\'' :: blankFrom .code cs
  | .code, '\'' :: c :: '\'' :: cs =>
    if c = '\\' ∨ c = '\'' then '\'' :: blankFrom .code (c :: '\'' :: cs)
    else '\'' :: c :: '\'' :: blankFrom .code cs
  | .code, c :: cs => c :: blankFrom (if c = '"' then .string else .code) cs

end Comment

/-- A source with its comments blanked out. -/
def blankComments (source : String) : String :=
  String.ofList (Comment.blankFrom .code source.toList)

end MiniML
