import MiniML.Token
/-!
# From text to tokens

At each place the longest lexeme that starts there is taken; of two equally
long ones the keyword wins over the word. Space, tab, line break, carriage
return and form feed separate lexemes.

A token's span is on one line: its end column is its start column plus its
length in bytes, and only a line break between tokens starts a new line.
-/
namespace MiniML
namespace Lexeme

/-! ## Characters -/

/-- ASCII letters. -/
def isLetter (c : Char) : Bool := c.isAlpha

/-- ASCII small letters. -/
def isSmall (c : Char) : Bool := c.isLower

/-- ASCII digits. -/
def isDigit (c : Char) : Bool := c.isDigit

/-- Characters of a type variable's name. -/
def isNameChar (c : Char) : Bool := isLetter c || isDigit c || c == '_'

/-- Characters of an identifier after the first. -/
def isIdentChar (c : Char) : Bool := isNameChar c || c == '\''

/-- The length of the longest run of such characters in front. -/
def run (p : Char → Bool) (cs : List Char) : Nat := (cs.takeWhile p).length

/-! ## The lengths of lexemes

Each function gives the length of the lexeme of its class that starts a
text, if one does. -/

/-- A fixed spelling. -/
def fixedLength? (f : Fixed) (cs : List Char) : Option Nat :=
  if f.text.toList.isPrefixOf cs then some f.text.toList.length else none

/-- A letter and identifier characters, or an underscore and at least one
identifier character. -/
def identLength? : List Char → Option Nat
  | [] => none
  | c :: cs =>
    if isLetter c then some (1 + run isIdentChar cs)
    else if c = '_' ∧ 0 < run isIdentChar cs then some (1 + run isIdentChar cs)
    else none

/-- An apostrophe, a small letter and name characters. -/
def typeVarLength? : List Char → Option Nat
  | '\'' :: c :: cs => if isSmall c then some (2 + run isNameChar cs) else none
  | _ => none

/-- Digits. -/
def integerLength? (cs : List Char) : Option Nat :=
  if 0 < run isDigit cs then some (run isDigit cs) else none

/-- Digits, a point and digits. -/
def floatLength? (cs : List Char) : Option Nat :=
  match run isDigit cs, cs.drop (run isDigit cs) with
  | n + 1, '.' :: ds => if 0 < run isDigit ds then some (n + 2 + run isDigit ds) else none
  | _, _ => none

/-- The rest of a string after its opening quote: characters other than
quote and backslash, and backslashes followed by anything but a line break,
up to a quote. -/
def stringRest? : List Char → Option Nat
  | '"' :: _ => some 1
  | '\\' :: c :: cs => if c = '\n' then none else (stringRest? cs).map (· + 2)
  | '\\' :: [] => none
  | _ :: cs => (stringRest? cs).map (· + 1)
  | [] => none

/-- A string with its quotes. -/
def stringLength? : List Char → Option Nat
  | '"' :: cs => (stringRest? cs).map (· + 1)
  | _ => none

/-- A character with its apostrophes: one other than apostrophe and
backslash, or a backslash followed by anything but a line break. -/
def charLength? : List Char → Option Nat
  | '\'' :: '\\' :: c :: '\'' :: _ => if c = '\n' then none else some 4
  | '\'' :: c :: '\'' :: _ => if c = '\\' ∨ c = '\'' then none else some 3
  | _ => none

/-- The length of the word of a class in front. -/
def wordLength? : WordClass → List Char → Option Nat
  | .ident => identLength?
  | .typeVar => typeVarLength?
  | .float => floatLength?
  | .integer => integerLength?
  | .string => stringLength?
  | .char => charLength?

/-! ## The longest lexeme -/

/-- All lexemes that start a text, each with its length. -/
def candidates (cs : List Char) : List (Lexeme × Nat) :=
  let fixed := fun f => (fixedLength? f cs).map fun n => (Lexeme.fixed f, n)
  let word := fun c =>
    (wordLength? c cs).map fun n => (Lexeme.word c (String.ofList (cs.take n)), n)
  Fixed.keywords.filterMap fixed ++
    [WordClass.ident, .typeVar, .float, .integer, .string, .char].filterMap word ++
    Fixed.symbols.filterMap fixed

/-- The first of the longest ones. -/
def longest : List (Lexeme × Nat) → Option (Lexeme × Nat)
  | [] => none
  | c :: cs =>
    match longest cs with
    | none => some c
    | some d => if c.2 < d.2 then some d else some c

/-- The longest lexeme that starts a text, with its length. -/
def next? (cs : List Char) : Option (Lexeme × Nat) := longest (candidates cs)

end Lexeme

/-! ## Whole texts -/

/-- A place where no lexeme starts: the text, the number of bytes before the
place, and what is left there. -/
structure LexError where
  source : String
  offset : Nat
  rest : String
deriving DecidableEq, Repr

/-- The text of a lexical error. -/
def LexError.message (e : LexError) : String :=
  "Failed to lex '" ++ e.source ++ "' at position " ++ toString e.offset ++
    "; remaining '" ++ e.rest ++ "'"

namespace Token

/-- Characters that separate lexemes. -/
def isSpace (c : Char) : Bool := c == ' ' || c == '\t' || c == '\n' || c == '\r' || c == '\x0c'

/-- The tokens of the text that is left at a byte offset and a location,
after `skip` more characters of the last token. -/
def lexFrom (source : String) (skip offset : Nat) (loc : Loc) :
    List Char → Except LexError (List Token)
  | [] => .ok []
  | c :: cs =>
    match skip with
    | skip + 1 => lexFrom source skip (offset + c.utf8Size) loc cs
    | 0 =>
      if isSpace c then
        lexFrom source 0 (offset + 1)
          (if c = '\n' then ⟨loc.line + 1, 0⟩ else ⟨loc.line, loc.col + 1⟩) cs
      else
        match Lexeme.next? (c :: cs) with
        | none => .error ⟨source, offset, String.ofList (c :: cs)⟩
        | some (lexeme, n) =>
          let stop := ⟨loc.line, loc.col + byteLength ((c :: cs).take n)⟩
          (lexFrom source (n - 1) (offset + c.utf8Size) stop cs).map
            (⟨lexeme, ⟨loc, stop, source⟩⟩ :: ·)

/-- The tokens of a source. -/
def lex (source : String) : Except LexError (List Token) :=
  lexFrom source 0 0 {} source.toList

end Token
end MiniML
