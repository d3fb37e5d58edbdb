import MiniML.Source.Span
/-!
# Tokens

A token is a lexeme at a place of its source. A lexeme is either one of the
fixed spellings, a keyword or a symbol, or a word of a class, such as an
identifier or a number, together with its text.
-/
namespace MiniML

/-- The fixed spellings. -/
inductive Fixed
  | let_ | in_ | fun_ | if_ | then_ | else_ | match_ | with_ | true_ | false_ | not_
  | equals | notEquals | less | greater | lessEquals | greaterEquals
  | plus | minus | star | slash | percent | plusDot | minusDot | starDot | slashDot
  | caret | and_ | or_ | arrow | pipe | comma | lparen | rparen | colon | underscore | separator
deriving DecidableEq, Repr, Inhabited

namespace Fixed

/-- How a fixed lexeme is spelled. -/
def text : Fixed → String
  | .let_ => "let"
  | .in_ => "in"
  | .fun_ => "fun"
  | .if_ => "if"
  | .then_ => "then"
  | .else_ => "else"
  | .match_ => "match"
  | .with_ => "with"
  | .true_ => "true"
  | .false_ => "false"
  | .not_ => "not"
  | .equals => "="
  | .notEquals => "<>"
  | .less => "<"
  | .greater => ">"
  | .lessEquals => "<="
  | .greaterEquals => ">="
  | .plus => "+"
  | .minus => "-"
  | .star => "*"
  | .slash => "/"
  | .percent => "%"
  | .plusDot => "+."
  | .minusDot => "-."
  | .starDot => "*."
  | .slashDot => "/."
  | .caret => "^"
  | .and_ => "&&"
  | .or_ => "||"
  | .arrow => "->"
  | .pipe => "|"
  | .comma => ","
  | .lparen => "("
  | .rparen => ")"
  | .colon => ":"
  | .underscore => "_"
  | .separator => ";;"

/-- The keywords. -/
def keywords : List Fixed :=
  [.let_, .in_, .fun_, .if_, .then_, .else_, .match_, .with_, .true_, .false_, .not_]

/-- The symbols. -/
def symbols : List Fixed :=
  [.equals, .notEquals, .less, .greater, .lessEquals, .greaterEquals,
   .plus, .minus, .star, .slash, .percent, .plusDot, .minusDot, .starDot, .slashDot,
   .caret, .and_, .or_, .arrow, .pipe, .comma, .lparen, .rparen, .colon, .underscore, .separator]

theorem mem_keywords_or_symbols (f : Fixed) : f ∈ keywords ∨ f ∈ symbols := by
  cases f <;> decide

end Fixed

/-- The classes of words. -/
inductive WordClass
  | ident | typeVar | float | integer | string | char
deriving DecidableEq, Repr, Inhabited

/-- What a token is. -/
inductive Lexeme
  | fixed (f : Fixed)
  | word (c : WordClass) (text : String)
deriving DecidableEq, Repr, Inhabited

namespace Lexeme

/-- The source text of a lexeme. -/
def text : Lexeme → String
  | .fixed f => f.text
  | .word _ s => s

/-- A lexeme as a message names it. -/
def describe : Lexeme → String
  | .fixed f => "'" ++ f.text ++ "'"
  | .word .ident s => "identifier '" ++ s ++ "'"
  | .word .typeVar s => "type variable " ++ s
  | .word .float s => "float '" ++ s ++ "'"
  | .word .integer s => "integer '" ++ s ++ "'"
  | .word .string s => "string " ++ s
  | .word .char s => "char " ++ s

end Lexeme

/-- A lexeme at its place. -/
structure Token where
  lexeme : Lexeme
  span : Span
deriving DecidableEq, Repr, Inhabited

/-- A token as a message names it. -/
def Token.describe (t : Token) : String := t.lexeme.describe

end MiniML
