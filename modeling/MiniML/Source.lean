import MiniML.Source.Comment
import MiniML.Token.Lexer
import MiniML.Grammar.Program
import MiniML.Diagnostic
/-!
# Reading a source

A source is read by blanking its comments, cutting it into tokens and
parsing these. What is wrong with it is reported as diagnostics.
-/
namespace MiniML

/-- How a syntax error is reported; one without a place is reported at
none. -/
def Fault.toDiagnostic (f : Fault) : Diagnostic where
  severity := .error
  category := .syntactic
  message := f.message
  span := f.span.getD .nowhere

/-- How a lexical error is reported. -/
def LexError.toDiagnostic (e : LexError) : Diagnostic where
  severity := .error
  category := .syntactic
  message := "failed to lex input: " ++ e.message
  span := .nowhere

/-- The declarations of a source that can be read, and what is wrong with
the others. A source that cannot be cut into tokens has no declaration. -/
def readSource (source : String) : Program × Diagnostics :=
  match Token.lex (blankComments source) with
  | .error e => ([], [e.toDiagnostic])
  | .ok tokens =>
    let (p, faults) := Grammar.parse tokens
    (p, faults.map Fault.toDiagnostic)

end MiniML
