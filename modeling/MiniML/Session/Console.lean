import MiniML.Session
import MiniML.Session.Entry
import MiniML.Source.Lines
/-!
# Conversations

A session on a console reads lines, with backspaces in them that take back
what is in front of them. Lines are joined to one input for as long as the
text so far asks for more: it ends in something that cannot end a
declaration, or has parentheses open. A blank line ends an input in any
case, and an input that the end of the lines cuts off is dropped.
-/
namespace MiniML.Console

/-- Symbols that cannot end a declaration. -/
def openSymbols : List String := ["=", "->", "|", "(", ","]

/-- Keywords that cannot end a declaration. -/
def openKeywords : List String := ["let", "in", "then", "else", "with"]

/-- Whether a text asks for more. -/
def needsMore (input : String) : Bool :=
  let text := trimEnd (blankComments input).toList
  openSymbols.any (fun s => s.toList.isSuffixOf text) ||
    openKeywords.any (fun s => s.toList == lastWord text) ||
    text.count ')' < text.count '('

/-- Whether a text is a command, which is always one line. -/
def isCommand (input : String) : Bool := (trimStart input.toList).head? == some ':'

/-- A conversation: the session, and the input that asks for more. -/
structure State where
  session : Session := .new
  pending : Option String := none

/-- What a line leads to: text to print and a conversation that goes on, or
its end, or no answer. -/
inductive Next
  | more (state : State) (output : String)
  | quit
  | silent (why : Session.Silence)

/-- Answer a complete input. Each answer that is not empty is a line. -/
def answer (colour : Bool) (input : String) (session : Session) : Next :=
  match Session.handleLine colour input session with
  | .error why _ => .silent why
  | .ok .quit _ => .quit
  | .ok (.output text) session =>
    .more { session } (if text.isEmpty then "" else text ++ "\n")

/-- Answer an input unless it asks for more. -/
def consider (colour : Bool) (input : String) (session : Session) : Next :=
  if !isCommand input && needsMore input then .more { session, pending := some input } ""
  else answer colour input session

/-- Take in a line. -/
def feed (colour : Bool) (state : State) (line : String) : Next :=
  match state.pending with
  | none => consider colour line state.session
  | some input =>
    if (trim line.toList).isEmpty then answer colour input state.session
    else consider colour (input ++ "\n" ++ line) state.session

/-- Take in a line that was entered with backspaces. -/
def enter (colour : Bool) (state : State) (keys : String) : Next :=
  match entered? keys.toList with
  | some line => feed colour state (String.ofList line)
  | none => .silent .unreadable

/-! ## Whole conversations -/

/-- What is printed first. -/
def greeting : String := "Tern REPL v0.1.0\nType :help for commands, :quit to exit\n\n"

/-- What is printed last. -/
def farewell : String := "\n"

/-- What a conversation prints, and why it broke off if it did. -/
structure Transcript where
  output : String
  failure : Option Session.Silence := none
deriving DecidableEq, Repr

/-- The rest of a conversation, from what was printed so far. -/
def resume (colour : Bool) (output : String) (state : State) : List String → Transcript
  | [] => { output := output ++ farewell }
  | line :: rest =>
    match enter colour state line with
    | .more state text => resume colour (output ++ text) state rest
    | .quit => { output := output ++ farewell }
    | .silent why => { output, failure := some why }

/-- The conversation over the lines of a text. -/
def converse (colour : Bool) (input : String) : Transcript :=
  resume colour greeting {} ((lines input.toList).map String.ofList)

end MiniML.Console
