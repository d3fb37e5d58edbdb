import MiniML.Source.Blank
import MiniML.Typing.Outcome
/-!
# Sessions

A session checks one input after the other. An input that passes adds its
bindings to the session; one that fails leaves them as they were. The
checker is kept for the whole session, so that no variable is used twice.

A line that starts with a colon is a command and no input.
-/
namespace MiniML

/-- What is kept between inputs. -/
abbrev Session := Workspace

/-- The outcome of one input. -/
structure Evaluation where
  diagnostics : Diagnostics
  /-- The names that the input binds. -/
  bindings : List (String × Scheme) := []
  /-- The type of the last declaration, if it binds no name. -/
  value : Option Ty := none
  passed : Bool := false

/-- How a binding is shown. -/
def showBinding : String × Scheme → String
  | (name, s) => "val " ++ name ++ " : " ++ s.text

/-- How an outcome is shown: the diagnostics, then the bindings and the
value of an input that passed. `none` if a diagnostic cannot be shown. -/
def Evaluation.render? (colour : Bool) (e : Evaluation) : Option String := do
  let found ← e.diagnostics.mapM (Diagnostic.render? colour)
  let results :=
    if e.passed then
      e.bindings.map showBinding ++ (e.value.map fun t => "- : " ++ t.normalized).toList
    else []
  return "\n".intercalate (found ++ results)

namespace Session

/-- A session without bindings of its own. -/
def new : Session := ⟨.root {}, Builtins.context⟩

/-- Forget all bindings. -/
def reset (s : Session) : Session := { s with context := s.checker.builtins }

/-- The bindings of a session that the builtin names do not have, in
ascending order of names. -/
def bindings (s : Session) : List (String × Scheme) := Context.beyond s.context s.checker.builtins

/-- Check declarations in order, and tell what they bind and what the last
one is worth. -/
def declarations : Program → Check Evaluation
  | [] => return { diagnostics := [], passed := true }
  | d :: ds => do
    let (passed, d) ← Check.declaration d
    let Γ := (← get).context
    let bound := match d.declared? with
      | some n => ((Γ.get? n.text).map fun s => (n.text, s)).toList
      | none => []
    let rest ← declarations ds
    let value := match ds, d.declared? with
      | [], none => some d.ty
      | _, _ => rest.value
    return { rest with bindings := bound ++ rest.bindings, value, passed := passed && rest.passed }

/-- Check one input. -/
def eval (input : String) : EStateM Exhausted Session Evaluation := fun s =>
  match readSource input with
  | (_, d :: ds) => .ok { diagnostics := d :: ds } s
  | (program, []) =>
    match declarations program s with
    | .error e w => .error e { w with context := s.context }
    | .ok result w =>
      let (diagnostics, checker) := w.checker.takeDiagnostics
      .ok { result with diagnostics }
        { checker, context := if result.passed then w.context else s.context }

/-! ## Commands -/

/-- The answer to a line. -/
inductive Reply
  | output (text : String) | quit
deriving DecidableEq, Repr

/-- Why a line has no answer: the type variables are used up, a diagnostic
cannot be quoted, or a backspace cuts a character apart. -/
inductive Silence
  | exhausted | unquotable | unreadable
deriving DecidableEq, Repr

/-- What the help command shows. -/
def help : String :=
  "\n".intercalate
    ["Commands:",
     "  :help   :h   Show this help",
     "  :quit   :q   Exit the REPL",
     "  :env         List the bindings made in this session",
     "  :reset       Forget every binding made in this session",
     "",
     "Anything else is checked as one or more declarations, e.g.",
     "  let id = fun x -> x",
     "  fun fact n -> if n = 0 then 1 else n * fact (n - 1)",
     "  (id 1, id true)"]

/-- What the listing command shows. -/
def listing (s : Session) : String :=
  if s.bindings.isEmpty then "(empty)" else "\n".intercalate (s.bindings.map showBinding)

/-- Carry out a command. -/
def command (text : String) (s : Session) : Reply × Session :=
  if text = ":quit" ∨ text = ":q" then (.quit, s)
  else if text = ":help" ∨ text = ":h" then (.output help, s)
  else if text = ":reset" then (.output "Environment reset.", s.reset)
  else if text = ":env" then (.output s.listing, s)
  else (.output ("Unknown command: " ++ text ++ ". Type :help for available commands."), s)

/-- Answer a line. -/
def handleLine (colour : Bool) (line : String) : EStateM Silence Session Reply := fun s =>
  match trim line.toList with
  | [] => .ok (.output "") s
  | ':' :: cs =>
    let (reply, s) := command (String.ofList (':' :: cs)) s
    .ok reply s
  | text =>
    match eval (String.ofList text) s with
    | .error _ s => .error .exhausted s
    | .ok e s =>
      match e.render? colour with
      | some out => .ok (.output out) s
      | none => .error .unquotable s

end Session
end MiniML
