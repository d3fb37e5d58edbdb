import MiniML.Source
import MiniML.Typing.Declaration
/-!
# Checking whole programs

A program is checked only if all of it could be read. A pass succeeds when
no error was met, and no warning either where the configuration asks for
that.
-/
namespace MiniML

/-- The outcome of checking a program: the program with its slots filled,
the context that it builds up, and what was found. -/
structure Outcome where
  program : Program
  context : Context
  diagnostics : Diagnostics
  passed : Bool

/-- The outcome for a source that could not be read. -/
def Outcome.unread (program : Program) (diagnostics : Diagnostics) : Outcome :=
  { program, context := Builtins.context, diagnostics, passed := false }

/-- Check a program from the builtin names on. -/
def checkProgram (program : Program) (config : Config) : Except Exhausted Outcome :=
  match Check.program program ⟨.root config, Builtins.context⟩ with
  | .error e _ => .error e
  | .ok (passed, program) w =>
    let diagnostics := w.checker.diagnostics
    let tolerated := !(config.warningsAsErrors && diagnostics.warnings > 0)
    .ok { program, context := w.context, diagnostics, passed := passed && tolerated }

/-- Read a source and check it. -/
def checkSource (source : String) (config : Config) : Except Exhausted Outcome :=
  match readSource source with
  | (program, []) => checkProgram program config
  | (program, diagnostics) => .ok (.unread program diagnostics)

end MiniML
