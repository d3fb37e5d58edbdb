import MiniML.Typing.Infer
/-!
# Checking declarations

Declarations are checked one after the other in a context that grows. A
declaration that passes binds its name to its type with all variables
quantified; one that fails binds its name to the error type, so that later
uses of the name are no errors of their own.
-/
namespace MiniML

/-- A checker, and the context that it has built up. -/
structure Workspace where
  checker : Checker
  context : Context

/-- A step of checking; what the steps before did stays when one fails. -/
abbrev Check := EStateM Exhausted Workspace

namespace Check

/-- Run a step of inference in the current context. -/
def inferring {α : Type} (step : Context → Infer α) : Check α := fun w =>
  match step w.context w.checker with
  | .ok a checker => .ok a { w with checker }
  | .error e checker => .error e { w with checker }

/-- Bind a name in the context. -/
def define (name : String) (s : Scheme) : Check Unit :=
  modify fun w => { w with context := w.context.insert name s }

end Check

namespace Infer

/-- Infer the type of a declaration from an empty substitution, and resolve
its slots. Also tells whether no error was reported. -/
def declaration (Γ : Context) (d : Expr) : Infer (Bool × Expr) := do
  modify fun c => { c with subst := .empty }
  let before := (← get).diagnostics.errors
  let d ← expr Γ d
  let σ ← subst
  return ((← get).diagnostics.errors = before, d.mapTypes σ.apply)

/-- Tell the type of something, if that is asked for. -/
def reportType (name : String) (type : String) (span : Span) : Infer Unit := do
  if (← get).config.reportTypes then
    push { severity := .info, category := .inferred, message := name ++ " : " ++ type, span }

end Infer

namespace Check

/-- Check a declaration and bind its name. Returns whether it passed, and
the declaration with its slots filled. -/
def declaration (d : Expr) : Check (Bool × Expr) := do
  let (passed, d) ← inferring fun Γ => Infer.declaration Γ d
  match d.declared? with
  | some n =>
    if passed then
      let s ← inferring fun Γ => do
        let s ← Infer.generalize Γ d.ty
        Infer.reportType n.text s.text n.mark.span
        return s
      define n.text s
    else define n.text (.mono .error)
  | none =>
    if passed then
      inferring fun _ => Infer.reportType "-" d.ty.normalized d.span
  return (passed, d)

/-- Check all declarations in order. Returns whether all of them passed. -/
def program : Program → Check (Bool × Program)
  | [] => pure (true, [])
  | d :: ds => do
    let (passed, d) ← declaration d
    let (rest, ds) ← program ds
    return (passed && rest, d :: ds)

end Check
end MiniML
