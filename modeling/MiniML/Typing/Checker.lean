import MiniML.Typing.Error
import MiniML.Typing.Builtins
/-!
# The state of a checker

A checker carries a supply of type variables, the substitution that the
current declaration has led to, and the diagnostics so far. Steps of
inference change this state, and it survives a step that fails: the one
way to fail is to run out of type variables.
-/
namespace MiniML

/-- What a caller may choose. -/
structure Config where
  /-- Report the type of each top-level binding. -/
  reportTypes : Bool := false
  /-- A pass with warnings does not succeed. -/
  warningsAsErrors : Bool := false
deriving DecidableEq, Repr, Inhabited

/-- The state of a checker. `next` is the first unused type variable, and
operators are typed by `builtins`. -/
structure Checker where
  next : TyVar
  subst : Subst := .empty
  builtins : Context
  diagnostics : Diagnostics := []
  config : Config := {}

/-- A step of inference. -/
abbrev Infer := EStateM Exhausted Checker

namespace Checker

/-- A checker over a table of operators; its variables start above those of
the table. -/
def ofTable (builtins : Context) (config : Config) : Except Exhausted Checker :=
  (Context.nextUnused builtins).map fun next => { next, builtins, config }

/-- A checker over the builtin names, whose schemes mention variable 0. -/
def root (config : Config) : Checker := { next := 1, builtins := Builtins.context, config }

/-- The diagnostics so far, and the checker without them. -/
def takeDiagnostics (c : Checker) : Diagnostics × Checker :=
  (c.diagnostics, { c with diagnostics := [] })

end Checker

namespace Infer

/-! ## Variables -/

/-- An unused variable. -/
def fresh : Infer Ty := fun c =>
  match succVar c.next with
  | .ok next => .ok (.var c.next) { c with next }
  | .error e => .error e c

/-- Each variable of a list with an unused one. -/
def freshFor : List TyVar → Infer (List (TyVar × Ty))
  | [] => pure []
  | v :: vs => do
    let t ← fresh
    return (v, t) :: (← freshFor vs)

/-- The body of a scheme, with unused variables for the quantified ones. -/
def instantiate (s : Scheme) : Infer Ty := do
  if s.isMono then
    return s.body
  return Subst.rename (.ofList (← freshFor s.vars)) s.body

/-- The current substitution. -/
def subst : Infer Subst := do return (← get).subst

/-- A type under the current substitution. -/
def resolve (t : Ty) : Infer Ty := do return (← subst).apply t

/-- Quantify the variables of a type that are not free in the context. -/
def generalize (Γ : Context) (t : Ty) : Infer Scheme := do
  let σ ← subst
  let live := Γ.free σ
  let t := σ.apply t
  return ⟨t.free.filter (!live.contains ·), t⟩

/-! ## Equations and errors -/

/-- Add a diagnostic. -/
def push (d : Diagnostic) : Infer Unit :=
  modify fun c => { c with diagnostics := c.diagnostics ++ [d] }

/-- Report a type error. -/
def report (e : TypeError) : Infer Unit := push e.toDiagnostic

/-- Make two types equal, as far as that can be done, and tell what
prevents it. -/
def equate (s t : Ty) : Infer (Option UnifyError) := fun c =>
  match unify s t c.subst with
  | .ok _ σ => .ok none { c with subst := σ }
  | .error e σ => .ok (some e) { c with subst := σ }

/-- The outcome of a rule: its type, or the error type after a report. -/
def settle : Except TypeError Ty → Infer Ty
  | .ok t => pure t
  | .error e => do
    report e
    return .error

/-- Make two types equal, and report it if that cannot be done. -/
def expect (expected found : Ty) (span : Span) (context : String) : Infer Unit := do
  match ← equate expected found with
  | none => return ()
  | some e => report (.ofUnify e span context)

/-- Make a type equal to its annotation, and report it if that cannot be
done. -/
def expectHint (declared inferred : Ty) (span : Span) : Infer Unit := do
  match ← equate declared inferred with
  | none => return ()
  | some _ => report ⟨.hintMismatch (← resolve declared) (← resolve inferred), span⟩

end Infer
end MiniML
