import MiniML.Typing.Outcome
/-!
# Checking a file

What the check of a file prints: types to standard output, errors and
warnings to standard error, each in the order of the diagnostics, and a
count of them if the check does not succeed.
-/
namespace MiniML

/-- What is printed, and the exit code. -/
structure Printed where
  out : String := ""
  err : String := ""
  code : Nat := 0
deriving DecidableEq, Repr

namespace Printed

/-- The exit code of a check that could not be reported to its end. -/
def brokenOff : Nat := 101

/-- Print a diagnostic; `none` if it cannot be shown. -/
def diagnostic? (p : Printed) (d : Diagnostic) : Option Printed :=
  (d.render? false).map fun text =>
    match d.severity with
    | .info => { p with out := p.out ++ text ++ "\n" }
    | .error | .warning => { p with err := p.err ++ text ++ "\n" }

/-- Print diagnostics up to the first that cannot be shown, and tell whether
all were printed. -/
def diagnostics (p : Printed) : Diagnostics → Printed × Bool
  | [] => (p, true)
  | d :: ds =>
    match p.diagnostic? d with
    | some p => diagnostics p ds
    | none => ({ p with code := brokenOff }, false)

/-- The counts of a check that did not succeed. -/
def summary (file : String) (ds : Diagnostics) : String :=
  file ++ ": " ++ toString ds.errors ++ " error(s), " ++ toString ds.warnings ++ " warning(s)\n"

/-- What the outcome of a check prints. -/
def ofOutcome (file : String) (o : Outcome) : Printed :=
  match diagnostics {} o.diagnostics with
  | (p, false) => p
  | (p, true) =>
    if o.passed then p
    else { p with err := p.err ++ summary file o.diagnostics, code := 1 }

/-- Why a file that is not there cannot be read. -/
def noSuchFile : String := "No such file or directory (os error 2)"

/-- What a file that cannot be read prints. -/
def unreadable (file reason : String) : Printed where
  err := "Error: failed to read " ++ file ++ "\n\nCaused by:\n    " ++ reason ++ "\n"
  code := 1

/-- What the check of a file with a source prints. -/
def ofSource (file source : String) (config : Config) : Printed :=
  match checkSource source config with
  | .error _ => { code := brokenOff }
  | .ok o => ofOutcome file o

end Printed
end MiniML
