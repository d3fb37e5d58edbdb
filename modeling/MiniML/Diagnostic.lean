import MiniML.Source.Excerpt
/-!
# Diagnostics

A diagnostic is a message about a span, of a severity and a category, with
an optional piece of advice. A pass lists the diagnostics that it meets and
goes on; its caller decides what they mean for the outcome.
-/
namespace MiniML

/-- How severe a diagnostic is. -/
inductive Severity
  | error | warning | info
deriving DecidableEq, Repr, Inhabited

/-- The name of a severity. -/
def Severity.name : Severity → String
  | .error => "error"
  | .warning => "warning"
  | .info => "info"

/-- What a diagnostic is about. -/
inductive Category
  | unbound | occursCheck | mismatch | invalidOperator | notApplicable
  | hintMismatch | duplicate | syntactic | unreachable | inferred
deriving DecidableEq, Repr, Inhabited

namespace Category

/-- All categories. -/
def all : List Category :=
  [.unbound, .occursCheck, .mismatch, .invalidOperator, .notApplicable,
   .hintMismatch, .duplicate, .syntactic, .unreachable, .inferred]

/-- The code of a category. -/
def code : Category → String
  | .unbound => "E0001"
  | .occursCheck => "E0002"
  | .mismatch => "E0003"
  | .invalidOperator => "E0004"
  | .notApplicable => "E0005"
  | .hintMismatch => "E0006"
  | .syntactic => "E0007"
  | .duplicate => "E0008"
  | .unreachable => "W0001"
  | .inferred => "I0001"

/-- The name of a category. -/
def name : Category → String
  | .unbound => "unbound_identifier"
  | .occursCheck => "occurs_check_failed"
  | .mismatch => "unification_mismatch"
  | .invalidOperator => "invalid_operator"
  | .notApplicable => "not_applicable"
  | .hintMismatch => "annotation_mismatch"
  | .syntactic => "syntax"
  | .duplicate => "duplicate_binding"
  | .unreachable => "unreachable_pattern"
  | .inferred => "inferred_type"

theorem mem_all (c : Category) : c ∈ all := by cases c <;> decide

theorem code_injective {c d : Category} (h : c.code = d.code) : c = d := by
  cases c <;> cases d <;> simp [code] at h ⊢

end Category

/-- A message about a span. -/
structure Diagnostic where
  severity : Severity
  category : Category
  message : String
  span : Span
  help : Option String := none
deriving DecidableEq, Repr, Inhabited

namespace Diagnostic

/-- Whether a diagnostic is an error. -/
def isError (d : Diagnostic) : Bool := d.severity = .error

/-- Severity, code and message in one line. -/
def headline (d : Diagnostic) : String :=
  d.severity.name ++ "[" ++ d.category.code ++ "]: " ++ d.message

/-- The headline under the quoted span, or alone where there is no source;
the advice follows. `none` if the span cannot be quoted. -/
def render? (colour : Bool) (d : Diagnostic) : Option String := do
  let body ← if d.span.source.isEmpty then some d.headline
    else Excerpt.render colour d.span d.headline
  match d.help with
  | none => return body
  | some help => return body ++ "\n  help: " ++ help

end Diagnostic

/-- The diagnostics of a pass, in the order in which they arose. -/
abbrev Diagnostics := List Diagnostic

namespace Diagnostics

/-- How many diagnostics have a severity. -/
def count (ds : Diagnostics) (s : Severity) : Nat := ds.countP fun d => d.severity = s

/-- The number of errors. -/
def errors (ds : Diagnostics) : Nat := count ds .error

/-- The number of warnings. -/
def warnings (ds : Diagnostics) : Nat := count ds .warning

/-- Whether there is an error. -/
def hasErrors (ds : Diagnostics) : Bool := ds.any Diagnostic.isError

/-- Those that came after the first `mark` ones, and the first ones. -/
def splitOff (ds : Diagnostics) (mark : Nat) : Diagnostics × Diagnostics :=
  (ds.drop mark, ds.take mark)

end Diagnostics
end MiniML
