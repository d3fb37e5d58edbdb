import MiniML.Ty.Unify
import MiniML.Diagnostic
/-!
# Type errors

What can be wrong with a program that was read without faults. None of
these ends a pass: each is reported, and the part that is wrong gets the
error type.
-/
namespace MiniML

/-- What is wrong with a part of a program. -/
inductive TypeErrorKind
  | unbound (name : String)
  | occurs (v : TyVar) (t : Ty)
  | mismatch (expected found : Ty) (context : Option String)
  | invalidOperator (op : String) (arity : Nat)
  | notApplicable (kind : String)
  | hintMismatch (declared inferred : Ty)
  | duplicate (name : String)
deriving DecidableEq, Repr

/-- A type error and where it is. -/
structure TypeError where
  kind : TypeErrorKind
  span : Span
deriving DecidableEq, Repr

namespace TypeErrorKind

/-- The text of a type error. -/
def message : TypeErrorKind → String
  | .unbound name => "unbound identifier: " ++ name
  | .occurs v t => "cannot construct infinite type: " ++ Ty.varText v ++ " = " ++ t.pretty
  | .mismatch s t context =>
    "cannot unify " ++ s.pretty ++ " with " ++ t.pretty ++
      (match context with | some c => " (" ++ c ++ ")" | none => "")
  | .invalidOperator op arity =>
    "invalid operator `" ++ op ++ "`: expected a function of " ++ toString arity ++ " argument(s)"
  | .notApplicable kind => "only functions can be applied, found " ++ kind
  | .hintMismatch s t =>
    "type annotation mismatch: declared " ++ s.pretty ++ ", inferred " ++ t.pretty
  | .duplicate name => "`" ++ name ++ "` is bound several times in this pattern"

/-- The category under which a type error is reported. -/
def category : TypeErrorKind → Category
  | .unbound _ => .unbound
  | .occurs _ _ => .occursCheck
  | .mismatch _ _ _ => .mismatch
  | .invalidOperator _ _ => .invalidOperator
  | .notApplicable _ => .notApplicable
  | .hintMismatch _ _ => .hintMismatch
  | .duplicate _ => .duplicate

/-- The advice that comes with a type error. -/
def help : TypeErrorKind → Option String
  | .unbound name => some ("bind `" ++ name ++ "` with `let` or `fun` before using it")
  | .hintMismatch _ _ => some "fix the annotation or the annotated expression"
  | _ => none

/-- Say where a mismatch arose; other errors do not need it. -/
def within (context : String) : TypeErrorKind → TypeErrorKind
  | .mismatch s t _ => .mismatch s t (some context)
  | k => k

/-- The error that a failed unification is. Tuples of different length are
a mismatch like any other. -/
def ofUnify : UnifyError → TypeErrorKind
  | .mismatch s t | .tupleArity s t => .mismatch s t none
  | .occurs v t => .occurs v t

end TypeErrorKind

namespace TypeError

/-- A failed unification at a place. -/
def ofUnify (e : UnifyError) (span : Span) (context : String) : TypeError :=
  ⟨(TypeErrorKind.ofUnify e).within context, span⟩

/-- How a type error is reported. -/
def toDiagnostic (e : TypeError) : Diagnostic where
  severity := .error
  category := e.kind.category
  message := e.kind.message
  span := e.span
  help := e.kind.help

end TypeError
end MiniML
