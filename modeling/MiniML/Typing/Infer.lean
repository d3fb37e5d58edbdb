import MiniML.Typing.Checker
import MiniML.Tree
/-!
# Type inference

Each form of expression has one rule. A rule infers the types of the parts
from left to right, in the context that their place has, and relates them
by equations; the result is the expression with its type slots filled.
A rule that fails is reported, and its expression has the error type, so
that one mistake does not hide the next and causes no further ones.

The slots hold the types as they were known when their rule ended. Once a
declaration is done they are resolved by its final substitution.
-/
namespace MiniML
namespace Infer

/-! ## Operators and application -/

/-- The type of an operator for a number of operands. -/
def operator (name : String) (arity : Nat) (span : Span) : Infer (Except TypeError Ty) := do
  match (← get).builtins.get? name with
  | none => return .error ⟨.invalidOperator name arity, span⟩
  | some s =>
    let t ← instantiate s
    if t.arity < arity then
      return .error ⟨.invalidOperator name arity, span⟩
    return .ok t

/-- The result of applying a function to all its arguments at once. -/
def applyTo (callee : Ty) (args : List Ty) (span : Span) (context : String) :
    Infer (Except TypeError Ty) := do
  let result ← fresh
  match ← equate callee (.curried args result) with
  | some e => return .error (.ofUnify e span context)
  | none => return .ok (← resolve result)

/-- The result of an operator. -/
def applyOperator (name symbol : String) (args : List Ty) (span : Span) :
    Infer (Except TypeError Ty) := do
  match ← operator name args.length span with
  | .error e => return .error e
  | .ok t => applyTo t args span ("operator `" ++ symbol ++ "`")

/-- The type of a name. -/
def lookup (Γ : Context) (n : Name) : Infer (Except TypeError Ty) := do
  match Γ.get? n.text with
  | some s => return .ok (← instantiate s)
  | none => return .error ⟨.unbound n.text, n.mark.span⟩

/-- Expressions that are never functions, whatever their type. -/
def neverFunction : Expr → Bool
  | .tuple _ _ | .const _ _ | .unary _ _ _ | .binary _ _ _ _ => true
  | _ => false

/-- Where the mismatch of an application arises. -/
def applicationContext : Expr → String
  | .ident n => "applying `" ++ n.text ++ "`"
  | _ => "application"

/-- The result of an application. -/
def application (callee : Expr) (args : List Expr) (span : Span) :
    Infer (Except TypeError Ty) := do
  if neverFunction callee then
    return .error ⟨.notApplicable callee.describe, callee.span⟩
  applyTo callee.ty (args.map Expr.ty) span (applicationContext callee)

/-- The type of a choice between two branches. -/
def join (yes no : Ty) (span : Span) (context : String) : Infer (Except TypeError Ty) := do
  match ← equate yes no with
  | some e => return .error (.ofUnify e span context)
  | none => return .ok (← resolve yes)

/-- The type, place and context of the branch that is taken otherwise; a
missing branch yields unit. -/
def otherwise (yes : Expr) : Option Expr → Ty × Span × String
  | some no => (no.ty, no.span, "if branches")
  | none => (Ty.unit, yes.span, "if without else")

/-! ## Annotations -/

mutual
/-- The type of an annotation. Names that were met before keep their
variables, and each `_` has an unused one. -/
def hintType (named : FinMap String Ty) : Hint → Infer (Ty × FinMap String Ty)
  | .prim p => pure (.prim p, named)
  | .var x =>
    match named.get? x with
    | some t => pure (t, named)
    | none => do
      let t ← fresh
      return (t, named.insert x t)
  | .wildcard => do return (← fresh, named)
  | .fn a b => do
    let (a, named) ← hintType named a
    let (b, named) ← hintType named b
    return (.fn a b, named)
  | .tuple hs => do
    let (ts, named) ← hintTypes named hs
    return (.tuple ts, named)
/-- The types of a list of annotations. -/
def hintTypes (named : FinMap String Ty) : List Hint → Infer (List Ty × FinMap String Ty)
  | [] => pure ([], named)
  | h :: hs => do
    let (t, named) ← hintType named h
    let (ts, named) ← hintTypes named hs
    return (t :: ts, named)
end

/-- Make a type equal to what is annotated, if anything is. -/
def annotate (hint : Option Hint) (inferred : Ty) (span : Span) : Infer Unit :=
  match hint with
  | none => pure ()
  | some h => do
    let (declared, _) ← hintType .empty h
    expectHint declared inferred span

/-! ## Patterns -/

/-- The first name that is bound again, with the span of the pattern that
binds it again. -/
def firstDuplicate (seen : List String) : List (String × Span) → Option (String × Span)
  | [] => none
  | (x, s) :: xs => if seen.contains x then some (x, s) else firstDuplicate (x :: seen) xs

/-- Report the first name that patterns bind more than once. -/
def checkDistinct (ps : List Pattern) : Infer Unit :=
  match firstDuplicate [] (ps.flatMap fun p => p.names.map fun x => (x, p.span)) with
  | none => pure ()
  | some (x, span) => report ⟨.duplicate x, span⟩

/-- The bindings that a pattern introduces. -/
abbrev Bindings := List (String × Scheme)

mutual
/-- Type a pattern, with unused variables for what it leaves open. Its names
are not quantified. -/
def pattern : Pattern → Infer (Pattern × Bindings)
  | .ident n => do
    let t ← fresh
    return (.ident (n.typed t), [(n.text, .mono t)])
  | .wildcard m => do return (.wildcard (m.typed (← fresh)), [])
  | .literal l m => pure (.literal l (m.typed (.prim l.prim)), [])
  | .tuple ps m => do
    let (ps, bs) ← patterns ps
    return (.tuple ps (m.typed (.tuple (ps.map Pattern.ty))), bs)
/-- Type a list of patterns. -/
def patterns : List Pattern → Infer (List Pattern × Bindings)
  | [] => pure ([], [])
  | p :: ps => do
    let (p, bs) ← pattern p
    let (ps, cs) ← patterns ps
    return (p :: ps, bs ++ cs)
end

/-- Warn of an arm behind one that matches everything. -/
def checkReachable (reachable : Bool) (span : Span) : Infer Unit :=
  if reachable then pure ()
  else push
    { severity := .warning, category := .unreachable, message := "unreachable match arm", span,
      help := some "an earlier arm already matches every value" }

/-! ## Expressions -/

/-- The context with a name of a fixed type, if there is a name. -/
def bindName (Γ : Context) (name : Option Name) (s : Scheme) : Context :=
  match name with
  | some n => Γ.insert n.text s
  | none => Γ

mutual
/-- Infer the type of an expression. -/
def expr (Γ : Context) : Expr → Infer Expr
  | .const l m => pure (.const l (m.typed (.prim l.prim)))
  | .ident n => do return .ident (n.typed (← settle (← lookup Γ n)))
  | .tuple es m => do
    let es ← exprs Γ es
    return .tuple es (m.typed (.tuple (es.map Expr.ty)))
  | .unary op e m => do
    let e ← expr Γ e
    let t ← settle (← applyOperator op.builtin op.symbol [e.ty] m.span)
    return .unary op e (m.typed t)
  | .binary op l r m => do
    let l ← expr Γ l
    let r ← expr Γ r
    let t ← settle (← applyOperator op.symbol op.symbol [l.ty, r.ty] m.span)
    return .binary op l r (m.typed t)
  | .app f es m => do
    let f ← expr Γ f
    let es ← exprs Γ es
    let t ← settle (← application f es m.span)
    return .app f es (m.typed t)
  | .cond c y n m => do
    let c ← expr Γ c
    expect (.prim .bool) c.ty c.span "if condition"
    let y ← expr Γ y
    let n ← optional Γ n
    let (no, span, context) := otherwise y n
    let t ← settle (← join y.ty no span context)
    return .cond c y n (m.typed t)
  | .cases e as m => do
    let e ← expr Γ e
    let result ← fresh
    let as ← arms Γ e.ty result true as
    return .cases e as (m.typed (← resolve result))
  | .bind n h v b m => do
    let v ← expr Γ v
    annotate h v.ty m.span
    let t ← resolve v.ty
    match b with
    | none => return .bind (n.typed t) h v none (m.typed t)
    | some b =>
      let s ← generalize Γ t
      let b ← expr (Γ.insert n.text s) b
      return .bind (n.typed t) h v (some b) (m.typed b.ty)
  | .lam n ps h b r m => do
    let self ← fresh
    checkDistinct ps
    let (ps, bs) ← patterns ps
    let b ← expr ((bindName Γ n (.mono self)).extend bs) b
    let t := Ty.curried (ps.map Pattern.ty) b.ty
    expect self t m.span "recursive use of the function"
    annotate h t m.span
    let t ← resolve t
    let named := n.map (Name.typed · t)
    match r with
    | none => return .lam named ps h b none (m.typed t)
    | some r =>
      let s ← generalize Γ t
      let r ← expr (bindName Γ n s) r
      return .lam named ps h b (some r) (m.typed r.ty)
/-- Infer the types of a list of expressions, from left to right. -/
def exprs (Γ : Context) : List Expr → Infer (List Expr)
  | [] => pure []
  | e :: es => do
    let e ← expr Γ e
    return e :: (← exprs Γ es)
/-- Infer the type of a part that may be missing. -/
def optional (Γ : Context) : Option Expr → Infer (Option Expr)
  | none => pure none
  | some e => do return some (← expr Γ e)
/-- Infer the types of the arms for a scrutinee of a type, with a common
result type. An arm is reachable as long as no earlier one matches every
value. -/
def arms (Γ : Context) (scrutinee result : Ty) (reachable : Bool) : List Arm → Infer (List Arm)
  | [] => pure []
  | .mk p e span :: as => do
    checkReachable reachable span
    checkDistinct [p]
    let irrefutable := p.irrefutable
    let (p, bs) ← pattern p
    expect scrutinee p.ty p.span "match pattern"
    let e ← expr (Γ.extend bs) e
    expect result e.ty e.span "match arms"
    return .mk p e span :: (← arms Γ scrutinee result (reachable && !irrefutable) as)
end

end Infer
end MiniML
