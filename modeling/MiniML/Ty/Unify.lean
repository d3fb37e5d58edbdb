import MiniML.Ty.Subst
/-!
# Unification

Two types are unified by taking equal constructors apart until only
equations remain that have a variable on one side or different constructors
on the two. The first of these is solved by binding its variable, which is
then replaced in the others; this takes away one variable each time, so
there are at most as many rounds as variables.

The error type unifies with everything and binds nothing.

A failure keeps the bindings made before it, and says which two types, as
they are under these bindings, do not go together.
-/
namespace MiniML

/-- Why two types do not unify. -/
inductive UnifyError
  | mismatch (expected found : Ty)
  | tupleArity (expected found : Ty)
  | occurs (v : TyVar) (t : Ty)
deriving DecidableEq, Repr

/-- The text of a unification error. -/
def UnifyError.message : UnifyError → String
  | .mismatch s t => "cannot unify " ++ s.pretty ++ " with " ++ t.pretty
  | .tupleArity s t =>
    "cannot unify " ++ s.pretty ++ " with " ++ t.pretty ++ ": tuples of different arity"
  | .occurs v t =>
    "occurs check: cannot construct infinite type " ++ Ty.varText v ++ " = " ++ t.pretty

/-- A step that extends a substitution, and may fail half way. -/
abbrev Solving := EStateM UnifyError Subst

/-- An equation between two types. -/
abbrev Equation := Ty × Ty

mutual
/-- The equations that remain of one when equal constructors are taken
apart, from left to right. -/
def residue : Ty → Ty → List Equation
  | .error, _ => []
  | _, .error => []
  | .prim p, .prim q => if p = q then [] else [(.prim p, .prim q)]
  | .var v, .var w => if v = w then [] else [(.var v, .var w)]
  | .fn a b, .fn c d => residue a c ++ residue b d
  | .tuple ts, .tuple us =>
    if ts.length = us.length then residues ts us else [(.tuple ts, .tuple us)]
  | s, t => [(s, t)]
/-- The equations that remain of two lists of types, item by item. -/
def residues : List Ty → List Ty → List Equation
  | t :: ts, u :: us => residue t u ++ residues ts us
  | _, _ => []
end

/-- The variable of an equation and its other side; a variable on the left
comes first. -/
def orient : Equation → Option (TyVar × Ty)
  | (.var v, t) => some (v, t)
  | (s, .var v) => some (v, s)
  | _ => none

/-- What is wrong with an equation of two different constructors. -/
def clash : Equation → UnifyError
  | (.tuple ts, .tuple us) => .tupleArity (.tuple ts) (.tuple us)
  | (s, t) => .mismatch s t

/-- Replace a variable in the remaining equations. -/
def eliminate (v : TyVar) (u : Ty) (eqs : List Equation) : List Equation :=
  eqs.flatMap fun e => residue (e.1.replace v u) (e.2.replace v u)

/-- Solve the remaining equations from left to right, in at most `n` rounds
of binding a variable. -/
def solve : Nat → List Equation → Solving Unit
  | _, [], σ => .ok () σ
  | n, e :: eqs, σ =>
    match orient e with
    | none => .error (clash e) σ
    | some (v, t) =>
      if t.occurs v then .error (.occurs v t) σ
      else
        match n with
        | 0 => .ok () σ
        | n + 1 => solve n (eliminate v t eqs) (σ.assign v t)

/-- The variables of a list of equations, each once. -/
def unknowns (eqs : List Equation) : List TyVar :=
  ascending (eqs.flatMap fun e => e.1.leaves ++ e.2.leaves)

/-- Extend a substitution so that it makes two types equal. -/
def unify (s t : Ty) : Solving Unit := fun σ =>
  let eqs := residue (σ.apply s) (σ.apply t)
  solve (unknowns eqs).length eqs σ

/-- Record `v := t`, if `v` does not appear in `t`. To bind a variable to
itself changes nothing. -/
def Subst.bind (v : TyVar) (t : Ty) : Solving Unit := fun σ =>
  let t := σ.apply t
  if t = .var v then .ok () σ
  else if t.occurs v then .error (.occurs v t) σ
  else .ok () (σ.assign v t)

end MiniML
