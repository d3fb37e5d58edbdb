import MiniML.FinMap
import MiniML.Ty.Scheme
/-!
# Substitutions

A substitution binds finitely many type variables. Applying it follows
bindings into the bound types, so that the chain `0 := 1, 1 := int` takes
variable 0 to `int`; renaming replaces each variable once.

Following bindings ends when no chain returns to a variable that it came
from. A chain then meets each bound variable at most once, so following as
many bindings as there are is following all of them.
-/
namespace MiniML

/-- A finite map from type variables to types. -/
abbrev Subst := FinMap TyVar Ty

namespace Subst

/-- Replace each bound variable once. -/
def rename (σ : Subst) (t : Ty) : Ty := t.subst fun v => (σ.get? v).getD (.var v)

/-- Follow bindings, at most `n` of them one behind the other. -/
def follow (σ : Subst) : Nat → Ty → Ty
  | 0, t => t
  | n + 1, t => t.subst fun v =>
    match σ.get? v with
    | some u => σ.follow n u
    | none => .var v

/-- Replace each bound variable, also in what replaced it. -/
def apply (σ : Subst) (t : Ty) : Ty := σ.follow σ.size t

/-- Apply a substitution to a scheme's unquantified variables. -/
def applyScheme (σ : Subst) (s : Scheme) : Scheme :=
  { s with body := Subst.apply (s.vars.foldl FinMap.erase σ) s.body }

/-- First `ρ`, then `σ`: the bindings of `ρ` with `σ` applied to them, and
those of `σ`, which win. -/
def compose (σ ρ : Subst) : Subst := (ρ.mapValues σ.apply).override σ

/-- Bind a variable, in the types bound so far too. -/
def assign (σ : Subst) (v : TyVar) (t : Ty) : Subst := compose (FinMap.singleton v t) σ

end Subst
end MiniML
