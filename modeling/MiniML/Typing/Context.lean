import MiniML.Ty.Subst
/-!
# Typing contexts

A context gives names their type schemes. To enter a scope is to extend the
context, and the outer one stays as it was.

The numbers of type variables are bounded: there is no variable after the
last number, and to ask for one is an error of its own.
-/
namespace MiniML

/-- The type variables are used up. -/
inductive Exhausted
  | typeVariables
deriving DecidableEq, Repr

/-- The last number of a type variable, `2 ^ 32 - 1`. -/
def lastVar : TyVar := 4294967295

/-- The variable after another one. -/
def succVar (v : TyVar) : Except Exhausted TyVar :=
  if v < lastVar then .ok (v + 1) else .error .typeVariables

/-- Type schemes by name. -/
abbrev Context := FinMap String Scheme

namespace Context

/-- Bind several names, from left to right. -/
def extend (Γ : Context) (bs : List (String × Scheme)) : Context := Γ.insertMany bs

/-- The variables that are free in a scheme of the context, under a
substitution: those that belong to an enclosing scope. -/
def free (Γ : Context) (σ : Subst) : List TyVar :=
  ascending (Γ.values.flatMap fun s => (σ.applyScheme s).free)

/-- The variable after all those that the context mentions. -/
def nextUnused (Γ : Context) : Except Exhausted TyVar :=
  match (Γ.values.flatMap Scheme.mentioned).max? with
  | none => .ok 0
  | some v => succVar v

/-- Put a binding into a list in ascending order of names. -/
def insertSorted (b : String × Scheme) : List (String × Scheme) → List (String × Scheme)
  | [] => [b]
  | c :: cs => if b.1 < c.1 then b :: c :: cs else c :: insertSorted b cs

/-- The bindings in ascending order of names. -/
def sorted (Γ : Context) : List (String × Scheme) := Γ.entries.foldr insertSorted []

/-- The bindings that another context does not have, in ascending order of
names. -/
def beyond (Γ root : Context) : List (String × Scheme) :=
  (sorted Γ).filter fun (name, s) => root.get? name ≠ some s

end Context
end MiniML
