import MiniML.Ty.Text
/-!
# Type annotations

An annotation is a type as a program writes it: primitive types, named
variables, and `_` for a part that is left to be inferred. All occurrences
of a named variable in one annotation mean the same type.
-/
namespace MiniML

/-- A written type. -/
inductive Hint
  | prim (p : Prim)
  | var (name : String)
  | wildcard
  | fn (param result : Hint)
  | tuple (items : List Hint)
deriving Repr, Inhabited

namespace Hint

/-- Induction on annotations, with one hypothesis for each item of a tuple. -/
@[induction_eliminator]
theorem induct {motive : Hint → Prop}
    (prim : ∀ p, motive (.prim p))
    (var : ∀ name, motive (.var name))
    (wildcard : motive .wildcard)
    (fn : ∀ a b, motive a → motive b → motive (.fn a b))
    (tuple : ∀ hs, (∀ h ∈ hs, motive h) → motive (.tuple hs)) (h : Hint) : motive h :=
  Hint.rec (motive_2 := fun hs => ∀ h ∈ hs, motive h) prim var wildcard (fun a b => fn a b)
    (fun hs => tuple hs) (by simp)
    (fun h hs ih ihs g hg => by
      rcases List.mem_cons.mp hg with rfl | hg
      · exact ih
      · exact ihs g hg) h

/-- Whether this is a function annotation. -/
def isFn : Hint → Bool
  | .fn _ _ => true
  | _ => false

/-- Whether this is a tuple annotation. -/
def isTuple : Hint → Bool
  | .tuple _ => true
  | _ => false

mutual
/-- The text of an annotation. A function's parameter is in parentheses if
it is a function; so is a tuple's item that is a function or a tuple. -/
def text : Hint → String
  | .prim p => p.name
  | .var name => name
  | .wildcard => "_"
  | .fn a b => (if a.isFn then Ty.parens (text a) else text a) ++ " -> " ++ text b
  | .tuple hs => " * ".intercalate (itemTexts hs)
/-- The texts of the items of a tuple. -/
def itemTexts : List Hint → List String
  | [] => []
  | h :: hs => (if h.isFn || h.isTuple then Ty.parens (text h) else text h) :: itemTexts hs
end

/-- The annotation of a curried function from those of its parameters and
its result; none if nothing is annotated. -/
def ofFunction (params : List (Option Hint)) (result : Option Hint) : Option Hint :=
  if result.isNone && params.all Option.isNone then none
  else some (params.foldr (fun p acc => .fn (p.getD .wildcard) acc) (result.getD .wildcard))

end Hint
end MiniML
