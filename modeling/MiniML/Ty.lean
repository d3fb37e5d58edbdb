/-!
# Types

Types are built from variables, single-argument functions, tuples and the
primitive types. The type `error` stands for a part that could not be typed
because of an earlier mistake; it unifies with everything.

Variables are numbered. `Ty.subst` replaces all variables of a type at once;
everything that rewrites variables is defined from it.

Results:
* `Ty.induct`: induction on types, with one hypothesis per tuple item.
* `subst_subst`, `subst_var`: substitution is associative and has a unit.
-/
namespace MiniML

/-- The primitive types. -/
inductive Prim
  | unit | int | float | string | char | bool
deriving DecidableEq, Repr, Inhabited

namespace Prim

/-- The name of a primitive type in annotations and messages. -/
def name : Prim → String
  | .unit => "unit"
  | .int => "int"
  | .float => "float"
  | .string => "string"
  | .char => "char"
  | .bool => "bool"

/-- All primitive types. -/
def all : List Prim := [.unit, .int, .float, .string, .char, .bool]

/-- The primitive type of a name. -/
def ofName? (s : String) : Option Prim := all.find? fun p => p.name = s

theorem ofName?_name (p : Prim) : ofName? p.name = some p := by cases p <;> rfl

end Prim

/-- Type variables are numbered. -/
abbrev TyVar := Nat

/-- Types. A function of several arguments is a chain of `fn`. -/
inductive Ty
  | var (v : TyVar)
  | fn (param result : Ty)
  | tuple (items : List Ty)
  | prim (p : Prim)
  | error
deriving Repr, Inhabited

namespace Ty

/-- Induction on types, with one hypothesis for each item of a tuple. -/
@[induction_eliminator]
theorem induct {motive : Ty → Prop}
    (var : ∀ v, motive (.var v))
    (fn : ∀ a b, motive a → motive b → motive (.fn a b))
    (tuple : ∀ ts, (∀ t ∈ ts, motive t) → motive (.tuple ts))
    (prim : ∀ p, motive (.prim p))
    (error : motive .error) (t : Ty) : motive t :=
  Ty.rec (motive_2 := fun ts => ∀ t ∈ ts, motive t) var (fun a b => fn a b)
    (fun ts => tuple ts) prim error (by simp)
    (fun t ts ht hts u hu => by
      rcases List.mem_cons.mp hu with rfl | hu
      · exact ht
      · exact hts u hu) t

/-! ## Equality -/

mutual
/-- Whether two types are the same. -/
def same : Ty → Ty → Bool
  | .var v, .var w => v == w
  | .fn a b, .fn c d => same a c && same b d
  | .tuple ts, .tuple us => sameItems ts us
  | .prim p, .prim q => p == q
  | .error, .error => true
  | _, _ => false
/-- Whether two lists of types are the same. -/
def sameItems : List Ty → List Ty → Bool
  | [], [] => true
  | t :: ts, u :: us => same t u && sameItems ts us
  | _, _ => false
end

theorem same_iff (t u : Ty) : same t u = true ↔ t = u := by
  refine Ty.rec (motive_1 := fun t => ∀ u, same t u = true ↔ t = u)
    (motive_2 := fun ts => ∀ us, sameItems ts us = true ↔ ts = us)
    ?_ ?_ ?_ ?_ ?_ ?_ ?_ t u
  · intro v u; cases u <;> simp [same]
  · intro a b ha hb u; cases u <;> simp [same, ha, hb]
  · intro ts hts u; cases u <;> simp [same, hts]
  · intro p u; cases u <;> simp [same]
  · intro u; cases u <;> simp [same]
  · intro us; cases us <;> simp [sameItems]
  · intro t ts ht hts us; cases us <;> simp [sameItems, ht, hts]

instance : DecidableEq Ty := fun t u => decidable_of_iff _ (same_iff t u)

/-! ## Shape -/

/-- The type of the empty tuple. -/
abbrev unit : Ty := .prim .unit

/-- The chain `p₁ -> … -> pₙ -> result`. -/
def curried (params : List Ty) (result : Ty) : Ty := params.foldr .fn result

/-- The number of arrows along the spine. -/
def arity : Ty → Nat
  | .fn _ b => 1 + b.arity
  | _ => 0

/-- Whether this is a function type. -/
def isFn : Ty → Bool
  | .fn _ _ => true
  | _ => false

/-- Whether this is a tuple type. -/
def isTuple : Ty → Bool
  | .tuple _ => true
  | _ => false

/-- Whether this is the error type. -/
def isError : Ty → Bool
  | .error => true
  | _ => false

/-! ## Variables -/

mutual
/-- Every occurrence of a variable, from left to right. -/
def leaves : Ty → List TyVar
  | .var v => [v]
  | .fn a b => leaves a ++ leaves b
  | .tuple ts => leavesItems ts
  | .prim _ | .error => []
/-- Every occurrence of a variable in a list of types. -/
def leavesItems : List Ty → List TyVar
  | [] => []
  | t :: ts => leaves t ++ leavesItems ts
end

/-- The variables in the order of their first appearance. -/
def vars (t : Ty) : List TyVar := t.leaves.eraseDups

/-- Whether a variable appears. -/
def occurs (v : TyVar) (t : Ty) : Bool := t.leaves.contains v

mutual
/-- Replace every variable by its image. -/
def subst (f : TyVar → Ty) : Ty → Ty
  | .var v => f v
  | .fn a b => .fn (subst f a) (subst f b)
  | .tuple ts => .tuple (substItems f ts)
  | .prim p => .prim p
  | .error => .error
/-- Replace the variables of every item. -/
def substItems (f : TyVar → Ty) : List Ty → List Ty
  | [] => []
  | t :: ts => subst f t :: substItems f ts
end

/-- Replace one variable. -/
def replace (t : Ty) (v : TyVar) (u : Ty) : Ty :=
  t.subst fun w => if w = v then u else .var w

theorem leavesItems_eq (ts : List Ty) : leavesItems ts = ts.flatMap leaves := by
  induction ts <;> simp_all [leavesItems]

theorem substItems_eq (f : TyVar → Ty) (ts : List Ty) : substItems f ts = ts.map (subst f) := by
  induction ts <;> simp_all [substItems]

theorem subst_var (t : Ty) : t.subst .var = t := by
  induction t with
  | var v => rfl
  | fn a b ha hb => simp [subst, ha, hb]
  | tuple ts ih =>
    simp only [subst, substItems_eq, tuple.injEq]
    exact (List.map_congr_left ih).trans (List.map_id ts)
  | prim p => rfl
  | error => rfl

theorem subst_subst (f g : TyVar → Ty) (t : Ty) :
    (t.subst f).subst g = t.subst fun v => (f v).subst g := by
  induction t with
  | var v => rfl
  | fn a b ha hb => simp [subst, ha, hb]
  | tuple ts ih =>
    simp only [subst, substItems_eq, List.map_map, tuple.injEq]
    exact List.map_congr_left ih
  | prim p => rfl
  | error => rfl

end Ty

/-! ## Sets of variables

A set of variables is listed in ascending order. -/

/-- Put a variable into an ascending list, unless it is there. -/
def insertVar (v : TyVar) : List TyVar → List TyVar
  | [] => [v]
  | w :: ws => if v < w then v :: w :: ws else if v = w then w :: ws else w :: insertVar v ws

/-- The variables of a list, in ascending order. -/
def ascending (vs : List TyVar) : List TyVar := vs.foldr insertVar []

theorem mem_insertVar {v w : TyVar} {ws : List TyVar} :
    v ∈ insertVar w ws ↔ v = w ∨ v ∈ ws := by
  induction ws with
  | nil => simp [insertVar]
  | cons u us ih =>
    simp only [insertVar]
    split
    · simp
    · split
      · simp_all
      · simp only [List.mem_cons, ih, or_left_comm]

theorem mem_ascending {v : TyVar} {vs : List TyVar} : v ∈ ascending vs ↔ v ∈ vs := by
  induction vs with
  | nil => simp [ascending]
  | cons w ws ih => simpa [ascending, mem_insertVar] using or_congr_right ih

/-- The variables of a type, in ascending order. -/
def Ty.free (t : Ty) : List TyVar := ascending t.leaves

end MiniML
