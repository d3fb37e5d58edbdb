import MiniML.Proofs.Tree.Replace

/-!
# Free names

The names that a tree uses without binding them around the use. A pattern
binds its names in the body of its alternative, a function its own name and
its parameters in its body, and a `let` or a function with a rest its name
in what follows. The operator of a node is no name: it is not looked up where
names are.
-/
namespace MiniML

/-- The names that a function binds in its body. -/
def boundNames (n : Option Name) (ps : List Pattern) : List String :=
  n.toList.map Name.text ++ ps.flatMap Pattern.names

namespace Expr

mutual
/-- The names that a tree uses and does not bind. -/
def freeNames : Expr → List String
  | .const _ _ => []
  | .ident n => [n.text]
  | .tuple es _ => freeNamesAll es
  | .unary _ e _ => freeNames e
  | .binary _ l r _ => freeNames l ++ freeNames r
  | .app f es _ => freeNames f ++ freeNamesAll es
  | .cond t y n _ => freeNames t ++ freeNames y ++ freeNamesOption n
  | .cases e as _ => freeNames e ++ freeNamesArms as
  | .bind n _ v b _ => freeNames v ++ (freeNamesOption b).removeAll [n.text]
  | .lam n ps _ b r _ =>
    (freeNames b).removeAll (boundNames n ps) ++
      (freeNamesOption r).removeAll (n.toList.map Name.text)
/-- The free names of a list of trees. -/
def freeNamesAll : List Expr → List String
  | [] => []
  | e :: es => freeNames e ++ freeNamesAll es
/-- The free names of a part that may be missing. -/
def freeNamesOption : Option Expr → List String
  | none => []
  | some e => freeNames e
/-- The free names of a list of alternatives. -/
def freeNamesArms : List Arm → List String
  | [] => []
  | .mk p e _ :: as => (freeNames e).removeAll p.names ++ freeNamesArms as
end

theorem mem_removeAll {x : String} {xs ys : List String} :
    x ∈ xs.removeAll ys ↔ x ∈ xs ∧ x ∉ ys := by
  simp [List.removeAll]

variable {x : String}

theorem mem_freeNamesAll {es : List Expr} : x ∈ freeNamesAll es ↔ ∃ e ∈ es, x ∈ e.freeNames := by
  induction es <;> simp_all [freeNamesAll]

theorem mem_freeNamesOption {o : Option Expr} :
    x ∈ freeNamesOption o ↔ ∃ e ∈ o, x ∈ e.freeNames := by
  cases o <;> simp [freeNamesOption]

theorem mem_freeNamesArms {as : List Arm} :
    x ∈ freeNamesArms as ↔ ∃ a ∈ as, x ∈ a.body.freeNames ∧ x ∉ a.pattern.names := by
  induction as with
  | nil => simp [freeNamesArms]
  | cons a as ih =>
    obtain ⟨p, e, s⟩ := a
    simp [freeNamesArms, mem_removeAll, ih, Arm.body, Arm.pattern]

end Expr
end MiniML
