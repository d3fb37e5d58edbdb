import MiniML.Source.Span
import MiniML.Literal
import MiniML.Hint
import MiniML.Tree.Operator
/-!
# Syntax trees

A program is a list of declarations, and a declaration is an expression.
Every node carries a mark: its span, and a slot for its type. A tree that
was only read has the error type in all slots; checking fills them in.

A `let` without a body and a named function without a rest declare their
names. They stand at the top of a declaration, or behind `in`; each other
`let` has a body.
-/
namespace MiniML

/-- Where a node is, and its type. -/
structure Mark where
  span : Span := {}
  ty : Ty := .error
deriving DecidableEq, Repr, Inhabited

/-- A name at a place, with its type. -/
structure Name where
  text : String
  mark : Mark
deriving DecidableEq, Repr, Inhabited

/-- The same mark with another type. -/
def Mark.typed (m : Mark) (t : Ty) : Mark := { m with ty := t }

/-- The same name with another type. -/
def Name.typed (n : Name) (t : Ty) : Name := { n with mark := n.mark.typed t }

/-! ## Patterns -/

/-- What a value is matched with. -/
inductive Pattern
  | ident (name : Name)
  | wildcard (mark : Mark)
  | literal (value : Literal) (mark : Mark)
  | tuple (items : List Pattern) (mark : Mark)
deriving Repr, Inhabited

namespace Pattern

/-- The mark of a pattern. -/
def mark : Pattern → Mark
  | .ident n => n.mark
  | .wildcard m | .literal _ m | .tuple _ m => m

/-- Where a pattern is. -/
def span (p : Pattern) : Span := p.mark.span

/-- The type of a pattern. -/
def ty (p : Pattern) : Ty := p.mark.ty

mutual
/-- Whether a pattern matches every value of its type. -/
def irrefutable : Pattern → Bool
  | .ident _ | .wildcard _ => true
  | .literal _ _ => false
  | .tuple ps _ => allIrrefutable ps
/-- Whether all items match every value. -/
def allIrrefutable : List Pattern → Bool
  | [] => true
  | p :: ps => irrefutable p && allIrrefutable ps
end

mutual
/-- The names that a pattern binds, from left to right. -/
def names : Pattern → List String
  | .ident n => [n.text]
  | .wildcard _ | .literal _ _ => []
  | .tuple ps _ => namesOfItems ps
/-- The names that the items bind. -/
def namesOfItems : List Pattern → List String
  | [] => []
  | p :: ps => names p ++ namesOfItems ps
end

end Pattern

/-! ## Expressions -/

mutual
/-- Expressions. An application has at least one argument and a function at
least one parameter. The annotation of a function is that of the whole
function type; the type of a named function is kept at its name, and the
node has the type of the rest, if there is one. -/
inductive Expr
  | const (value : Literal) (mark : Mark)
  | ident (name : Name)
  | tuple (items : List Expr) (mark : Mark)
  | unary (op : UnaryOp) (operand : Expr) (mark : Mark)
  | binary (op : BinaryOp) (left right : Expr) (mark : Mark)
  | app (callee : Expr) (args : List Expr) (mark : Mark)
  | cond (test yes : Expr) (no : Option Expr) (mark : Mark)
  | cases (scrutinee : Expr) (arms : List Arm) (mark : Mark)
  | bind (name : Name) (hint : Option Hint) (value : Expr) (body : Option Expr) (mark : Mark)
  | lam (name : Option Name) (params : List Pattern) (hint : Option Hint) (body : Expr)
      (rest : Option Expr) (mark : Mark)
deriving Repr
/-- One alternative of a case distinction. -/
inductive Arm
  | mk (pattern : Pattern) (body : Expr) (span : Span)
deriving Repr
end

namespace Expr

instance : Inhabited Expr := ⟨.const .unit {}⟩

/-- The mark of an expression. -/
def mark : Expr → Mark
  | .ident n => n.mark
  | .const _ m | .tuple _ m | .unary _ _ m | .binary _ _ _ m | .app _ _ m | .cond _ _ _ m
  | .cases _ _ m | .bind _ _ _ _ m | .lam _ _ _ _ _ m => m

/-- Where an expression is. -/
def span (e : Expr) : Span := e.mark.span

/-- The type of an expression. -/
def ty (e : Expr) : Ty := e.mark.ty

/-- What kind of expression this is, as a message names it. -/
def describe : Expr → String
  | .const _ _ => "a constant"
  | .ident _ => "an identifier"
  | .tuple _ _ => "a tuple"
  | .unary _ _ _ => "a unary operation"
  | .binary _ _ _ _ => "a binary operation"
  | .app _ _ _ => "an application"
  | .cond _ _ _ _ => "an if expression"
  | .cases _ _ _ => "a match expression"
  | .bind _ _ _ _ _ => "a let binding"
  | .lam _ _ _ _ _ _ => "a function"

/-- The name that a declaration introduces. -/
def declared? : Expr → Option Name
  | .bind n _ _ none _ => some n
  | .lam n _ _ _ none _ => n
  | _ => none

end Expr

namespace Arm

/-- The pattern of an arm. -/
def pattern : Arm → Pattern
  | .mk p _ _ => p

/-- The body of an arm. -/
def body : Arm → Expr
  | .mk _ e _ => e

/-- Where an arm is. -/
def span : Arm → Span
  | .mk _ _ s => s

end Arm

namespace Pattern

/-- Induction on patterns, with one hypothesis for each item of a tuple. -/
@[induction_eliminator]
theorem induct {motive : Pattern → Prop}
    (ident : ∀ n, motive (.ident n))
    (wildcard : ∀ m, motive (.wildcard m))
    (literal : ∀ l m, motive (.literal l m))
    (tuple : ∀ ps m, (∀ p ∈ ps, motive p) → motive (.tuple ps m)) (p : Pattern) : motive p :=
  Pattern.rec (motive_2 := fun ps => ∀ p ∈ ps, motive p) ident wildcard literal
    (fun ps m => tuple ps m) (by simp)
    (fun p ps hp hps q hq => by
      rcases List.mem_cons.mp hq with rfl | hq
      · exact hp
      · exact hps q hq) p

mutual
/-- Change the type in every slot. -/
def mapTypes (f : Ty → Ty) : Pattern → Pattern
  | .ident n => .ident (n.typed (f n.mark.ty))
  | .wildcard m => .wildcard (m.typed (f m.ty))
  | .literal l m => .literal l (m.typed (f m.ty))
  | .tuple ps m => .tuple (mapTypesItems f ps) (m.typed (f m.ty))
/-- Change the types of all items. -/
def mapTypesItems (f : Ty → Ty) : List Pattern → List Pattern
  | [] => []
  | p :: ps => mapTypes f p :: mapTypesItems f ps
end

end Pattern

namespace Expr

/-- Induction on expressions, with one hypothesis for each part. -/
@[induction_eliminator]
theorem induct {motive : Expr → Prop}
    (const : ∀ l m, motive (.const l m))
    (ident : ∀ n, motive (.ident n))
    (tuple : ∀ es m, (∀ e ∈ es, motive e) → motive (.tuple es m))
    (unary : ∀ op e m, motive e → motive (.unary op e m))
    (binary : ∀ op l r m, motive l → motive r → motive (.binary op l r m))
    (app : ∀ f es m, motive f → (∀ e ∈ es, motive e) → motive (.app f es m))
    (cond : ∀ t y n m, motive t → motive y → (∀ e ∈ n, motive e) → motive (.cond t y n m))
    (cases : ∀ e arms m, motive e → (∀ a ∈ arms, motive a.body) → motive (.cases e arms m))
    (bind : ∀ n h v b m, motive v → (∀ e ∈ b, motive e) → motive (.bind n h v b m))
    (lam : ∀ n ps h b r m, motive b → (∀ e ∈ r, motive e) → motive (.lam n ps h b r m))
    (e : Expr) : motive e :=
  Expr.rec (motive_2 := fun a => motive a.body) (motive_3 := fun es => ∀ e ∈ es, motive e)
    (motive_4 := fun o => ∀ e ∈ o, motive e) (motive_5 := fun arms => ∀ a ∈ arms, motive a.body)
    const ident (fun es m => tuple es m) unary binary (fun f es m => app f es m)
    (fun t y n m => cond t y n m) (fun e arms m => cases e arms m)
    (fun n h v b m => bind n h v b m) (fun n ps h b r m => lam n ps h b r m)
    (fun _ _ _ h => h) (by simp)
    (fun e es he hes d hd => by
      rcases List.mem_cons.mp hd with rfl | hd
      · exact he
      · exact hes d hd)
    (by simp) (fun e he d hd => by cases hd; exact he) (by simp)
    (fun a arms ha harms b hb => by
      rcases List.mem_cons.mp hb with rfl | hb
      · exact ha
      · exact harms b hb) e

mutual
/-- Change the type in every slot: of expressions, patterns and names. -/
def mapTypes (f : Ty → Ty) : Expr → Expr
  | .const l m => .const l (m.typed (f m.ty))
  | .ident n => .ident (n.typed (f n.mark.ty))
  | .tuple es m => .tuple (mapTypesAll f es) (m.typed (f m.ty))
  | .unary op e m => .unary op (mapTypes f e) (m.typed (f m.ty))
  | .binary op l r m => .binary op (mapTypes f l) (mapTypes f r) (m.typed (f m.ty))
  | .app g es m => .app (mapTypes f g) (mapTypesAll f es) (m.typed (f m.ty))
  | .cond t y n m => .cond (mapTypes f t) (mapTypes f y) (mapTypesOption f n) (m.typed (f m.ty))
  | .cases e arms m => .cases (mapTypes f e) (mapTypesArms f arms) (m.typed (f m.ty))
  | .bind n h v b m =>
    .bind (n.typed (f n.mark.ty)) h (mapTypes f v) (mapTypesOption f b) (m.typed (f m.ty))
  | .lam n ps h b r m =>
    .lam (n.map fun n => n.typed (f n.mark.ty)) (Pattern.mapTypesItems f ps) h (mapTypes f b)
      (mapTypesOption f r) (m.typed (f m.ty))
/-- Change the types of all expressions of a list. -/
def mapTypesAll (f : Ty → Ty) : List Expr → List Expr
  | [] => []
  | e :: es => mapTypes f e :: mapTypesAll f es
/-- Change the types of a part that may be missing. -/
def mapTypesOption (f : Ty → Ty) : Option Expr → Option Expr
  | none => none
  | some e => some (mapTypes f e)
/-- Change the types of all arms. -/
def mapTypesArms (f : Ty → Ty) : List Arm → List Arm
  | [] => []
  | .mk p e s :: arms => .mk (Pattern.mapTypes f p) (mapTypes f e) s :: mapTypesArms f arms
end

end Expr

/-- A program is the list of its declarations. -/
abbrev Program := List Expr

end MiniML
