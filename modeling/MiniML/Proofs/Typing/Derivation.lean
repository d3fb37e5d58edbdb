import MiniML.Proofs.Ty.Substitution
import MiniML.Typing.Infer

/-!
# Typing derivations

What it means for a tree to be typed, without unification, substitutions or
an order of steps. The tree is its own derivation: each slot holds the type
of its node, pattern or name, and `Typed Γ e` says that these types obey the
rule of every node. Two derivations of one tree differ in their slots only
(`Expr.blank`).

Types may contain variables. A name that is bound by a `let` or a function
with a rest has there, as its scheme, its type with exactly those variables
quantified that are not free in the context (`Generalizes`); inside itself a
function has its type unquantified.
-/
namespace MiniML

/-! ## Schemes and contexts -/

namespace Scheme

/-- `t` is the body with types of one's choice for the quantified variables,
and those of `θ` for the others. -/
def InstanceAt (θ : TyVar → Ty) (s : Scheme) (t : Ty) : Prop :=
  ∃ f : TyVar → Ty, (∀ v ∉ s.vars, f v = θ v) ∧ t = s.body.subst f

/-- `t` is the body with types of one's choice for the quantified variables. -/
def Instance (s : Scheme) (t : Ty) : Prop := s.InstanceAt .var t

/-- `v` appears in the scheme and is not quantified. -/
def Free (s : Scheme) (v : TyVar) : Prop := v ∈ s.body.leaves ∧ v ∉ s.vars

/-- Every variable of the scheme is quantified. -/
def Closed (s : Scheme) : Prop := ∀ v, ¬ s.Free v

end Scheme

namespace Context

/-- Every scheme of the context satisfies `P`. -/
def All (P : Scheme → Prop) (Γ : Context) : Prop := ∀ x s, Γ.get? x = some s → P s

/-- `v` is free in a scheme of the context. -/
def Free (Γ : Context) (v : TyVar) : Prop := ∃ x s, Γ.get? x = some s ∧ s.Free v

/-- No scheme of the context has a free variable. -/
def Closed (Γ : Context) : Prop := Γ.All Scheme.Closed

/-- No scheme of the context mentions the error type. -/
def ErrorFree (Γ : Context) : Prop := Γ.All fun s => s.body.errorFree = true

end Context

/-- `s` is `t` with exactly the variables quantified that are not free in
the context. -/
structure Generalizes (Γ : Context) (t : Ty) (s : Scheme) : Prop where
  body : s.body = t
  vars : ∀ v, v ∈ s.vars ↔ v ∈ t.leaves ∧ ¬ Γ.Free v

/-! ## Annotations -/

mutual
/-- `t` is what an annotation says, if `names` is what its names mean. Each
`_` may be a type of its own. -/
def Hint.Fits (names : String → Ty) : Hint → Ty → Prop
  | .prim p, t => t = .prim p
  | .var x, t => t = names x
  | .wildcard, _ => True
  | .fn a b, t => ∃ s u, t = .fn s u ∧ Hint.Fits names a s ∧ Hint.Fits names b u
  | .tuple hs, t => ∃ ts, t = .tuple ts ∧ Hint.FitItems names hs ts
/-- The types of a list are what a list of annotations says. -/
def Hint.FitItems (names : String → Ty) : List Hint → List Ty → Prop
  | [], ts => ts = []
  | h :: hs, ts => ∃ u us, ts = u :: us ∧ Hint.Fits names h u ∧ Hint.FitItems names hs us
end

/-- `t` is what an optional annotation says under some meaning of its names. -/
def Annotated (h : Option Hint) (t : Ty) : Prop := ∀ g ∈ h, ∃ names, g.Fits names t

/-! ## Patterns -/

namespace Pattern

/-- Literals and tuples have the type that their form gives them. -/
inductive Typed : Pattern → Prop
  | ident (n : Name) : Typed (.ident n)
  | wildcard (m : Mark) : Typed (.wildcard m)
  | literal {l : Literal} {m : Mark} : m.ty = .prim l.prim → Typed (.literal l m)
  | tuple {ps : List Pattern} {m : Mark} :
      (∀ p ∈ ps, Typed p) → m.ty = .tuple (ps.map Pattern.ty) → Typed (.tuple ps m)

mutual
/-- The names of a pattern with their types, from left to right. -/
def bindings : Pattern → List (String × Scheme)
  | .ident n => [(n.text, .mono n.mark.ty)]
  | .wildcard _ | .literal _ _ => []
  | .tuple ps _ => bindingsOfItems ps
/-- The names of the items with their types. -/
def bindingsOfItems : List Pattern → List (String × Scheme)
  | [] => []
  | p :: ps => bindings p ++ bindingsOfItems ps
end

theorem bindingsOfItems_eq (ps : List Pattern) : bindingsOfItems ps = ps.flatMap bindings := by
  induction ps <;> simp_all [bindingsOfItems]

end Pattern

/-! ## Expressions -/

/-- An operator takes arguments of these types to a result of type `t`. -/
def Operates (name : String) (args : List Ty) (t : Ty) : Prop :=
  ∃ s, Builtins.context.get? name = some s ∧ s.Instance (.curried args t)

/-- A function, apart from its body: `t` is its type, which its name and its
annotation have too. -/
structure FunctionOf (n : Option Name) (ps : List Pattern) (h : Option Hint) (b : Expr)
    (t : Ty) : Prop where
  params : ∀ p ∈ ps, p.Typed
  distinct : (ps.flatMap Pattern.names).Nodup
  ty : t = .curried (ps.map Pattern.ty) b.ty
  name : ∀ x ∈ n, x.mark.ty = t
  hint : Annotated h t

/-- The context of a function's body: the function itself, then its
parameters. -/
def insideFunction (Γ : Context) (n : Option Name) (ps : List Pattern) (t : Ty) : Context :=
  (Infer.bindName Γ n (.mono t)).extend (ps.flatMap Pattern.bindings)

/-- An alternative, apart from its body: its pattern has the type of the
scrutinee, and its body the type of the whole. -/
structure ArmOf (a : Arm) (scrutinee result : Ty) : Prop where
  pattern : a.pattern.Typed
  distinct : a.pattern.names.Nodup
  scrutinee : a.pattern.ty = scrutinee
  result : a.body.ty = result

/-- The type of the branch that is taken otherwise; unit, if it is missing. -/
def elseTy (no : Option Expr) : Ty := (no.map Expr.ty).getD .unit

/-- The slots of a tree are a derivation of its type. -/
inductive Typed : Context → Expr → Prop
  | const {Γ : Context} {l : Literal} {m : Mark} :
      m.ty = .prim l.prim → Typed Γ (.const l m)
  | ident {Γ : Context} {n : Name} {s : Scheme} :
      Γ.get? n.text = some s → s.Instance n.mark.ty → Typed Γ (.ident n)
  | tuple {Γ : Context} {es : List Expr} {m : Mark} :
      (∀ e ∈ es, Typed Γ e) → m.ty = .tuple (es.map Expr.ty) → Typed Γ (.tuple es m)
  | unary {Γ : Context} {op : UnaryOp} {e : Expr} {m : Mark} :
      Typed Γ e → Operates op.builtin [e.ty] m.ty → Typed Γ (.unary op e m)
  | binary {Γ : Context} {op : BinaryOp} {l r : Expr} {m : Mark} :
      Typed Γ l → Typed Γ r → Operates op.symbol [l.ty, r.ty] m.ty → Typed Γ (.binary op l r m)
  -- an application to no arguments is as good as its callee, if it can be one
  | app {Γ : Context} {f : Expr} {es : List Expr} {m : Mark} :
      Typed Γ f → (∀ e ∈ es, Typed Γ e) → f.ty = .curried (es.map Expr.ty) m.ty →
      (es = [] → Infer.neverFunction f = false) → Typed Γ (.app f es m)
  | cond {Γ : Context} {e y : Expr} {n : Option Expr} {m : Mark} :
      Typed Γ e → e.ty = .prim .bool → Typed Γ y → (∀ e ∈ n, Typed Γ e) → y.ty = m.ty →
      elseTy n = m.ty → Typed Γ (.cond e y n m)
  | cases {Γ : Context} {e : Expr} {as : List Arm} {m : Mark} :
      Typed Γ e → (∀ a ∈ as, ArmOf a e.ty m.ty) →
      (∀ a ∈ as, Typed (Γ.extend a.pattern.bindings) a.body) → Typed Γ (.cases e as m)
  | declare {Γ : Context} {n : Name} {h : Option Hint} {v : Expr} {m : Mark} :
      Typed Γ v → n.mark.ty = v.ty → Annotated h v.ty → m.ty = v.ty →
      Typed Γ (.bind n h v none m)
  | bind {Γ : Context} {n : Name} {h : Option Hint} {v b : Expr} {m : Mark} {s : Scheme} :
      Typed Γ v → n.mark.ty = v.ty → Annotated h v.ty → Generalizes Γ v.ty s →
      Typed (Γ.insert n.text s) b → m.ty = b.ty → Typed Γ (.bind n h v (some b) m)
  | lam {Γ : Context} {n : Option Name} {ps : List Pattern} {h : Option Hint} {b : Expr}
      {m : Mark} :
      FunctionOf n ps h b m.ty → Typed (insideFunction Γ n ps m.ty) b →
      Typed Γ (.lam n ps h b none m)
  | bindFun {Γ : Context} {n : Option Name} {ps : List Pattern} {h : Option Hint} {b r : Expr}
      {m : Mark} {t : Ty} {s : Scheme} :
      FunctionOf n ps h b t → Typed (insideFunction Γ n ps t) b → Generalizes Γ t s →
      Typed (Infer.bindName Γ n s) r → m.ty = r.ty → Typed Γ (.lam n ps h b (some r) m)

/-! ## Slots -/

mutual
/-- The contents of all slots of a pattern. -/
def Pattern.slots : Pattern → List Ty
  | .ident n => [n.mark.ty]
  | .wildcard m | .literal _ m => [m.ty]
  | .tuple ps m => m.ty :: Pattern.slotsOfItems ps
/-- The contents of all slots of a list of patterns. -/
def Pattern.slotsOfItems : List Pattern → List Ty
  | [] => []
  | p :: ps => p.slots ++ Pattern.slotsOfItems ps
end

namespace Expr

mutual
/-- The contents of all slots of a tree: of expressions, patterns and names. -/
def slots : Expr → List Ty
  | .const _ m => [m.ty]
  | .ident n => [n.mark.ty]
  | .tuple es m => m.ty :: slotsAll es
  | .unary _ e m => m.ty :: slots e
  | .binary _ l r m => m.ty :: (slots l ++ slots r)
  | .app f es m => m.ty :: (slots f ++ slotsAll es)
  | .cond t y n m => m.ty :: (slots t ++ slots y ++ slotsOption n)
  | .cases e as m => m.ty :: (slots e ++ slotsArms as)
  | .bind n _ v b m => m.ty :: n.mark.ty :: (slots v ++ slotsOption b)
  | .lam n ps _ b r m =>
    m.ty :: (n.toList.map (·.mark.ty) ++ Pattern.slotsOfItems ps ++ slots b ++ slotsOption r)
/-- The contents of all slots of a list of trees. -/
def slotsAll : List Expr → List Ty
  | [] => []
  | e :: es => slots e ++ slotsAll es
/-- The contents of all slots of a part that may be missing. -/
def slotsOption : Option Expr → List Ty
  | none => []
  | some e => slots e
/-- The contents of all slots of a list of alternatives. -/
def slotsArms : List Arm → List Ty
  | [] => []
  | .mk p e _ :: as => p.slots ++ slots e ++ slotsArms as
end

/-- The tree without the contents of its slots. -/
def blank (e : Expr) : Expr := e.mapTypes fun _ => .error

end Expr
end MiniML
