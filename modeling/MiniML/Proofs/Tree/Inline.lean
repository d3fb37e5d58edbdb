import MiniML.Proofs.Tree.FreeNames

/-!
# Inlining

A tree in place of the free occurrences of a name. Nothing is renamed, so a
binder around an occurrence may capture a free name of the tree that is put
there; `Expr.around` lists the names that are bound around some occurrence, and
as long as none of them is free in the tree, no name is captured.
-/
namespace MiniML
namespace Expr

mutual
/-- The tree with `r` in place of every free occurrence of `x`. -/
def inline (x : String) (r : Expr) : Expr → Expr
  | .const l m => .const l m
  | .ident n => if n.text = x then r else .ident n
  | .tuple es m => .tuple (inlineAll x r es) m
  | .unary op e m => .unary op (inline x r e) m
  | .binary op a b m => .binary op (inline x r a) (inline x r b) m
  | .app f es m => .app (inline x r f) (inlineAll x r es) m
  | .cond t y n m => .cond (inline x r t) (inline x r y) (inlineOption x r n) m
  | .cases e as m => .cases (inline x r e) (inlineArms x r as) m
  | .bind n h v b m =>
    .bind n h (inline x r v) (if x ∈ [n.text] then b else inlineOption x r b) m
  | .lam n ps h b q m =>
    .lam n ps h (if x ∈ boundNames n ps then b else inline x r b)
      (if x ∈ n.toList.map Name.text then q else inlineOption x r q) m
/-- The same in every tree of a list. -/
def inlineAll (x : String) (r : Expr) : List Expr → List Expr
  | [] => []
  | e :: es => inline x r e :: inlineAll x r es
/-- The same in a part that may be missing. -/
def inlineOption (x : String) (r : Expr) : Option Expr → Option Expr
  | none => none
  | some e => some (inline x r e)
/-- The same in the bodies of alternatives. -/
def inlineArms (x : String) (r : Expr) : List Arm → List Arm
  | [] => []
  | .mk p e s :: as => .mk p (if x ∈ p.names then e else inline x r e) s :: inlineArms x r as
end

mutual
/-- The names that are bound in a tree around some free occurrence of `x`. -/
def around (x : String) : Expr → List String
  | .const _ _ | .ident _ => []
  | .tuple es _ => aroundAll x es
  | .unary _ e _ => around x e
  | .binary _ l r _ => around x l ++ around x r
  | .app f es _ => around x f ++ aroundAll x es
  | .cond t y n _ => around x t ++ around x y ++ aroundOption x n
  | .cases e as _ => around x e ++ aroundArms x as
  | .bind n _ v b _ =>
    around x v ++
      if x ∈ (freeNamesOption b).removeAll [n.text] then n.text :: aroundOption x b else []
  | .lam n ps _ b r _ =>
    (if x ∈ (freeNames b).removeAll (boundNames n ps) then boundNames n ps ++ around x b else []) ++
      if x ∈ (freeNamesOption r).removeAll (n.toList.map Name.text) then
        n.toList.map Name.text ++ aroundOption x r
      else []
/-- The names that are bound so in the trees of a list. -/
def aroundAll (x : String) : List Expr → List String
  | [] => []
  | e :: es => around x e ++ aroundAll x es
/-- The names that are bound so in a part that may be missing. -/
def aroundOption (x : String) : Option Expr → List String
  | none => []
  | some e => around x e
/-- The names that alternatives bind so, and those that are bound so in their
bodies. -/
def aroundArms (x : String) : List Arm → List String
  | [] => []
  | .mk p e _ :: as =>
    (if x ∈ (freeNames e).removeAll p.names then p.names ++ around x e else []) ++ aroundArms x as
end

mutual
/-- Whether each application in a tree has an argument. -/
def callsHaveArgs : Expr → Bool
  | .const _ _ | .ident _ => true
  | .tuple es _ => callsHaveArgsAll es
  | .unary _ e _ => callsHaveArgs e
  | .binary _ l r _ => callsHaveArgs l && callsHaveArgs r
  | .app f es _ => !es.isEmpty && (callsHaveArgs f && callsHaveArgsAll es)
  | .cond t y n _ => callsHaveArgs t && (callsHaveArgs y && callsHaveArgsOption n)
  | .cases e as _ => callsHaveArgs e && callsHaveArgsArms as
  | .bind _ _ v b _ => callsHaveArgs v && callsHaveArgsOption b
  | .lam _ _ _ b r _ => callsHaveArgs b && callsHaveArgsOption r
/-- Whether each application in the trees of a list has an argument. -/
def callsHaveArgsAll : List Expr → Bool
  | [] => true
  | e :: es => callsHaveArgs e && callsHaveArgsAll es
/-- Whether each application in a part that may be missing has an argument. -/
def callsHaveArgsOption : Option Expr → Bool
  | none => true
  | some e => callsHaveArgs e
/-- Whether each application in the bodies of alternatives has an argument. -/
def callsHaveArgsArms : List Arm → Bool
  | [] => true
  | .mk _ e _ :: as => callsHaveArgs e && callsHaveArgsArms as
end

/-- Each occurrence of `x` that is free in `d` and that `bs` leaves free is one in
`e`, and there the names `bs` are around it as well as those in `d`. -/
def Within (x : String) (bs : List String) (d e : Expr) : Prop :=
  x ∈ d.freeNames → x ∉ bs → x ∈ e.freeNames ∧ ∀ y ∈ bs ++ d.around x, y ∈ e.around x

variable {x y : String} {r : Expr}

theorem inlineAll_eq (es : List Expr) : inlineAll x r es = es.map (inline x r) := by
  induction es <;> simp_all [inlineAll]

theorem inlineOption_eq (o : Option Expr) : inlineOption x r o = o.map (inline x r) := by
  cases o <;> rfl

theorem inlineArms_eq (as : List Arm) : inlineArms x r as = as.map fun a =>
    .mk a.pattern (if x ∈ a.pattern.names then a.body else inline x r a.body) a.span := by
  induction as with
  | nil => rfl
  | cons a as ih => obtain ⟨p, e, s⟩ := a; rw [inlineArms, ih]; rfl

theorem mem_aroundAll {es : List Expr} : y ∈ aroundAll x es ↔ ∃ e ∈ es, y ∈ e.around x := by
  induction es <;> simp_all [aroundAll]

theorem mem_aroundOption {o : Option Expr} : y ∈ aroundOption x o ↔ ∃ e ∈ o, y ∈ e.around x := by
  cases o <;> simp [aroundOption]

theorem mem_aroundArms {as : List Arm} : y ∈ aroundArms x as ↔ ∃ a ∈ as,
    x ∈ a.body.freeNames.removeAll a.pattern.names ∧
      y ∈ a.pattern.names ++ a.body.around x := by
  induction as with
  | nil => simp [aroundArms]
  | cons a as ih =>
    obtain ⟨p, e, s⟩ := a
    rw [aroundArms, List.mem_append, ih, List.exists_mem_cons_iff]
    refine or_congr ?_ .rfl
    show y ∈ (if x ∈ e.freeNames.removeAll p.names then p.names ++ around x e else []) ↔
      x ∈ e.freeNames.removeAll p.names ∧ y ∈ p.names ++ e.around x
    split <;> simp_all

theorem callsHaveArgsAll_iff {es : List Expr} :
    callsHaveArgsAll es = true ↔ ∀ e ∈ es, e.callsHaveArgs = true := by
  induction es <;> simp_all [callsHaveArgsAll]

theorem callsHaveArgsOption_iff {o : Option Expr} :
    callsHaveArgsOption o = true ↔ ∀ e ∈ o, e.callsHaveArgs = true := by
  cases o <;> simp [callsHaveArgsOption]

theorem callsHaveArgsArms_iff {as : List Arm} :
    callsHaveArgsArms as = true ↔ ∀ a ∈ as, a.body.callsHaveArgs = true := by
  induction as with
  | nil => simp [callsHaveArgsArms]
  | cons a as ih => obtain ⟨p, e, s⟩ := a; simp [callsHaveArgsArms, ih, Arm.body]

end Expr
end MiniML
