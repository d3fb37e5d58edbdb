import MiniML.Proofs.Typing.Slots

/-!
# The nodes of a tree

The expressions right below the root of a tree are its parts, and its nodes are the root
and the nodes of the parts. Something holds of all nodes if it holds of the root and of
all nodes of the parts (`Expr.forall_nodes`), and of all slots if it holds of those of the
root, of the names and patterns at the root, and of all slots of the parts
(`Expr.forall_slots`).

One of the parts is behind `in`: the body of a `let`, or the rest of a function
(`Expr.behindIn?`). The others are inside (`Expr.inner`).
-/
namespace MiniML.Expr

/-- The expressions right below the root that are not behind `in`, from left to right. -/
def inner : Expr → List Expr
  | .const _ _ | .ident _ => []
  | .tuple es _ => es
  | .unary _ e _ => [e]
  | .binary _ l r _ => [l, r]
  | .app f es _ => f :: es
  | .cond t y n _ => t :: y :: n.toList
  | .cases e as _ => e :: as.map Arm.body
  | .bind _ _ v _ _ => [v]
  | .lam _ _ _ b _ _ => [b]

/-- The expression behind `in`. -/
def behindIn? : Expr → Option Expr
  | .bind _ _ _ b _ => b
  | .lam _ _ _ _ r _ => r
  | _ => none

/-- The expressions right below the root, from left to right. -/
def parts (e : Expr) : List Expr := e.inner ++ e.behindIn?.toList

mutual
/-- All expressions in a tree, the whole one included. -/
def nodes : Expr → List Expr
  | .const l m => [.const l m]
  | .ident n => [.ident n]
  | .tuple es m => .tuple es m :: nodesAll es
  | .unary op e m => .unary op e m :: nodes e
  | .binary op l r m => .binary op l r m :: (nodes l ++ nodes r)
  | .app f es m => .app f es m :: (nodes f ++ nodesAll es)
  | .cond t y n m => .cond t y n m :: (nodes t ++ (nodes y ++ nodesOption n))
  | .cases e as m => .cases e as m :: (nodes e ++ nodesArms as)
  | .bind n h v b m => .bind n h v b m :: (nodes v ++ nodesOption b)
  | .lam n ps h b r m => .lam n ps h b r m :: (nodes b ++ nodesOption r)
/-- All expressions in a list of trees. -/
def nodesAll : List Expr → List Expr
  | [] => []
  | e :: es => nodes e ++ nodesAll es
/-- All expressions in a part that may be missing. -/
def nodesOption : Option Expr → List Expr
  | none => []
  | some e => nodes e
/-- All expressions in a list of alternatives. -/
def nodesArms : List Arm → List Expr
  | [] => []
  | .mk _ e _ :: as => nodes e ++ nodesArms as
end

theorem nodesAll_eq (es : List Expr) : nodesAll es = es.flatMap nodes := by
  induction es <;> simp_all [nodesAll]

theorem nodesOption_eq (o : Option Expr) : nodesOption o = o.toList.flatMap nodes := by
  cases o <;> simp [nodesOption]

theorem nodesArms_eq (as : List Arm) : nodesArms as = (as.map Arm.body).flatMap nodes := by
  induction as with
  | nil => rfl
  | cons a as ih =>
    obtain ⟨p, e, s⟩ := a
    rw [nodesArms, ih]
    rfl

theorem nodes_eq (e : Expr) : e.nodes = e :: e.parts.flatMap nodes := by
  cases e <;>
    simp [nodes, parts, inner, behindIn?, nodesAll_eq, nodesOption_eq, nodesArms_eq]

variable {P : Expr → Prop}

theorem mem_nodes_self (e : Expr) : e ∈ e.nodes := by
  rw [nodes_eq]
  exact List.mem_cons_self

/-- Induction on expressions, with one hypothesis for all parts. -/
theorem parts_induct {motive : Expr → Prop}
    (h : ∀ e, (∀ q ∈ e.parts, motive q) → motive e) (e : Expr) : motive e := by
  induction e with
  | const l m => exact h _ nofun
  | ident n => exact h _ nofun
  | tuple es m ih => exact h _ (by simpa [parts, inner, behindIn?] using ih)
  | unary op e m ih => exact h _ (by simpa [parts, inner, behindIn?] using ih)
  | binary op l r m hl hr => exact h _ (by simpa [parts, inner, behindIn?] using ⟨hl, hr⟩)
  | app f es m hf ih => exact h _ (by simpa [parts, inner, behindIn?] using ⟨hf, ih⟩)
  | cond t y n m ht hy hn => exact h _ (by simpa [parts, inner, behindIn?] using ⟨ht, hy, hn⟩)
  | cases e as m he ih => exact h _ (by simpa [parts, inner, behindIn?] using ⟨he, ih⟩)
  | bind n g v b m hv hb => exact h _ (by simpa [parts, inner, behindIn?] using ⟨hv, hb⟩)
  | lam n ps g b r m hb hr => exact h _ (by simpa [parts, inner, behindIn?] using ⟨hb, hr⟩)

/-- A node is the root, or right below another node. -/
theorem eq_or_exists_parent {e x : Expr} (hx : x ∈ e.nodes) :
    x = e ∨ ∃ p ∈ e.nodes, x ∈ p.parts := by
  induction e using parts_induct with
  | h e ih =>
    rw [nodes_eq] at hx ⊢
    rcases List.mem_cons.mp hx with rfl | hx
    · exact .inl rfl
    · obtain ⟨q, hq, hxq⟩ := List.mem_flatMap.mp hx
      refine .inr ?_
      rcases ih q hq hxq with rfl | ⟨p, hp, hxp⟩
      · exact ⟨e, List.mem_cons_self, hq⟩
      · exact ⟨p, List.mem_cons_of_mem _ (List.mem_flatMap.mpr ⟨q, hq, hp⟩), hxp⟩

/-- What holds of the root and in all parts holds everywhere. -/
theorem forall_nodes {e : Expr} :
    (∀ x ∈ e.nodes, P x) ↔ P e ∧ ∀ q ∈ e.parts, ∀ x ∈ q.nodes, P x := by
  rw [nodes_eq, List.forall_mem_cons]
  simp only [List.mem_flatMap]
  exact and_congr_right fun _ =>
    ⟨fun h q hq x hx => h x ⟨q, hq, hx⟩, fun h x ⟨q, hq, hx⟩ => h q hq x hx⟩

/-! ## Slots -/

/-- The slots of the root, and of the names and patterns at it. -/
def ownSlots : Expr → List Ty
  | .cases _ as m => m.ty :: as.flatMap (·.pattern.slots)
  | .bind n _ _ _ m => [m.ty, n.mark.ty]
  | .lam n ps _ _ _ m => m.ty :: (n.toList.map (·.mark.ty) ++ ps.flatMap Pattern.slots)
  | e => [e.ty]

theorem mem_slots {t : Ty} {e : Expr} :
    t ∈ e.slots ↔ t ∈ e.ownSlots ∨ ∃ q ∈ e.parts, t ∈ q.slots := by
  cases e with
  | const l m => simp [slots, ownSlots, parts, inner, behindIn?, ty, mark]
  | ident n => simp [slots, ownSlots, parts, inner, behindIn?, ty, mark]
  | tuple es m => simp [slots, ownSlots, parts, inner, behindIn?, ty, mark, slotsAll_eq]
  | unary op e m => simp [slots, ownSlots, parts, inner, behindIn?, ty, mark]
  | binary op l r m => simp [slots, ownSlots, parts, inner, behindIn?, ty, mark]
  | app f es m => simp [slots, ownSlots, parts, inner, behindIn?, ty, mark, slotsAll_eq]
  | cond c y n m => simp [slots, ownSlots, parts, inner, behindIn?, ty, mark, slotsOption_eq]
  | cases e as m =>
    simp only [slots, ownSlots, parts, inner, behindIn?, slotsArms_eq, List.mem_cons,
      List.mem_append, List.mem_flatMap, List.mem_map]
    grind
  | bind n h v b m => simp [slots, ownSlots, parts, inner, behindIn?, slotsOption_eq, or_assoc]
  | lam n ps h b r m =>
    simp [slots, ownSlots, parts, inner, behindIn?, slotsOption_eq, Pattern.slotsOfItems_eq,
      or_assoc]

/-- What holds of the own slots of the root and of all slots of the parts holds of all slots. -/
theorem forall_slots {P : Ty → Prop} {e : Expr} (hown : ∀ t ∈ e.ownSlots, P t)
    (hparts : ∀ q ∈ e.parts, ∀ t ∈ q.slots, P t) : ∀ t ∈ e.slots, P t := by
  intro t ht
  rcases mem_slots.mp ht with ht | ⟨q, hq, ht⟩
  · exact hown t ht
  · exact hparts q hq t ht

end MiniML.Expr
