import MiniML.Proofs.Typing.Slots

/-!
# Outlines

The outline of a tree keeps, of each node, its span and the outlines of its parts, in
the order in which they are written: names that are bound, patterns and expressions.
Trees that differ in their slots only have the same outline (`Expr.outline_of_blank`).
-/
namespace MiniML

/-- A span, and the outlines of the parts. -/
inductive Outline
  | node (span : Span) (parts : List Outline)

namespace Outline

/-- The span of the whole. -/
def span : Outline → Span
  | .node s _ => s

/-- The outline of a single token. -/
def leaf (s : Span) : Outline := .node s []

mutual
/-- All spans: of the whole, and of what is in its parts. -/
def spans : Outline → List Span
  | .node s parts => s :: spansAll parts
/-- All spans of a list of outlines. -/
def spansAll : List Outline → List Span
  | [] => []
  | o :: os => spans o ++ spansAll os
end

theorem spansAll_eq (os : List Outline) : spansAll os = os.flatMap spans := by
  induction os <;> simp_all [spansAll]

theorem spans_node (s : Span) (parts : List Outline) :
    spans (.node s parts) = s :: parts.flatMap spans := by
  rw [spans, spansAll_eq]

theorem span_mem_spans (o : Outline) : o.span ∈ o.spans := by
  cases o with
  | node s parts => exact List.mem_cons_self

end Outline

/-- The outline of a name. -/
def Name.outline (n : Name) : Outline := .leaf n.mark.span

@[simp] theorem Name.outline_typed (n : Name) (t : Ty) : (n.typed t).outline = n.outline := rfl

/-! ## Patterns -/

namespace Pattern

mutual
/-- The outline of a pattern. -/
def outline : Pattern → Outline
  | .ident n => n.outline
  | .wildcard m | .literal _ m => .leaf m.span
  | .tuple ps m => .node m.span (outlines ps)
/-- The outlines of the items. -/
def outlines : List Pattern → List Outline
  | [] => []
  | p :: ps => outline p :: outlines ps
end

theorem outlines_eq (ps : List Pattern) : outlines ps = ps.map outline := by
  induction ps <;> simp_all [outlines]

@[simp] theorem outline_span (p : Pattern) : p.outline.span = p.span := by
  cases p <;> rfl

@[simp] theorem outline_mapTypes (f : Ty → Ty) (p : Pattern) :
    (p.mapTypes f).outline = p.outline := by
  induction p with
  | ident n => rfl
  | wildcard m => rfl
  | literal l m => rfl
  | tuple ps m ih =>
    simp only [mapTypes, outline, mapTypesItems_eq, outlines_eq, List.map_map]
    exact congrArg _ (List.map_congr_left ih)

end Pattern

/-! ## Expressions -/

namespace Expr

mutual
/-- The outline of an expression. -/
def outline : Expr → Outline
  | .const _ m => .leaf m.span
  | .ident n => n.outline
  | .tuple es m => .node m.span (outlines es)
  | .unary _ e m => .node m.span [outline e]
  | .binary _ l r m => .node m.span [outline l, outline r]
  | .app f es m => .node m.span (outline f :: outlines es)
  | .cond t y n m => .node m.span (outline t :: outline y :: outlinesOption n)
  | .cases e as m => .node m.span (outline e :: outlinesArms as)
  | .bind n _ v b m => .node m.span (n.outline :: outline v :: outlinesOption b)
  | .lam n ps _ b r m =>
    .node m.span (n.toList.map Name.outline ++ ps.map Pattern.outline ++
      (outline b :: outlinesOption r))
/-- The outlines of a list of expressions. -/
def outlines : List Expr → List Outline
  | [] => []
  | e :: es => outline e :: outlines es
/-- The outline of a part that may be missing. -/
def outlinesOption : Option Expr → List Outline
  | none => []
  | some e => [outline e]
/-- The outlines of arms. -/
def outlinesArms : List Arm → List Outline
  | [] => []
  | .mk p e s :: as => .node s [p.outline, outline e] :: outlinesArms as
end

end Expr

/-- The outline of an arm. -/
def Arm.outline (a : Arm) : Outline := .node a.span [a.pattern.outline, a.body.outline]

namespace Expr

theorem outlines_eq (es : List Expr) : outlines es = es.map outline := by
  induction es <;> simp_all [outlines]

theorem outlinesOption_eq (o : Option Expr) : outlinesOption o = o.toList.map outline := by
  cases o <;> simp [outlinesOption]

theorem outlinesArms_eq (as : List Arm) : outlinesArms as = as.map Arm.outline := by
  induction as with
  | nil => rfl
  | cons a as ih =>
    obtain ⟨p, e, s⟩ := a
    rw [outlinesArms, ih]
    rfl

@[simp] theorem outline_span (e : Expr) : e.outline.span = e.span := by
  cases e <;> simp only [outline] <;> rfl

theorem outline_mapTypes (f : Ty → Ty) (e : Expr) : (e.mapTypes f).outline = e.outline := by
  have hlist : ∀ es : List Expr, (∀ e ∈ es, (e.mapTypes f).outline = e.outline) →
      es.map (outline ∘ mapTypes f) = es.map outline := fun es h => List.map_congr_left h
  have hopt : ∀ o : Option Expr, (∀ e ∈ o, (e.mapTypes f).outline = e.outline) →
      (o.map (mapTypes f)).toList.map outline = o.toList.map outline := by
    rintro (_ | e) h
    · rfl
    · simp [h e rfl]
  induction e with
  | const l m => rfl
  | ident n => rfl
  | tuple es m ih =>
    simp only [mapTypes, outline, mapTypesAll_eq, outlines_eq, List.map_map, hlist es ih]
    rfl
  | unary op e m ih =>
    simp only [mapTypes, outline, ih]
    rfl
  | binary op l r m hl hr =>
    simp only [mapTypes, outline, hl, hr]
    rfl
  | app g es m hg ih =>
    simp only [mapTypes, outline, mapTypesAll_eq, outlines_eq, List.map_map, hg, hlist es ih]
    rfl
  | cond t y n m ht hy hn =>
    simp only [mapTypes, outline, mapTypesOption_eq, outlinesOption_eq, ht, hy, hopt n hn]
    rfl
  | cases e as m he has =>
    have harms : as.map (Arm.outline ∘ Arm.mapTypes f) = as.map Arm.outline := by
      refine List.map_congr_left fun a ha => ?_
      show Outline.node a.span [(a.pattern.mapTypes f).outline, (a.body.mapTypes f).outline] = _
      rw [Pattern.outline_mapTypes, has a ha]
      rfl
    simp only [mapTypes, outline, mapTypesArms_eq, outlinesArms_eq, List.map_map, he, harms]
    rfl
  | bind n h v b m hv hb =>
    simp only [mapTypes, outline, mapTypesOption_eq, outlinesOption_eq, hv, hopt b hb,
      Name.outline_typed]
    rfl
  | lam n ps h b r m hb hr =>
    have hn : (n.map fun n => n.typed (f n.mark.ty)).toList.map Name.outline =
        n.toList.map Name.outline := by cases n <;> rfl
    have hps : (ps.map (Pattern.mapTypes f)).map Pattern.outline = ps.map Pattern.outline := by
      simp [Function.comp_def]
    simp only [mapTypes, outline, mapTypesOption_eq, outlinesOption_eq, Pattern.mapTypesItems_eq,
      hn, hps, hb, hopt r hr]
    rfl

/-- The outline does not depend on the slots. -/
theorem outline_of_blank {d e : Expr} (h : d.blank = e.blank) : d.outline = e.outline := by
  rw [← outline_mapTypes (fun _ => .error) d, ← outline_mapTypes (fun _ => .error) e]
  exact congrArg outline h

theorem span_of_blank {d e : Expr} (h : d.blank = e.blank) : d.span = e.span := by
  rw [← outline_span d, ← outline_span e, outline_of_blank h]

end Expr
end MiniML
