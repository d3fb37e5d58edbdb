import MiniML.Proofs.Typing.Run

/-!
# What inference makes of slots

Inference never reads the slots of the tree that it is given (`expr_mapTypes`),
and returns that tree with other slots (`expr_blank`). So two trees with the
same blank have the same runs, and a derivation of a tree may stand for the
tree itself.
-/
namespace MiniML

-- the recursions over trees unfold at their constructors throughout
attribute [local simp] Pattern.mapTypes Pattern.names Pattern.slots Pattern.bindings
  Pattern.irrefutable Expr.mapTypes Expr.slots

@[simp] theorem Mark.typed_typed (m : Mark) (t u : Ty) : (m.typed t).typed u = m.typed u := rfl

@[simp] theorem Mark.typed_ty (m : Mark) (t : Ty) : (m.typed t).ty = t := rfl

@[simp] theorem Mark.typed_span (m : Mark) (t : Ty) : (m.typed t).span = m.span := rfl

@[simp] theorem Name.typed_typed (n : Name) (t u : Ty) : (n.typed t).typed u = n.typed u := rfl

@[simp] theorem Name.typed_text (n : Name) (t : Ty) : (n.typed t).text = n.text := rfl

@[simp] theorem Name.typed_ty (n : Name) (t : Ty) : (n.typed t).mark.ty = t := rfl

/-! ## Patterns -/

namespace Pattern

variable {f g : Ty → Ty}

theorem mapTypesItems_eq (f : Ty → Ty) (ps : List Pattern) :
    mapTypesItems f ps = ps.map (mapTypes f) := by
  induction ps <;> simp_all [mapTypesItems]

theorem namesOfItems_eq (ps : List Pattern) : namesOfItems ps = ps.flatMap names := by
  induction ps <;> simp_all [namesOfItems]

theorem slotsOfItems_eq (ps : List Pattern) : slotsOfItems ps = ps.flatMap slots := by
  induction ps <;> simp_all [slotsOfItems]

@[simp] theorem mapTypes_ty (f : Ty → Ty) (p : Pattern) : (p.mapTypes f).ty = f p.ty := by
  cases p <;> rfl

@[simp] theorem mapTypes_span (f : Ty → Ty) (p : Pattern) : (p.mapTypes f).span = p.span := by
  cases p <;> rfl

@[simp] theorem mapTypes_mapTypes (f g : Ty → Ty) (p : Pattern) :
    (p.mapTypes f).mapTypes g = p.mapTypes fun t => g (f t) := by
  induction p with
  | ident n => rfl
  | wildcard m => rfl
  | literal l m => rfl
  | tuple ps m ih =>
    simp only [mapTypes, mapTypesItems_eq, List.map_map, Mark.typed_typed, Mark.typed_ty,
      tuple.injEq, and_true]
    exact List.map_congr_left ih

@[simp] theorem mapTypes_names (f : Ty → Ty) (p : Pattern) : (p.mapTypes f).names = p.names := by
  induction p with
  | ident n => rfl
  | wildcard m => rfl
  | literal l m => rfl
  | tuple ps m ih =>
    simp only [mapTypes, names, mapTypesItems_eq, namesOfItems_eq, List.flatMap_map]
    exact List.flatMap_congr ih

theorem allIrrefutable_eq (ps : List Pattern) : allIrrefutable ps = ps.all irrefutable := by
  induction ps <;> simp_all [allIrrefutable]

@[simp] theorem mapTypes_irrefutable (f : Ty → Ty) (p : Pattern) :
    (p.mapTypes f).irrefutable = p.irrefutable := by
  induction p with
  | ident n => rfl
  | wildcard m => rfl
  | literal l m => rfl
  | tuple ps m ih =>
    simp only [mapTypes, irrefutable, mapTypesItems_eq, allIrrefutable_eq, List.all_map]
    exact Bool.eq_iff_iff.mpr (by simp only [List.all_eq_true]; grind)

theorem mapTypes_slots (f : Ty → Ty) (p : Pattern) : (p.mapTypes f).slots = p.slots.map f := by
  induction p with
  | ident n => rfl
  | wildcard m => rfl
  | literal l m => rfl
  | tuple ps m ih =>
    simp only [mapTypes, slots, mapTypesItems_eq, slotsOfItems_eq, List.flatMap_map, List.map_cons,
      List.map_flatMap, Mark.typed_ty]
    exact congrArg (f m.ty :: ·) (List.flatMap_congr ih)

theorem mapTypes_congr {p : Pattern} (h : ∀ t ∈ p.slots, f t = g t) :
    p.mapTypes f = p.mapTypes g := by
  induction p with
  | ident n => simp only [mapTypes, h _ (List.mem_singleton.mpr rfl)]
  | wildcard m => simp only [mapTypes, h _ (List.mem_singleton.mpr rfl)]
  | literal l m => simp only [mapTypes, h _ (List.mem_singleton.mpr rfl)]
  | tuple ps m ih =>
    simp only [slots, slotsOfItems_eq, List.mem_cons, List.mem_flatMap, forall_eq_or_imp] at h
    simp only [mapTypes, mapTypesItems_eq, h.1]
    congr 1
    exact List.map_congr_left fun p hp => ih p hp fun t ht => h.2 t ⟨p, hp, ht⟩

theorem mapTypes_id (p : Pattern) : (p.mapTypes fun t => t) = p := by
  induction p with
  | ident n => rfl
  | wildcard m => rfl
  | literal l m => rfl
  | tuple ps m ih =>
    rw [mapTypes, mapTypesItems_eq, List.map_congr_left ih, List.map_id']
    rfl

theorem mapTypes_bindings (f : Ty → Ty) (p : Pattern) :
    (p.mapTypes f).bindings = p.bindings.map fun b => (b.1, { b.2 with body := f b.2.body }) := by
  induction p with
  | ident n => rfl
  | wildcard m => rfl
  | literal l m => rfl
  | tuple ps m ih =>
    simp only [mapTypes, bindings, mapTypesItems_eq, bindingsOfItems_eq, List.flatMap_map,
      List.map_flatMap]
    exact List.flatMap_congr ih

/-- A pattern binds its names, from left to right. -/
theorem bindings_names (p : Pattern) : p.bindings.map Prod.fst = p.names := by
  induction p with
  | ident n => rfl
  | wildcard m => rfl
  | literal l m => rfl
  | tuple ps m ih =>
    simp only [bindings, names, bindingsOfItems_eq, namesOfItems_eq, List.map_flatMap]
    exact List.flatMap_congr ih

theorem flatMap_bindings_names (ps : List Pattern) :
    (ps.flatMap bindings).map Prod.fst = ps.flatMap names := by
  rw [List.map_flatMap, List.flatMap_congr fun p _ => p.bindings_names]

theorem Typed.mapTypes {p : Pattern} (h : p.Typed) (hprim : ∀ q, f (.prim q) = .prim q)
    (htuple : ∀ ts, f (.tuple ts) = .tuple (ts.map f)) : (p.mapTypes f).Typed := by
  induction h with
  | ident n => exact .ident _
  | wildcard m => exact .wildcard _
  | literal h => exact .literal (by rw [Mark.typed_ty, h, hprim])
  | tuple _ h ih =>
    rw [Pattern.mapTypes, mapTypesItems_eq]
    refine .tuple (by simpa using ih) ?_
    rw [Mark.typed_ty, h, htuple, List.map_map, List.map_map]
    congr 1
    exact List.map_congr_left fun p _ => (mapTypes_ty f p).symm

/-- The contents of every slot satisfy `P`. -/
def All (P : Ty → Prop) (p : Pattern) : Prop := ∀ t ∈ p.slots, P t

/-- No slot of a pattern contains the error type. -/
def Clean (p : Pattern) : Prop := ∀ t ∈ p.slots, t.errorFree = true

theorem ty_mem_slots (p : Pattern) : p.ty ∈ p.slots := by
  cases p <;> exact List.mem_cons_self

theorem Clean.ty {p : Pattern} (h : p.Clean) : p.ty.errorFree = true := h _ p.ty_mem_slots

end Pattern

/-! ## Expressions -/

/-- Change the type in every slot of an alternative. -/
def Arm.mapTypes (f : Ty → Ty) (a : Arm) : Arm :=
  .mk (a.pattern.mapTypes f) (a.body.mapTypes f) a.span

namespace Expr

theorem mapTypesAll_eq (f : Ty → Ty) (es : List Expr) : mapTypesAll f es = es.map (mapTypes f) := by
  induction es <;> simp_all [mapTypesAll]

theorem mapTypesOption_eq (f : Ty → Ty) (o : Option Expr) :
    mapTypesOption f o = o.map (mapTypes f) := by
  cases o <;> rfl

theorem mapTypesArms_eq (f : Ty → Ty) (as : List Arm) :
    mapTypesArms f as = as.map (Arm.mapTypes f) := by
  induction as with
  | nil => rfl
  | cons a as ih => obtain ⟨p, e, s⟩ := a; rw [mapTypesArms, ih]; rfl

theorem slotsAll_eq (es : List Expr) : slotsAll es = es.flatMap slots := by
  induction es <;> simp_all [slotsAll]

theorem slotsOption_eq (o : Option Expr) : slotsOption o = o.toList.flatMap slots := by
  cases o <;> simp [slotsOption]

theorem slotsArms_eq (as : List Arm) :
    slotsArms as = as.flatMap fun a => a.pattern.slots ++ a.body.slots := by
  induction as with
  | nil => rfl
  | cons a as ih => obtain ⟨p, e, s⟩ := a; rw [slotsArms, ih]; rfl

@[simp] theorem mapTypes_ty (f : Ty → Ty) (e : Expr) : (e.mapTypes f).ty = f e.ty := by
  cases e <;> rfl

@[simp] theorem mapTypes_span (f : Ty → Ty) (e : Expr) : (e.mapTypes f).span = e.span := by
  cases e <;> rfl

@[simp] theorem mapTypes_describe (f : Ty → Ty) (e : Expr) :
    (e.mapTypes f).describe = e.describe := by
  cases e <;> rfl

theorem declared?_mapTypes (f : Ty → Ty) (e : Expr) :
    (e.mapTypes f).declared? = e.declared?.map fun n => n.typed (f n.mark.ty) := by
  cases e with
  | bind n h v b m => cases b <;> rfl
  | lam n ps h b r m => cases r <;> rfl
  | _ => rfl

/-- The name that a tree declares does not depend on its slots. -/
theorem declared?_of_blank {d e : Expr} (h : d.blank = e.blank) :
    d.declared?.map Name.text = e.declared?.map Name.text := by
  have hmap := congrArg (fun e : Expr => e.declared?.map Name.text) h
  simpa [blank, declared?_mapTypes, Function.comp_def] using hmap

theorem mapTypes_mapTypes (f g : Ty → Ty) (e : Expr) :
    (e.mapTypes f).mapTypes g = e.mapTypes fun t => g (f t) := by
  have hopt : ∀ o : Option Expr, (∀ e ∈ o, (e.mapTypes f).mapTypes g = e.mapTypes fun t => g (f t)) →
      (o.map (mapTypes f)).map (mapTypes g) = o.map (mapTypes fun t => g (f t)) := by
    rintro (_ | e) h
    · rfl
    · exact congrArg some (h e rfl)
  induction e with
  | const l m => rfl
  | ident n => rfl
  | tuple es m ih =>
    simp only [mapTypes, mapTypesAll_eq, List.map_map, Mark.typed_typed, Mark.typed_ty]
    congr 1
    exact List.map_congr_left ih
  | unary op e m ih => simp only [mapTypes, ih, Mark.typed_typed, Mark.typed_ty]
  | binary op l r m hl hr => simp only [mapTypes, hl, hr, Mark.typed_typed, Mark.typed_ty]
  | app h es m hh ih =>
    simp only [mapTypes, mapTypesAll_eq, List.map_map, hh, Mark.typed_typed, Mark.typed_ty]
    congr 1
    exact List.map_congr_left ih
  | cond t y n m ht hy hn =>
    simp only [mapTypes, mapTypesOption_eq, ht, hy, hopt n hn, Mark.typed_typed, Mark.typed_ty]
  | cases e as m he has =>
    simp only [mapTypes, mapTypesArms_eq, List.map_map, he, Mark.typed_typed, Mark.typed_ty]
    congr 1
    refine List.map_congr_left fun a ha => ?_
    show Arm.mk ((a.pattern.mapTypes f).mapTypes g) ((a.body.mapTypes f).mapTypes g) a.span = _
    rw [Pattern.mapTypes_mapTypes, has a ha]
    rfl
  | bind n h v b m hv hb =>
    simp only [mapTypes, mapTypesOption_eq, hv, hopt b hb, Mark.typed_typed, Mark.typed_ty,
      Name.typed_typed, Name.typed_ty]
  | lam n ps h b r m hb hr =>
    simp only [mapTypes, mapTypesOption_eq, Pattern.mapTypesItems_eq, List.map_map, hb, hopt r hr,
      Mark.typed_typed, Mark.typed_ty]
    congr 1
    · cases n <;> rfl
    · exact List.map_congr_left fun p _ => Pattern.mapTypes_mapTypes f g p

theorem mapTypes_slots (f : Ty → Ty) (e : Expr) : (e.mapTypes f).slots = e.slots.map f := by
  have hopt : ∀ o : Option Expr, (∀ e ∈ o, (e.mapTypes f).slots = e.slots.map f) →
      (o.map (mapTypes f)).toList.flatMap slots = o.toList.flatMap fun e => e.slots.map f := by
    rintro (_ | e) h
    · rfl
    · simp [h e rfl]
  induction e with
  | const l m => rfl
  | ident n => rfl
  | tuple es m ih =>
    simp only [mapTypes, slots, mapTypesAll_eq, slotsAll_eq, List.flatMap_map, List.map_cons,
      List.map_flatMap, Mark.typed_ty, List.flatMap_congr ih]
  | unary op e m ih => simp only [mapTypes, slots, ih, List.map_cons, Mark.typed_ty]
  | binary op l r m hl hr =>
    simp only [mapTypes, slots, hl, hr, List.map_cons, List.map_append, Mark.typed_ty]
  | app h es m hh ih =>
    simp only [mapTypes, slots, mapTypesAll_eq, slotsAll_eq, List.flatMap_map, List.map_cons,
      List.map_append, List.map_flatMap, hh, Mark.typed_ty, List.flatMap_congr ih]
  | cond t y n m ht hy hn =>
    simp only [mapTypes, slots, mapTypesOption_eq, slotsOption_eq, hopt n hn, List.map_cons,
      List.map_append, List.map_flatMap, ht, hy, Mark.typed_ty]
  | cases e as m he has =>
    simp only [mapTypes, slots, mapTypesArms_eq, slotsArms_eq, List.flatMap_map, List.map_cons,
      List.map_append, List.map_flatMap, he, Mark.typed_ty]
    congr 2
    refine List.flatMap_congr fun a ha => ?_
    rw [← has a ha, ← Pattern.mapTypes_slots]
    rfl
  | bind n h v b m hv hb =>
    simp only [mapTypes, slots, mapTypesOption_eq, slotsOption_eq, hopt b hb, List.map_cons,
      List.map_append, List.map_flatMap, hv, Mark.typed_ty, Name.typed_ty]
  | lam n ps h b r m hb hr =>
    simp only [mapTypes, slots, mapTypesOption_eq, slotsOption_eq, Pattern.mapTypesItems_eq,
      Pattern.slotsOfItems_eq, hopt r hr, List.flatMap_map, List.map_cons, List.map_append,
      List.map_flatMap, hb, Mark.typed_ty, Pattern.mapTypes_slots]
    cases n <;> rfl

/-- Only what the slots hold matters. -/
theorem mapTypes_congr {f g : Ty → Ty} {e : Expr} (h : ∀ t ∈ e.slots, f t = g t) :
    e.mapTypes f = e.mapTypes g := by
  have hopt : ∀ o : Option Expr, (∀ e ∈ o, e.mapTypes f = e.mapTypes g) →
      o.map (mapTypes f) = o.map (mapTypes g) := by
    rintro (_ | e) h
    · rfl
    · exact congrArg some (h e rfl)
  induction e with
  | const l m => simp only [mapTypes, h m.ty (by simp)]
  | ident n => simp only [mapTypes, h n.mark.ty (by simp)]
  | tuple es m ih =>
    simp only [slots, slotsAll_eq, List.mem_cons, List.mem_flatMap, forall_eq_or_imp] at h
    simp only [mapTypes, mapTypesAll_eq, h.1]
    rw [List.map_congr_left fun e he => ih e he fun t ht => h.2 t ⟨e, he, ht⟩]
  | unary op e m ih =>
    simp only [slots, List.forall_mem_cons] at h
    simp only [mapTypes, h.1, ih h.2]
  | binary op l r m hl hr =>
    simp only [slots, List.forall_mem_cons, List.forall_mem_append] at h
    simp only [mapTypes, h.1, hl h.2.1, hr h.2.2]
  | app k es m hk ih =>
    simp only [slots, slotsAll_eq, List.forall_mem_cons, List.forall_mem_append,
      List.forall_mem_flatMap] at h
    simp only [mapTypes, mapTypesAll_eq, h.1, hk h.2.1]
    rw [List.map_congr_left fun e he => ih e he (h.2.2 e he)]
  | cond t y n m ht hy hn =>
    simp only [slots, slotsOption_eq, List.forall_mem_cons, List.forall_mem_append,
      List.forall_mem_flatMap, Option.mem_toList] at h
    simp only [mapTypes, mapTypesOption_eq, h.1, ht h.2.1.1, hy h.2.1.2,
      hopt n fun e he => hn e he (h.2.2 e he)]
  | cases e as m he has =>
    simp only [slots, slotsArms_eq, List.forall_mem_cons, List.forall_mem_append,
      List.forall_mem_flatMap] at h
    simp only [mapTypes, mapTypesArms_eq, h.1, he h.2.1]
    congr 1
    refine List.map_congr_left fun a ha => ?_
    rw [Arm.mapTypes, Arm.mapTypes, Pattern.mapTypes_congr (h.2.2 a ha).1,
      has a ha (h.2.2 a ha).2]
  | bind n h' v b m hv hb =>
    simp only [slots, slotsOption_eq, List.forall_mem_cons, List.forall_mem_append,
      List.forall_mem_flatMap, Option.mem_toList] at h
    simp only [mapTypes, mapTypesOption_eq, h.1, h.2.1, hv h.2.2.1,
      hopt b fun e he => hb e he (h.2.2.2 e he)]
  | lam n ps h' b r m hb hr =>
    simp only [slots, slotsOption_eq, Pattern.slotsOfItems_eq, List.forall_mem_cons,
      List.forall_mem_append, List.forall_mem_flatMap, Option.mem_toList] at h
    obtain ⟨hm, ⟨⟨hn, hps⟩, hbody⟩, hrest⟩ := h
    simp only [mapTypes, mapTypesOption_eq, Pattern.mapTypesItems_eq, hm, hb hbody,
      hopt r fun e he => hr e he (hrest e he)]
    congr 1
    · cases n with
      | none => rfl
      | some n => simp only [Option.map_some, hn n.mark.ty (by simp)]
    · exact List.map_congr_left fun p hp => Pattern.mapTypes_congr (hps p hp)

theorem mapTypes_id (e : Expr) : (e.mapTypes fun t => t) = e := by
  have hopt : ∀ o : Option Expr, (∀ e ∈ o, (e.mapTypes fun t => t) = e) →
      o.map (mapTypes fun t => t) = o := by
    rintro (_ | e) h
    · rfl
    · exact congrArg some (h e rfl)
  induction e with
  | const l m => rfl
  | ident n => rfl
  | tuple es m ih =>
    rw [mapTypes, mapTypesAll_eq, List.map_congr_left ih, List.map_id']
    rfl
  | unary op e m ih => rw [mapTypes, ih]; rfl
  | binary op l r m hl hr => rw [mapTypes, hl, hr]; rfl
  | app k es m hk ih =>
    rw [mapTypes, hk, mapTypesAll_eq, List.map_congr_left ih, List.map_id']
    rfl
  | cond t y n m ht hy hn => rw [mapTypes, ht, hy, mapTypesOption_eq, hopt n hn]; rfl
  | cases e as m he has =>
    have harm : ∀ a ∈ as, a.mapTypes (fun t => t) = a := by
      rintro ⟨p, e, s⟩ ha
      rw [Arm.mapTypes, has _ ha, Pattern.mapTypes_id]
      rfl
    rw [mapTypes, he, mapTypesArms_eq, List.map_congr_left harm, List.map_id']
    rfl
  | bind n h v b m hv hb => rw [mapTypes, hv, mapTypesOption_eq, hopt b hb]; rfl
  | lam n ps h b r m hb hr =>
    rw [mapTypes, hb, mapTypesOption_eq, hopt r hr, Pattern.mapTypesItems_eq,
      List.map_congr_left fun p _ => p.mapTypes_id, List.map_id']
    cases n <;> rfl

theorem ty_mem_slots (e : Expr) : e.ty ∈ e.slots := by
  cases e <;> exact List.mem_cons_self

/-- No slot contains the error type. -/
def Clean (e : Expr) : Prop := ∀ t ∈ e.slots, t.errorFree = true

theorem Clean.ty {e : Expr} (h : e.Clean) : e.ty.errorFree = true := h _ e.ty_mem_slots

/-- The contents of every slot satisfy `P`. -/
def All (P : Ty → Prop) (e : Expr) : Prop := ∀ t ∈ e.slots, P t

section All

variable {P : Ty → Prop} {m : Mark}

theorem All.ty {e : Expr} (h : e.All P) : P e.ty := h _ e.ty_mem_slots

theorem all_const {l : Literal} : (const l m).All P ↔ P m.ty := by
  simp [All, slots]

theorem all_ident {n : Name} : (ident n).All P ↔ P n.mark.ty := by
  simp [All, slots]

theorem all_tuple {es : List Expr} : (tuple es m).All P ↔ P m.ty ∧ ∀ e ∈ es, e.All P := by
  simp only [All, slots, slotsAll_eq, List.mem_cons, List.mem_flatMap]
  grind

theorem all_unary {op : UnaryOp} {e : Expr} : (unary op e m).All P ↔ P m.ty ∧ e.All P := by
  simp only [All, slots, List.mem_cons]
  grind

theorem all_binary {op : BinaryOp} {l r : Expr} :
    (binary op l r m).All P ↔ P m.ty ∧ l.All P ∧ r.All P := by
  simp only [All, slots, List.mem_cons, List.mem_append]
  grind

theorem all_app {f : Expr} {es : List Expr} :
    (app f es m).All P ↔ P m.ty ∧ f.All P ∧ ∀ e ∈ es, e.All P := by
  simp only [All, slots, slotsAll_eq, List.mem_cons, List.mem_append, List.mem_flatMap]
  grind

theorem all_cond {e y : Expr} {n : Option Expr} :
    (cond e y n m).All P ↔ P m.ty ∧ e.All P ∧ y.All P ∧ ∀ d ∈ n, d.All P := by
  cases n <;> simp only [All, slots, slotsOption, List.mem_cons, List.mem_append,
    Option.mem_def] <;> grind

theorem all_cases {e : Expr} {as : List Arm} :
    (cases e as m).All P ↔ P m.ty ∧ e.All P ∧ ∀ a ∈ as, a.pattern.All P ∧ a.body.All P := by
  simp only [All, Pattern.All, slots, slotsArms_eq, List.mem_cons, List.mem_append,
    List.mem_flatMap]
  grind

theorem all_bind {n : Name} {h : Option Hint} {v : Expr} {b : Option Expr} :
    (bind n h v b m).All P ↔ P m.ty ∧ P n.mark.ty ∧ v.All P ∧ ∀ d ∈ b, d.All P := by
  cases b <;> simp only [All, slots, slotsOption, List.mem_cons, List.mem_append,
    Option.mem_def] <;> grind

theorem all_lam {n : Option Name} {ps : List Pattern} {h : Option Hint} {b : Expr}
    {r : Option Expr} :
    (lam n ps h b r m).All P ↔ P m.ty ∧ (∀ x ∈ n, P x.mark.ty) ∧ (∀ p ∈ ps, p.All P) ∧
      b.All P ∧ ∀ d ∈ r, d.All P := by
  cases n <;> cases r <;>
    simp only [All, Pattern.All, slots, slotsOption, Pattern.slotsOfItems_eq, List.mem_cons,
      List.mem_append, List.mem_flatMap, Option.mem_def, Option.toList, List.map] <;> grind

end All

end Expr

/-! ## Inference does not read slots -/

namespace Infer

theorem pattern_mapTypes (f : Ty → Ty) (p : Pattern) : pattern (p.mapTypes f) = pattern p := by
  have hps : ∀ ps : List Pattern, (∀ p ∈ ps, pattern (p.mapTypes f) = pattern p) →
      patterns (ps.map (Pattern.mapTypes f)) = patterns ps := by
    intro ps h
    induction ps with
    | nil => rfl
    | cons p ps ih =>
      simp only [List.map_cons, patterns, h p (by simp), ih fun q hq => h q (by simp [hq])]
  induction p with
  | ident n => rfl
  | wildcard m => rfl
  | literal l m => rfl
  | tuple ps m ih =>
    simp only [Pattern.mapTypes, pattern, Pattern.mapTypesItems_eq, hps ps ih, Mark.typed_typed]

theorem patterns_mapTypes (f : Ty → Ty) (ps : List Pattern) :
    patterns (ps.map (Pattern.mapTypes f)) = patterns ps := by
  induction ps with
  | nil => rfl
  | cons p ps ih => simp only [List.map_cons, patterns, pattern_mapTypes, ih]

theorem checkDistinct_mapTypes (f : Ty → Ty) (ps : List Pattern) :
    checkDistinct (ps.map (Pattern.mapTypes f)) = checkDistinct ps := by
  simp only [checkDistinct, List.flatMap_map, Pattern.mapTypes_names, Pattern.mapTypes_span]

variable {f : Ty → Ty}

theorem neverFunction_mapTypes (f : Ty → Ty) (e : Expr) :
    neverFunction (e.mapTypes f) = neverFunction e := by
  cases e <;> rfl

theorem exprs_mapTypes {es : List Expr} (h : ∀ e ∈ es, ∀ Γ, expr Γ (e.mapTypes f) = expr Γ e)
    (Γ : Context) : exprs Γ (es.map (Expr.mapTypes f)) = exprs Γ es := by
  induction es with
  | nil => rfl
  | cons e es ih =>
    simp only [List.map_cons, exprs, h e (by simp), ih fun d hd => h d (by simp [hd])]

theorem optional_mapTypes {o : Option Expr} (h : ∀ e ∈ o, ∀ Γ, expr Γ (e.mapTypes f) = expr Γ e)
    (Γ : Context) : optional Γ (o.map (Expr.mapTypes f)) = optional Γ o := by
  cases o with
  | none => rfl
  | some e => simp only [Option.map_some, optional, h e rfl]

theorem arms_mapTypes {as : List Arm}
    (h : ∀ a ∈ as, ∀ Γ, expr Γ (a.body.mapTypes f) = expr Γ a.body) (Γ : Context) (s r : Ty)
    (reachable : Bool) : arms Γ s r reachable (as.map (Arm.mapTypes f)) = arms Γ s r reachable as := by
  induction as generalizing reachable with
  | nil => rfl
  | cons a as ih =>
    obtain ⟨p, e, span⟩ := a
    have he : ∀ Γ, expr Γ (e.mapTypes f) = expr Γ e := h (.mk p e span) (by simp)
    have hd : checkDistinct [p.mapTypes f] = checkDistinct [p] := checkDistinct_mapTypes f [p]
    simp only [List.map_cons, Arm.mapTypes, Arm.pattern, Arm.body, Arm.span, arms, he, hd,
      pattern_mapTypes, Pattern.mapTypes_irrefutable, ih fun b hb => h b (by simp [hb])]

theorem bindName_map_typed (Γ : Context) (n : Option Name) (g : Name → Ty) (s : Scheme) :
    bindName Γ (n.map fun n => n.typed (g n)) s = bindName Γ n s := by
  cases n <;> rfl

theorem expr_mapTypes (f : Ty → Ty) (Γ : Context) (e : Expr) :
    expr Γ (e.mapTypes f) = expr Γ e := by
  induction e generalizing Γ with
  | const l m => rfl
  | ident n => rfl
  | tuple es m ih =>
    simp only [Expr.mapTypes, expr, Expr.mapTypesAll_eq, exprs_mapTypes (fun e he Γ => ih e he Γ),
      Mark.typed_typed]
  | unary op e m ih => simp only [Expr.mapTypes, expr, ih, Mark.typed_typed, Mark.typed_span]
  | binary op l r m hl hr =>
    simp only [Expr.mapTypes, expr, hl, hr, Mark.typed_typed, Mark.typed_span]
  | app g es m hg ih =>
    simp only [Expr.mapTypes, expr, Expr.mapTypesAll_eq, exprs_mapTypes (fun e he Γ => ih e he Γ),
      hg, Mark.typed_typed, Mark.typed_span]
  | cond t y n m ht hy hn =>
    simp only [Expr.mapTypes, expr, Expr.mapTypesOption_eq,
      optional_mapTypes (fun e he Γ => hn e he Γ), ht, hy, Mark.typed_typed]
  | cases e as m he has =>
    simp only [Expr.mapTypes, expr, Expr.mapTypesArms_eq,
      arms_mapTypes (fun a ha Γ => has a ha Γ), he, Mark.typed_typed]
  | bind n h v b m hv hb =>
    cases b with
    | none =>
      simp only [Expr.mapTypes, Expr.mapTypesOption, expr, hv, Mark.typed_typed, Mark.typed_span,
        Name.typed_typed]
    | some b =>
      simp only [Expr.mapTypes, Expr.mapTypesOption, expr, hv, hb b rfl, Mark.typed_typed,
        Mark.typed_span, Name.typed_typed, Name.typed_text]
  | lam n ps h b r m hb hr =>
    have hname : ∀ t, (n.map fun n => n.typed (f n.mark.ty)).map (Name.typed · t) =
        n.map (Name.typed · t) := fun t => by cases n <;> rfl
    cases r with
    | none =>
      simp only [Expr.mapTypes, Expr.mapTypesOption, expr, Pattern.mapTypesItems_eq,
        patterns_mapTypes, checkDistinct_mapTypes, bindName_map_typed, hb, hname,
        Mark.typed_typed, Mark.typed_span]
    | some r =>
      simp only [Expr.mapTypes, Expr.mapTypesOption, expr, Pattern.mapTypesItems_eq,
        patterns_mapTypes, checkDistinct_mapTypes, bindName_map_typed, hb, hr r rfl, hname,
        Mark.typed_typed, Mark.typed_span]

/-- Trees that differ in their slots only have the same runs. -/
theorem expr_eq_of_blank {d e : Expr} (h : d.blank = e.blank) (Γ : Context) :
    expr Γ d = expr Γ e := by
  rw [← expr_mapTypes (fun _ => .error) Γ d, ← expr_mapTypes (fun _ => .error) Γ e]
  exact congrArg (expr Γ) h

end Infer
end MiniML
