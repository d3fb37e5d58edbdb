import MiniML.Proofs.Typing.Shape
import MiniML.Proofs.Tree.Outline
import MiniML.Typing.Outcome

/-!
# Where type errors are reported

Whatever inference reports, about a name, a pattern, an operator or an annotation, it
reports at a node of the tree that it was given (`Infer.points_expr`): the parts that
come back from inference, on which some reports are based, have the spans of the parts
that went in. The type of a declaration is reported at the name that it declares, or at
the declaration. So each diagnostic of a checked program is at the span of one of its
nodes (`span_mem_of_checkProgram`).
-/
namespace MiniML

/-- Every diagnostic that a run of `x` adds is at a place in `S`. -/
def Points {σ α : Type} (notes : σ → Diagnostics) (S : Span → Prop) (x : EStateM Exhausted σ α) :
    Prop :=
  ∀ ⦃c a c'⦄, Runs x c a c' → ∀ d ∈ notes c', d ∈ notes c ∨ S d.span

section Points

variable {σ α β : Type} {notes : σ → Diagnostics} {S : Span → Prop}
  {x : EStateM Exhausted σ α} {f : α → EStateM Exhausted σ β}

theorem points_pure (a : α) : Points notes S (pure a : EStateM Exhausted σ α) := by
  intro c b c' h d hd
  obtain ⟨-, rfl⟩ := runs_pure.mp h
  exact .inl hd

/-- A step that reports nothing. -/
theorem points_silent (h : ∀ {c a c'}, Runs x c a c' → notes c' = notes c) : Points notes S x :=
  fun _ _ _ hrun _ hd => .inl (h hrun ▸ hd)

/-- What follows may depend on a value that the first step has come to. -/
theorem Points.bind (hx : Points notes S x)
    (hf : ∀ {c a c'}, Runs x c a c' → Points notes S (f a)) : Points notes S (x >>= f) := by
  intro c b c' h d hd
  obtain ⟨a, c₁, h₁, h₂⟩ := runs_bind.mp h
  rcases hf h₁ h₂ d hd with hd | hd
  · exact hx h₁ d hd
  · exact .inr hd

theorem Points.ite {p : Prop} [Decidable p] {y : EStateM Exhausted σ α} (hx : Points notes S x)
    (hy : Points notes S y) : Points notes S (if p then x else y) := by
  split
  · exact hx
  · exact hy

end Points

namespace Infer

variable {α : Type} {S : Span → Prop} {Γ : Context} {span : Span}

/-- Every diagnostic that the step adds is at a place in `S`. -/
abbrev Points (S : Span → Prop) (x : Infer α) : Prop := MiniML.Points Checker.diagnostics S x

/-! ## Steps -/

theorem points_get : Points S (get : Infer Checker) :=
  points_silent fun h => by rw [(runs_get.mp h).2]

theorem points_subst : Points S subst :=
  points_silent fun h => by rw [(runs_subst.mp h).2]

theorem points_drew {x : Infer α} (h : ∀ {c a c'}, Runs x c a c' → c.Drew c') : Points S x :=
  points_silent fun hrun => by rw [(h hrun).rest]

theorem points_fresh : Points S fresh :=
  points_drew fun {c _ _} h => by
    obtain ⟨-, -, rfl⟩ := runs_fresh.mp h
    exact c.drew_succ

theorem points_instantiate (s : Scheme) : Points S (instantiate s) :=
  points_drew fun h => (runs_instantiate h).1

theorem points_resolve (t : Ty) : Points S (resolve t) :=
  points_silent fun h => by rw [(runs_resolve.mp h).2]

theorem points_generalize (Γ : Context) (t : Ty) : Points S (generalize Γ t) :=
  points_silent fun h => by rw [(runs_generalize h).1]

theorem points_equate (t u : Ty) : Points S (equate t u) :=
  points_silent fun h => by
    rw [(runs_equate.mp h).2]
    rfl

theorem points_push {d : Diagnostic} (h : S d.span) : Points S (push d) := by
  intro c a c' hrun e he
  rw [runs_push.mp hrun] at he
  rcases List.mem_append.mp he with he | he
  · exact .inl he
  · rw [List.mem_singleton.mp he]
    exact .inr h

theorem points_report {e : TypeError} (h : S e.span) : Points S (report e) := points_push h

/-- The step reports at places in `S` only, and ends in no error at another place. -/
structure Settles (S : Span → Prop) (x : Infer (Except TypeError Ty)) : Prop where
  points : Points S x
  error : ∀ {c e c'}, Runs x c (.error e) c' → S e.span

theorem settles_error {e : TypeError} (h : S e.span) : Settles S (pure (.error e)) :=
  ⟨points_pure _, fun hrun => by
    cases (runs_pure.mp hrun).1
    exact h⟩

theorem settles_ok (t : Ty) : Settles S (pure (.ok t)) :=
  ⟨points_pure _, fun hrun => nomatch (runs_pure.mp hrun).1⟩

theorem Settles.behind {x : Infer α} {f : α → Infer (Except TypeError Ty)} (hx : Points S x)
    (hf : ∀ {c a c'}, Runs x c a c' → Settles S (f a)) : Settles S (x >>= f) :=
  ⟨hx.bind fun hrun => (hf hrun).points, fun hrun => by
    obtain ⟨a, _, h₁, h₂⟩ := runs_bind.mp hrun
    exact (hf h₁).error h₂⟩

/-- The error of a rule is reported where it is. -/
theorem Settles.settle {x : Infer (Except TypeError Ty)} {f : Ty → Infer α} (hx : Settles S x)
    (hf : ∀ t, Points S (f t)) : Points S (x >>= fun r => settle r >>= f) :=
  hx.points.bind fun {_ r _} hrun => .bind (by
    cases r with
    | ok t => exact points_pure t
    | error e => exact (points_report (hx.error hrun)).bind fun _ => points_pure _) fun _ => hf _

theorem points_expect (h : S span) (t u : Ty) (context : String) :
    Points S (expect t u span context) :=
  .bind (points_equate t u) fun {_ r _} _ => by
    cases r with
    | none => exact points_pure _
    | some e => exact points_report h

theorem points_annotate (hs : S span) (h : Option Hint) (t : Ty) :
    Points S (annotate h t span) := by
  cases h with
  | none => exact points_pure _
  | some h =>
    have hread : Points S (hintType .empty h) := points_drew fun {_ a _} hrun =>
      (runs_hintType (t := a.1) (Nat.le_refl _) (fun x t hx => by simp at hx) hrun).drew
    refine hread.bind fun {_ a _} _ => (points_equate a.1 t).bind fun {_ r _} _ => ?_
    cases r with
    | none => exact points_pure _
    | some e =>
      exact (points_resolve _).bind fun _ => (points_resolve _).bind fun _ => points_report hs

theorem settles_join (h : S span) (t u : Ty) (context : String) :
    Settles S (join t u span context) :=
  .behind (points_equate t u) fun {_ r _} _ => by
    cases r with
    | none => exact .behind (points_resolve _) fun _ => settles_ok _
    | some e => exact settles_error h

theorem settles_applyTo (h : S span) (t : Ty) (args : List Ty) (context : String) :
    Settles S (applyTo t args span context) :=
  .behind points_fresh fun _ => .behind (points_equate t _) fun {_ r _} _ => by
    cases r with
    | none => exact .behind (points_resolve _) fun _ => settles_ok _
    | some e => exact settles_error h

theorem settles_lookup {n : Name} (h : S n.mark.span) : Settles S (lookup Γ n) := by
  unfold lookup
  cases Γ.get? n.text with
  | none => exact settles_error h
  | some s => exact .behind (points_instantiate s) fun _ => settles_ok _

theorem settles_operator (h : S span) (name : String) (n : Nat) :
    Settles S (operator name n span) := by
  refine .behind points_get fun {_ c _} _ => ?_
  cases c.builtins.get? name with
  | none => exact settles_error h
  | some s =>
    refine .behind (points_instantiate s) fun {_ t _} _ => ?_
    show Settles S (if t.arity < n then _ else _)
    split
    · exact settles_error h
    · exact settles_ok t

theorem settles_applyOperator (h : S span) (name symbol : String) (args : List Ty) :
    Settles S (applyOperator name symbol args span) :=
  have hop := settles_operator h name args.length
  .behind hop.points fun {_ r _} hrun => by
    cases r with
    | error e => exact settles_error (hop.error hrun)
    | ok t => exact settles_applyTo h t args _

/-- An application is refused at the callee, and fails as a whole. -/
theorem settles_application {f : Expr} (hf : S f.span) (h : S span) (es : List Expr) :
    Settles S (application f es span) := by
  unfold application
  split
  · exact settles_error hf
  · exact settles_applyTo h _ _ _

/-! ## Patterns -/

theorem firstDuplicate_mem {seen : List String} {xs : List (String × Span)} {x : String × Span}
    (h : firstDuplicate seen xs = some x) : x ∈ xs := by
  fun_induction firstDuplicate seen xs with
  | case1 => cases h
  | case2 seen y s xs hseen =>
    cases h
    exact List.mem_cons_self
  | case3 seen y s xs hseen ih => exact List.mem_cons_of_mem _ (ih h)

/-- A name that is bound again is reported at the pattern that binds it again. -/
theorem points_checkDistinct {ps : List Pattern} (h : ∀ p ∈ ps, S p.span) :
    Points S (checkDistinct ps) := by
  unfold checkDistinct
  split
  · exact points_pure _
  next x s hx =>
    obtain ⟨p, hp, hs⟩ := List.mem_flatMap.mp (firstDuplicate_mem hx)
    obtain ⟨y, -, hy⟩ := List.mem_map.mp hs
    cases hy
    exact points_report (h p hp)

theorem points_checkReachable (h : S span) (reachable : Bool) :
    Points S (checkReachable reachable span) :=
  .ite (points_pure _) (points_push h)

theorem points_pattern (p : Pattern) : Points S (pattern p) :=
  points_drew fun {c a c'} h => (show PatternRun p c a.1 a.2 c' from runs_pattern h).drew

theorem points_patterns (ps : List Pattern) : Points S (patterns ps) :=
  points_drew fun {c a c'} h =>
    (show PatternsRun ps c a.1 a.2 c' from runs_patterns (fun _ _ => runs_pattern) h).drew

theorem pattern_span {p : Pattern} {r : Pattern × Bindings} {c c' : Checker}
    (h : Runs (pattern p) c r c') : r.1.span = p.span := by
  have hspan (q : Pattern) : q.blank.span = q.span := by
    rw [← Pattern.outline_span, ← Pattern.outline_span, Pattern.blank, Pattern.outline_mapTypes]
  have hrun : PatternRun p c r.1 r.2 c' := runs_pattern h
  rw [← hspan r.1, hrun.blank, hspan]

/-! ## Expressions -/

/-- All spans in the outline of a tree are in `S`. -/
abbrev Covers (S : Span → Prop) (e : Expr) : Prop := ∀ s ∈ e.outline.spans, S s

/-- Inference on `e` reports at the nodes of `e`. -/
def PointsExpr (e : Expr) : Prop :=
  ∀ {S : Span → Prop} (Γ : Context), Covers S e → Points S (expr Γ e)

theorem expr_span {e e' : Expr} {c c' : Checker} (h : Runs (expr Γ e) c e' c') :
    e'.span = e.span := Expr.span_of_blank (expr_blank _ h)

theorem covers_span {e : Expr} (h : Covers S e) : S e.span :=
  e.outline_span ▸ h _ (Outline.span_mem_spans _)

theorem optional_spans {o o' : Option Expr} {c c' : Checker} (hrun : Runs (optional Γ o) c o' c')
    (h : ∀ e ∈ o, S e.span) : ∀ e ∈ o', S e.span := by
  cases o with
  | none =>
    rw [(runs_pure.mp hrun).1]
    exact nofun
  | some e =>
    obtain ⟨a, ha, rfl⟩ := runs_optional_some hrun
    rintro _ ⟨⟩
    exact (expr_span ha).symm ▸ h e rfl

/-- A choice fails at its second branch, or at its only one. -/
theorem otherwise_span {y : Expr} {o : Option Expr} (hy : S y.span) (ho : ∀ e ∈ o, S e.span) :
    S (otherwise y o).2.1 := by
  cases o with
  | none => exact hy
  | some e => exact ho e rfl

theorem points_exprs {es : List Expr} (h : ∀ e ∈ es, PointsExpr e)
    (hs : ∀ e ∈ es, Covers S e) : Points S (exprs Γ es) := by
  induction es with
  | nil => exact points_pure _
  | cons e es ih =>
    exact .bind (h e (by simp) Γ (hs e (by simp))) fun _ =>
      .bind (ih (fun d hd => h d (by simp [hd])) fun d hd => hs d (by simp [hd])) fun _ =>
      points_pure _

theorem points_optional {o : Option Expr} (h : ∀ e ∈ o, PointsExpr e) (hs : ∀ e ∈ o, Covers S e) :
    Points S (optional Γ o) := by
  cases o with
  | none => exact points_pure _
  | some e => exact .bind (h e rfl Γ (hs e rfl)) fun _ => points_pure _

theorem points_arms {as : List Arm} (h : ∀ a ∈ as, PointsExpr a.body)
    (hs : ∀ a ∈ as, ∀ s ∈ a.outline.spans, S s) (t r : Ty) (reachable : Bool) :
    Points S (arms Γ t r reachable as) := by
  induction as generalizing reachable with
  | nil => exact points_pure _
  | cons a as ih =>
    obtain ⟨p, e, span⟩ := a
    have ha : ∀ s ∈ (Arm.mk p e span).outline.spans, S s := hs _ (by simp)
    simp only [Arm.outline, Arm.span, Arm.pattern, Arm.body, Outline.spans_node, List.mem_cons,
      List.flatMap_cons, List.flatMap_nil, List.append_nil, List.mem_append] at ha
    have hspan : S span := ha span (.inl rfl)
    have hp : S p.span := ha p.span (.inr (.inl (p.outline_span ▸ p.outline.span_mem_spans)))
    have he : Covers S e := fun s hs => ha s (.inr (.inr hs))
    refine .bind (points_checkReachable hspan _) fun _ =>
      .bind (points_checkDistinct (by simpa using hp)) fun _ =>
      .bind (points_pattern p) fun {_ q _} hq => .bind (points_expect ?_ _ _ _) fun _ =>
      .bind (h (.mk p e span) (by simp) _ he) fun hb => .bind (points_expect ?_ _ _ _) fun _ =>
      .bind (ih (fun a ha => h a (by simp [ha])) (fun a ha => hs a (by simp [ha])) _) fun _ =>
      points_pure _
    · rw [pattern_span hq]
      exact hp
    · exact (expr_span hb).symm ▸ covers_span he

/-- A tree is covered if the span of its node is, and so are its parts. -/
theorem covers_iff {e : Expr} {s : Span} {parts : List Outline} (h : e.outline = .node s parts) :
    Covers S e ↔ S s ∧ ∀ o ∈ parts, ∀ s ∈ o.spans, S s := by
  rw [Covers, h, Outline.spans_node, List.forall_mem_cons]
  simp only [List.mem_flatMap, forall_exists_index, and_imp]
  exact and_congr_right fun _ => ⟨fun h o ho s hs => h s o ho hs, fun h s o ho hs => h o ho s hs⟩

/-- Inference reports at the nodes of the tree. -/
theorem points_expr (e : Expr) : PointsExpr e := by
  induction e with
  | const l m => exact fun Γ _ => points_pure _
  | ident n =>
    intro S Γ hs
    exact (settles_lookup (hs _ (Outline.span_mem_spans _))).settle fun _ => points_pure _
  | tuple es m ih =>
    intro S Γ hs
    obtain ⟨-, hes⟩ := (covers_iff rfl).mp hs
    rw [Expr.outlines_eq, List.forall_mem_map] at hes
    exact .bind (points_exprs ih hes) fun _ => points_pure _
  | unary op e m ih =>
    intro S Γ hs
    obtain ⟨hm, he⟩ := (covers_iff rfl).mp hs
    exact .bind (ih Γ (by simpa using he)) fun _ =>
      (settles_applyOperator hm _ _ _).settle fun _ => points_pure _
  | binary op l r m hl hr =>
    intro S Γ hs
    obtain ⟨hm, hlr⟩ := (covers_iff rfl).mp hs
    obtain ⟨hls, hrs⟩ : Covers S l ∧ Covers S r := by simpa using hlr
    exact .bind (hl Γ hls) fun _ => .bind (hr Γ hrs) fun _ =>
      (settles_applyOperator hm _ _ _).settle fun _ => points_pure _
  | app f es m hf ih =>
    intro S Γ hs
    obtain ⟨hm, hparts⟩ := (covers_iff rfl).mp hs
    obtain ⟨hfs, hes⟩ := List.forall_mem_cons.mp hparts
    rw [Expr.outlines_eq, List.forall_mem_map] at hes
    refine .bind (hf Γ hfs) fun hrun => .bind (points_exprs ih hes) fun _ =>
      (settles_application ?_ hm _).settle fun _ => points_pure _
    exact (expr_span hrun).symm ▸ covers_span hfs
  | cond t y n m ht hy hn =>
    intro S Γ hs
    obtain ⟨hm, hparts⟩ := (covers_iff rfl).mp hs
    obtain ⟨hts, hparts⟩ := List.forall_mem_cons.mp hparts
    obtain ⟨hys, hns⟩ := List.forall_mem_cons.mp hparts
    have hns' : ∀ e ∈ n, Covers S e := fun e he => hns _ (by
      rw [Expr.outlinesOption_eq]
      exact List.mem_map_of_mem (Option.mem_toList.mpr he))
    refine .bind (ht Γ hts) fun htrun => .bind (points_expect ?_ _ _ _) fun _ =>
      .bind (hy Γ hys) fun hyrun => .bind (points_optional hn hns') fun hnrun =>
      (settles_join ?_ _ _ _).settle fun _ => points_pure _
    · exact (expr_span htrun).symm ▸ covers_span hts
    · exact otherwise_span ((expr_span hyrun).symm ▸ covers_span hys)
        (optional_spans hnrun fun e he => covers_span (hns' e he))
  | cases e as m he has =>
    intro S Γ hs
    obtain ⟨hm, hparts⟩ := (covers_iff rfl).mp hs
    obtain ⟨hes, has'⟩ := List.forall_mem_cons.mp hparts
    rw [Expr.outlinesArms_eq, List.forall_mem_map] at has'
    exact .bind (he Γ hes) fun _ => .bind points_fresh fun _ =>
      .bind (points_arms has has' _ _ _) fun _ => .bind (points_resolve _) fun _ => points_pure _
  | bind n h v b m hv hb =>
    intro S Γ hs
    obtain ⟨hm, hparts⟩ := (covers_iff rfl).mp hs
    obtain ⟨-, hparts⟩ := List.forall_mem_cons.mp hparts
    obtain ⟨hvs, hbs⟩ := List.forall_mem_cons.mp hparts
    cases b with
    | none =>
      exact .bind (hv Γ hvs) fun _ => .bind (points_annotate hm _ _) fun _ =>
        .bind (points_resolve _) fun _ => points_pure _
    | some b =>
      exact .bind (hv Γ hvs) fun _ => .bind (points_annotate hm _ _) fun _ =>
        .bind (points_resolve _) fun _ => .bind (points_generalize _ _) fun _ =>
        .bind (hb b rfl _ (hbs _ (by simp [Expr.outlinesOption]))) fun _ => points_pure _
  | lam n ps h b r m hb hr =>
    intro S Γ hs
    obtain ⟨hm, hparts⟩ := (covers_iff rfl).mp hs
    rw [List.forall_mem_append, List.forall_mem_append, List.forall_mem_map] at hparts
    obtain ⟨⟨-, hps⟩, hbr⟩ := hparts
    obtain ⟨hbs, hrs⟩ := List.forall_mem_cons.mp hbr
    have hdistinct : Points S (checkDistinct ps) := points_checkDistinct fun p hp =>
      p.outline_span ▸ hps _ (List.mem_map_of_mem hp) _ (Outline.span_mem_spans _)
    cases r with
    | none =>
      exact .bind points_fresh fun _ => .bind hdistinct fun _ => .bind (points_patterns ps) fun _ =>
        .bind (hb _ hbs) fun _ => .bind (points_expect hm _ _ _) fun _ =>
        .bind (points_annotate hm _ _) fun _ => .bind (points_resolve _) fun _ => points_pure _
    | some r =>
      exact .bind points_fresh fun _ => .bind hdistinct fun _ => .bind (points_patterns ps) fun _ =>
        .bind (hb _ hbs) fun _ => .bind (points_expect hm _ _ _) fun _ =>
        .bind (points_annotate hm _ _) fun _ => .bind (points_resolve _) fun _ =>
        .bind (points_generalize _ _) fun _ =>
        .bind (hr r rfl _ (hrs _ (by simp [Expr.outlinesOption]))) fun _ => points_pure _

/-! ## Declarations -/

theorem points_declaration {d : Expr} (hs : Covers S d) : Points S (Infer.declaration Γ d) := by
  have hforget : Points S (modify fun c => { c with subst := .empty } : Infer Unit) :=
    points_silent fun hrun => by
      rw [runs_modify.mp hrun]
  exact hforget.bind fun _ => points_get.bind fun _ => (points_expr d Γ hs).bind fun _ =>
    points_subst.bind fun _ => points_get.bind fun _ => points_pure _

theorem points_reportType (h : S span) (name type : String) :
    Points S (reportType name type span) :=
  points_get.bind fun _ => .ite (points_push h) (points_pure _)

end Infer

/-- A name that is declared is a node of its declaration. -/
theorem Expr.declared?_mem_spans {e : Expr} {n : Name} (h : e.declared? = some n) :
    n.mark.span ∈ e.outline.spans := by
  cases e with
  | bind m k v b s =>
    cases b with
    | none =>
      cases h
      simp [Expr.outline, Outline.spans_node, Name.outline, Outline.leaf]
    | some b => cases h
  | lam m ps k b r s =>
    cases r with
    | none =>
      obtain rfl : m = some n := h
      simp [Expr.outline, Outline.spans_node, Name.outline, Outline.leaf]
    | some r => cases h
  | _ => cases h

namespace Check

variable {α : Type} {S : Span → Prop}

/-- Every diagnostic that the step adds is at a place in `S`. -/
abbrev Points (S : Span → Prop) (x : Check α) : Prop :=
  MiniML.Points (fun w : Workspace => w.checker.diagnostics) S x

theorem points_inferring {step : Context → Infer α} (h : ∀ Γ, Infer.Points S (step Γ)) :
    Points S (inferring step) :=
  fun _ _ _ hrun => h _ (runs_inferring hrun).1

theorem points_define (name : String) (s : Scheme) : Points S (define name s) :=
  points_silent fun hrun => by rw [runs_modify.mp hrun]

/-- A declaration reports at its nodes. -/
theorem points_declaration {d : Expr} (hs : Infer.Covers S d) : Points S (declaration d) := by
  refine (points_inferring fun Γ => Infer.points_declaration hs).bind fun {_ a _} hrun => ?_
  obtain ⟨passed, d'⟩ := a
  -- what comes back has other slots only, and so the same nodes
  have hs' : Infer.Covers S d' := by
    obtain ⟨e, he, -, rfl⟩ := Infer.runs_declaration (runs_inferring hrun).1
    rw [Infer.Covers, Expr.outline_mapTypes, Expr.outline_of_blank (Infer.expr_blank d he)]
    exact hs
  dsimp only
  split
  next n hn =>
    have hname := hs' _ (Expr.declared?_mem_spans hn)
    refine .ite (.bind (points_inferring fun Γ => ?_) fun _ =>
      .bind (points_define _ _) fun _ => points_pure _)
      (.bind (points_define _ _) fun _ => points_pure _)
    exact (Infer.points_generalize _ _).bind fun _ =>
      (Infer.points_reportType hname _ _).bind fun _ => points_pure _
  next =>
    exact .ite (.bind (points_inferring fun _ =>
      Infer.points_reportType (Infer.covers_span hs') _ _) fun _ => points_pure _) (points_pure _)

theorem points_program {p : Program} (hs : ∀ d ∈ p, Infer.Covers S d) : Points S (program p) := by
  induction p with
  | nil => exact points_pure _
  | cons d ds ih =>
    exact .bind (points_declaration (hs d (by simp))) fun _ =>
      .bind (ih fun e he => hs e (by simp [he])) fun _ => points_pure _

end Check

/-- Each diagnostic of a checked program is at a node of one of its declarations. -/
theorem span_mem_of_checkProgram {p : Program} {config : Config} {o : Outcome}
    (h : checkProgram p config = .ok o) {d : Diagnostic} (hd : d ∈ o.diagnostics) :
    ∃ e ∈ p, d.span ∈ e.outline.spans := by
  have hpoints : Check.Points (fun s => ∃ e ∈ p, s ∈ e.outline.spans) (Check.program p) :=
    Check.points_program fun e he s hs => ⟨e, he, hs⟩
  unfold checkProgram at h
  split at h
  · cases h
  next passed q w hrun =>
    cases h
    rcases hpoints hrun d hd with hd | hd
    · cases hd
    · exact hd

end MiniML
