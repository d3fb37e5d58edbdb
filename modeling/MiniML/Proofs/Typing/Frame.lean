import MiniML.Proofs.Typing.Draws

/-!
# What no step of inference changes

Whatever is inferred, in whatever state, the table of operators and the
configuration stay, the supply of variables only shrinks, and diagnostics are
only added behind those that are there (`framed_expr`). So a run reports no
error exactly if none of its parts does. Inference always comes to an end,
and it ends before it is done only when the variables are used up; all along
it draws variables with `fresh` alone.
-/
namespace MiniML

theorem Checker.errors_noting (c : Checker) (ds : Diagnostics) :
    (c.noting ds).errors = c.errors + ds.errors := by
  simp [Checker.errors, Checker.noting, Diagnostics.errors, Diagnostics.count]

/-- What every run of inference keeps. -/
structure Frame (c c' : Checker) : Prop where
  next_le : c.next ≤ c'.next
  builtins : c'.builtins = c.builtins
  config : c'.config = c.config
  diagnostics : c.diagnostics <+: c'.diagnostics

namespace Frame

variable {c d c' : Checker}

theorem refl (c : Checker) : Frame c c := ⟨Nat.le_refl _, rfl, rfl, List.prefix_refl _⟩

theorem trans (h : Frame c d) (h' : Frame d c') : Frame c c' :=
  ⟨Nat.le_trans h.next_le h'.next_le, h'.builtins.trans h.builtins, h'.config.trans h.config,
    h.diagnostics.trans h'.diagnostics⟩

theorem noting (c : Checker) (ds : Diagnostics) : Frame c (c.noting ds) :=
  ⟨Nat.le_refl _, rfl, rfl, List.prefix_append _ _⟩

theorem knowing (c : Checker) (σ : Subst) : Frame c (c.knowing σ) :=
  ⟨Nat.le_refl _, rfl, rfl, List.prefix_refl _⟩

theorem drew (h : c.Drew c') : Frame c c' := by
  rw [h.rest]
  exact ⟨h.le, rfl, rfl, List.prefix_refl _⟩

theorem errors_le (h : Frame c c') : c.errors ≤ c'.errors := h.diagnostics.sublist.countP_le

/-- Without an error in the whole there is none in the parts. -/
theorem quiet (h : Frame c d) (h' : Frame d c') (hq : c'.errors = c.errors) :
    d.errors = c.errors ∧ c'.errors = d.errors := by
  have := h.errors_le
  have := h'.errors_le
  omega

end Frame

namespace Infer

variable {α β : Type} {Γ : Context}

/-- Every run of `x` keeps the frame, and `x` has a run unless no variable is
left. It is made of primitive steps. -/
structure Framed (x : Infer α) : Prop where
  frame : ∀ {c a c'}, Runs x c a c' → Frame c c'
  stops : ∀ {c e c'}, x c = .error e c' → lastVar ≤ c'.next
  draws : ∀ c, ∃ vs, Draws x c vs

theorem Framed.pure (a : α) : Framed (pure a) where
  frame h := by
    obtain ⟨-, rfl⟩ := runs_pure.mp h
    exact .refl _
  stops h := by cases h
  draws c := ⟨[], .pure a c⟩

theorem Framed.bind {x : Infer α} {f : α → Infer β} (hx : Framed x) (hf : ∀ a, Framed (f a)) :
    Framed (x >>= f) where
  frame h := by
    obtain ⟨a, d, h₁, h₂⟩ := runs_bind.mp h
    exact (hx.frame h₁).trans ((hf a).frame h₂)
  stops h := by
    rcases error_bind.mp h with h | ⟨a, d, -, h⟩
    · exact hx.stops h
    · exact (hf a).stops h
  draws c := by
    obtain ⟨vs, hvs⟩ := hx.draws c
    cases h : x c with
    | ok a d =>
      obtain ⟨ws, hws⟩ := (hf a).draws d
      exact ⟨vs ++ ws, .bind hvs h hws⟩
    | error e d => exact ⟨vs, .cut hvs h⟩

theorem Framed.ite {p : Prop} [Decidable p] {x y : Infer α} (hx : Framed x) (hy : Framed y) :
    Framed (if p then x else y) := by
  split
  · exact hx
  · exact hy

theorem framed_get : Framed get where
  frame h := by
    obtain ⟨-, rfl⟩ := runs_get.mp h
    exact .refl _
  stops h := by cases h
  draws c := ⟨[], .get c⟩

theorem framed_forget : Framed (modify fun c => { c with subst := .empty }) where
  frame h := by
    rw [runs_modify.mp h]
    exact .knowing _ _
  stops h := by cases h
  draws c := ⟨[], .forget c⟩

theorem framed_subst : Framed subst := .bind framed_get fun _ => .pure _

theorem framed_resolve (t : Ty) : Framed (resolve t) := .bind framed_subst fun _ => .pure _

theorem framed_fresh : Framed fresh where
  frame h := by
    obtain ⟨-, -, rfl⟩ := runs_fresh.mp h
    exact .drew (Checker.drew_succ _)
  stops h := by
    obtain ⟨hlast, rfl⟩ := fresh_stuck h
    exact hlast
  draws c := by
    cases h : fresh c with
    | ok t c' =>
      obtain ⟨-, rfl, -⟩ := runs_fresh.mp h
      exact ⟨[c.next], .fresh h⟩
    | error e c' => exact ⟨[], .exhausted h⟩

theorem framed_freshFor (vs : List TyVar) : Framed (freshFor vs) := by
  induction vs with
  | nil => exact .pure _
  | cons v vs ih => exact .bind framed_fresh fun _ => .bind ih fun _ => .pure _

theorem framed_push (d : Diagnostic) : Framed (push d) where
  frame h := by
    obtain rfl := runs_push.mp h
    exact .noting _ _
  stops h := by cases h
  draws c := ⟨[], .push d c⟩

theorem framed_equate (t u : Ty) : Framed (equate t u) where
  frame h := by
    obtain ⟨-, rfl⟩ := runs_equate.mp h
    exact .knowing _ _
  stops h := by
    unfold equate at h
    split at h <;> cases h
  draws c := ⟨[], .equate t u c⟩

theorem framed_instantiate (s : Scheme) : Framed (instantiate s) :=
  .ite (.pure _) (.bind (framed_freshFor _) fun _ => .pure _)

theorem framed_generalize (Γ : Context) (t : Ty) : Framed (generalize Γ t) :=
  .bind framed_subst fun _ => .pure _

theorem framed_settle (x : Except TypeError Ty) : Framed (settle x) := by
  cases x with
  | ok t => exact .pure t
  | error e => exact .bind (framed_push _) fun _ => .pure _

theorem framed_expect (t u : Ty) (span : Span) (context : String) :
    Framed (expect t u span context) :=
  .bind (framed_equate t u) fun e => by
    cases e with
    | none => exact .pure _
    | some e => exact framed_push _

theorem framed_expectHint (t u : Ty) (span : Span) : Framed (expectHint t u span) :=
  .bind (framed_equate t u) fun e => by
    cases e with
    | none => exact .pure _
    | some e =>
      exact .bind (framed_resolve _) fun _ => .bind (framed_resolve _) fun _ => framed_push _

theorem framed_join (t u : Ty) (span : Span) (context : String) :
    Framed (join t u span context) :=
  .bind (framed_equate t u) fun e => by
    cases e with
    | none => exact .bind (framed_resolve _) fun _ => .pure _
    | some e => exact .pure _

theorem framed_applyTo (t : Ty) (args : List Ty) (span : Span) (context : String) :
    Framed (applyTo t args span context) :=
  .bind framed_fresh fun r => .bind (framed_equate t _) fun e => by
    cases e with
    | none => exact .bind (framed_resolve _) fun _ => .pure _
    | some e => exact .pure _

theorem framed_application (f : Expr) (es : List Expr) (span : Span) :
    Framed (application f es span) :=
  .ite (.pure _) (framed_applyTo _ _ _ _)

theorem framed_operator (name : String) (n : Nat) (span : Span) : Framed (operator name n span) :=
  .bind framed_get fun c => by
    cases c.builtins.get? name with
    | none => exact .pure _
    | some s => exact .bind (framed_instantiate s) fun t => .ite (.pure _) (.pure _)

theorem framed_applyOperator (name symbol : String) (args : List Ty) (span : Span) :
    Framed (applyOperator name symbol args span) :=
  .bind (framed_operator _ _ _) fun x => by
    cases x with
    | error e => exact .pure _
    | ok t => exact framed_applyTo _ _ _ _

theorem framed_lookup (Γ : Context) (n : Name) : Framed (lookup Γ n) := by
  unfold lookup
  cases Γ.get? n.text with
  | none => exact .pure _
  | some s => exact .bind (framed_instantiate s) fun _ => .pure _

theorem framed_hintType (named : FinMap String Ty) (h : Hint) : Framed (hintType named h) := by
  have hs : ∀ hs : List Hint, (∀ h ∈ hs, ∀ named, Framed (hintType named h)) →
      ∀ named, Framed (hintTypes named hs) := by
    intro hs h
    induction hs with
    | nil => exact fun _ => .pure _
    | cons g gs ih =>
      exact fun named => .bind (h g (by simp) named) fun _ =>
        .bind (ih (fun k hk => h k (by simp [hk])) _) fun _ => .pure _
  induction h generalizing named with
  | prim p => exact .pure _
  | var x =>
    unfold hintType
    cases named.get? x with
    | some t => exact .pure _
    | none => exact .bind framed_fresh fun _ => .pure _
  | wildcard => exact .bind framed_fresh fun _ => .pure _
  | fn a b ha hb => exact .bind (ha _) fun _ => .bind (hb _) fun _ => .pure _
  | tuple gs ih => exact .bind (hs gs (fun g hg named => ih g hg named) _) fun _ => .pure _

theorem framed_annotate (h : Option Hint) (t : Ty) (span : Span) : Framed (annotate h t span) := by
  cases h with
  | none => exact .pure _
  | some h => exact .bind (framed_hintType _ h) fun _ => framed_expectHint _ _ _

theorem framed_checkDistinct (ps : List Pattern) : Framed (checkDistinct ps) := by
  unfold checkDistinct
  split
  · exact .pure _
  · exact framed_push _

theorem framed_checkReachable (reachable : Bool) (span : Span) :
    Framed (checkReachable reachable span) :=
  .ite (.pure _) (framed_push _)

theorem framed_patterns {ps : List Pattern} (h : ∀ p ∈ ps, Framed (pattern p)) :
    Framed (patterns ps) := by
  induction ps with
  | nil => exact .pure _
  | cons p ps ih =>
    exact .bind (h p (by simp)) fun _ => .bind (ih fun q hq => h q (by simp [hq])) fun _ => .pure _

theorem framed_pattern (p : Pattern) : Framed (pattern p) := by
  induction p with
  | ident n => exact .bind framed_fresh fun _ => .pure _
  | wildcard m => exact .bind framed_fresh fun _ => .pure _
  | literal l m => exact .pure _
  | tuple ps m ih => exact .bind (framed_patterns ih) fun _ => .pure _

theorem framed_exprs {es : List Expr} (h : ∀ e ∈ es, ∀ Γ, Framed (expr Γ e)) (Γ : Context) :
    Framed (exprs Γ es) := by
  induction es with
  | nil => exact .pure _
  | cons e es ih =>
    exact .bind (h e (by simp) Γ) fun _ => .bind (ih fun d hd => h d (by simp [hd])) fun _ =>
      .pure _

theorem framed_optional {o : Option Expr} (h : ∀ e ∈ o, ∀ Γ, Framed (expr Γ e)) (Γ : Context) :
    Framed (optional Γ o) := by
  cases o with
  | none => exact .pure _
  | some e => exact .bind (h e rfl Γ) fun _ => .pure _

theorem framed_arms {as : List Arm} (h : ∀ a ∈ as, ∀ Γ, Framed (expr Γ a.body)) (Γ : Context)
    (s r : Ty) (reachable : Bool) : Framed (arms Γ s r reachable as) := by
  induction as generalizing reachable with
  | nil => exact .pure _
  | cons a as ih =>
    obtain ⟨p, e, span⟩ := a
    exact .bind (framed_checkReachable _ _) fun _ => .bind (framed_checkDistinct _) fun _ =>
      .bind (framed_pattern p) fun _ => .bind (framed_expect _ _ _ _) fun _ =>
      .bind (h (.mk p e span) (by simp) _) fun _ => .bind (framed_expect _ _ _ _) fun _ =>
      .bind (ih (fun b hb => h b (by simp [hb])) _) fun _ => .pure _

/-- Inference keeps the frame, on every tree and in every state. -/
theorem framed_expr (Γ : Context) (e : Expr) : Framed (expr Γ e) := by
  induction e generalizing Γ with
  | const l m => exact .pure _
  | ident n => exact .bind (framed_lookup Γ n) fun _ => .bind (framed_settle _) fun _ => .pure _
  | tuple es m ih => exact .bind (framed_exprs (fun e he Γ => ih e he Γ) Γ) fun _ => .pure _
  | unary op e m ih =>
    exact .bind (ih Γ) fun _ => .bind (framed_applyOperator _ _ _ _) fun _ =>
      .bind (framed_settle _) fun _ => .pure _
  | binary op l r m hl hr =>
    exact .bind (hl Γ) fun _ => .bind (hr Γ) fun _ => .bind (framed_applyOperator _ _ _ _) fun _ =>
      .bind (framed_settle _) fun _ => .pure _
  | app f es m hf ih =>
    exact .bind (hf Γ) fun _ => .bind (framed_exprs (fun e he Γ => ih e he Γ) Γ) fun _ =>
      .bind (framed_application _ _ _) fun _ => .bind (framed_settle _) fun _ => .pure _
  | cond e y n m he hy hn =>
    exact .bind (he Γ) fun _ => .bind (framed_expect _ _ _ _) fun _ => .bind (hy Γ) fun _ =>
      .bind (framed_optional (fun e he Γ => hn e he Γ) Γ) fun _ => .bind (framed_join _ _ _ _) fun _ =>
      .bind (framed_settle _) fun _ => .pure _
  | cases e as m he has =>
    exact .bind (he Γ) fun _ => .bind framed_fresh fun _ =>
      .bind (framed_arms (fun a ha Γ => has a ha Γ) _ _ _ _) fun _ =>
      .bind (framed_resolve _) fun _ => .pure _
  | bind n h v b m hv hb =>
    cases b with
    | none =>
      exact .bind (hv Γ) fun _ => .bind (framed_annotate _ _ _) fun _ =>
        .bind (framed_resolve _) fun _ => .pure _
    | some b =>
      exact .bind (hv Γ) fun _ => .bind (framed_annotate _ _ _) fun _ =>
        .bind (framed_resolve _) fun _ => .bind (framed_generalize _ _) fun _ =>
        .bind (hb b rfl _) fun _ => .pure _
  | lam n ps h b r m hb hr =>
    have hps := @framed_patterns ps fun p _ => framed_pattern p
    cases r with
    | none =>
      exact .bind framed_fresh fun _ => .bind (framed_checkDistinct _) fun _ => .bind hps fun _ =>
        .bind (hb _) fun _ => .bind (framed_expect _ _ _ _) fun _ =>
        .bind (framed_annotate _ _ _) fun _ => .bind (framed_resolve _) fun _ => .pure _
    | some r =>
      exact .bind framed_fresh fun _ => .bind (framed_checkDistinct _) fun _ => .bind hps fun _ =>
        .bind (hb _) fun _ => .bind (framed_expect _ _ _ _) fun _ =>
        .bind (framed_annotate _ _ _) fun _ => .bind (framed_resolve _) fun _ =>
        .bind (framed_generalize _ _) fun _ => .bind (hr r rfl _) fun _ => .pure _

end Infer
end MiniML
