import MiniML.Proofs.Typing.Complete
import MiniML.Proofs.Typing.Soundness

/-!
# Principal types

A declaration that has any derivation passes, and the type that is inferred
for it is its principal type: every derivation gives it an instance of that
type, and so of the scheme that its name is bound to
(`Check.declaration_principal`). Derivations may even mention the error type.

Nothing but the end of the supply of variables keeps a declaration from being
checked to the end (`Check.stops_declaration`).
-/
namespace MiniML

namespace Infer

/-! ## Steps around inference -/

theorem framed_declaration (Γ : Context) (d : Expr) : Framed (Infer.declaration Γ d) :=
  .bind framed_forget fun _ => .bind framed_get fun _ => .bind (framed_expr Γ d) fun _ =>
    .bind framed_subst fun _ => .bind framed_get fun _ => .pure _

theorem framed_reportType (name type : String) (span : Span) :
    Framed (reportType name type span) :=
  .bind framed_get fun _ => .ite (framed_push _) (.pure _)

variable {p : Prop} {k : Diagnostics} {Γ Δ : Context} {c c' : Checker} {d d' e : Expr} {T : Ty}
  {passed : Bool}

/-- Before anything is known, a closed context follows those that it covers. -/
theorem follows_start (htable : c.builtins = Builtins.context) (hclosed : Γ.Closed)
    (hcov : Γ.Covers p .var Δ) : Follows p .var Γ Δ (c.knowing .empty) where
  scope := .start (htable ▸ Builtins.context_closed) hclosed
  table := htable
  suits := ⟨c.sane_knowing_empty, .var, .empty p .var⟩
  covers := hcov

/-- What a declaration reports is what inference of its tree does, and it
passes if that is nothing. -/
theorem declaration_leads (hf : Follows p .var Γ Δ (c.knowing .empty)) (hd : Complete p Δ k d T)
    (hrun : Runs (Infer.declaration Γ d) c (passed, d') c') :
    passed = decide (k = []) ∧
      ∃ θ, Leads p k .var (c.knowing .empty) θ c' ∧ Becomes p θ c' d'.ty T := by
  obtain ⟨a, ha, rfl, rfl⟩ := runs_declaration hrun
  obtain ⟨θ, l, hty⟩ := hd hf ha
  have herrors : c'.errors = c.errors + k.length := by
    rw [← Checker.length_faults, ← Checker.length_faults, l.faults, List.length_append]
    rfl
  refine ⟨by simp [herrors], θ, l, ?_⟩
  rw [Expr.mapTypes_ty]
  exact hty.apply l.suits

/-- A tree with a derivation is declared without an error. -/
theorem declaration_complete (htable : c.builtins = Builtins.context) (hclosed : Γ.Closed)
    (htyped : Typed Γ e) (hblank : e.blank = d.blank)
    (hrun : Runs (Infer.declaration Γ d) c (passed, d') c') :
    passed = true ∧ ∃ θ, e.ty = d'.ty.subst θ := by
  -- nothing is lost, so the derivation may mention the error type
  have hexact : ∀ t : Ty, t.Exact False := fun _ => False.elim
  have hf : Follows False .var Γ Γ (c.knowing .empty) :=
    follows_start htable hclosed (.closed hclosed (fun _ s _ => hexact s.body) .var)
  have hd : Complete False Γ [] d e.ty :=
    (expr_complete htyped fun t _ => hexact t).of_blank hblank
  obtain ⟨rfl, θ, -, hty⟩ := declaration_leads hf hd hrun
  exact ⟨rfl, θ, (blurs_false.mp hty.blur).symm⟩

end Infer

namespace Check

/-! ## The end of the supply -/

/-- Only if no variable is left does `x` have no run. It is made of primitive
steps. -/
structure Stops {α : Type} (x : Check α) : Prop where
  spent : ∀ {w e w'}, x w = .error e w' → lastVar ≤ w'.checker.next
  draws : ∀ w, ∃ vs, Draws x w vs

variable {α β : Type}

theorem Stops.pure (a : α) : Stops (pure a) where
  spent h := by cases h
  draws w := ⟨[], .pure a w⟩

theorem Stops.bind {x : Check α} {f : α → Check β} (hx : Stops x) (hf : ∀ a, Stops (f a)) :
    Stops (x >>= f) where
  spent h := by
    rcases error_bind.mp h with h | ⟨a, d, -, h⟩
    · exact hx.spent h
    · exact (hf a).spent h
  draws w := by
    obtain ⟨vs, hvs⟩ := hx.draws w
    cases h : x w with
    | ok a v =>
      obtain ⟨ws, hws⟩ := (hf a).draws v
      exact ⟨vs ++ ws, .bind hvs h hws⟩
    | error e v => exact ⟨vs, .cut hvs h⟩

theorem stops_inferring {step : Context → Infer α} (h : ∀ Γ, Infer.Framed (step Γ)) :
    Stops (inferring step) where
  spent {w e w'} herr := by
    unfold inferring at herr
    cases hs : step w.context w.checker with
    | ok a c =>
      rw [hs] at herr
      cases herr
    | error e c =>
      rw [hs] at herr
      cases herr
      exact (h w.context).stops hs
  draws w := by
    obtain ⟨vs, hvs⟩ := (h w.context).draws w.checker
    exact ⟨vs, .inferring hvs⟩

theorem stops_define (name : String) (s : Scheme) : Stops (define name s) where
  spent h := by cases h
  draws w := ⟨[], .define name s w⟩

theorem stops_declaration (d : Expr) : Stops (Check.declaration d) := by
  refine .bind (stops_inferring fun Γ => Infer.framed_declaration Γ d) fun r => ?_
  obtain ⟨passed, e⟩ := r
  have hgen : ∀ n : Name, Stops (inferring fun Γ => do
      let s ← Infer.generalize Γ e.ty
      Infer.reportType n.text s.text n.mark.span
      return s) := fun n =>
    stops_inferring fun Γ => .bind (Infer.framed_generalize Γ _) fun _ =>
      .bind (Infer.framed_reportType _ _ _) fun _ => .pure _
  cases hd : e.declared? with
  | some n =>
    cases passed with
    | true =>
      simp only [hd, if_true]
      exact .bind (hgen n) fun _ => .bind (stops_define _ _) fun _ => .pure _
    | false =>
      simp only [hd]
      exact .bind (stops_define _ _) fun _ => .pure _
  | none =>
    cases passed with
    | true =>
      simp only [hd, if_true]
      exact .bind (stops_inferring fun _ => Infer.framed_reportType _ _ _) fun _ => .pure _
    | false =>
      simp only [hd]
      exact .pure _

/-! ## The principal type -/

/-- Checking finds principal types: unless the variables run out, a declaration
with a derivation passes without an error, and comes back as a derivation of
which every other has an instance; so its name is bound to the most general
scheme. -/
theorem declaration_principal {w : Workspace} {d e : Expr}
    (htable : w.checker.builtins = Builtins.context) (hclosed : w.context.Closed)
    (herr : w.context.ErrorFree) (hblank : e.blank = d.blank) (htyped : Typed w.context e) :
    (∃ w', Check.declaration d w = .error .typeVariables w' ∧ lastVar ≤ w'.checker.next) ∨
    ∃ d' w', Check.declaration d w = .ok (true, d') w' ∧
      w'.checker.errors = w.checker.errors ∧
      d'.blank = d.blank ∧ Typed w.context d' ∧
      (∀ a, a.blank = d.blank → Typed w.context a → ∃ θ, a.ty = d'.ty.subst θ) ∧
      ∀ n, d.declared? = some n → ∃ s, w'.context = w.context.insert n.text s ∧
        ∀ a, a.blank = d.blank → Typed w.context a → s.Instance a.ty := by
  cases hrun : Check.declaration d w with
  | error x w' =>
    cases x
    exact .inl ⟨w', rfl, (stops_declaration d).spent hrun⟩
  | ok r w' =>
    obtain ⟨passed, d'⟩ := r
    obtain ⟨c, ds, hinfer, hds, hw, -, hnamed⟩ := runs_declaration hrun
    have hprincipal : ∀ a, a.blank = d.blank → Typed w.context a → ∃ θ, a.ty = d'.ty.subst θ :=
      fun a hab hat => (Infer.declaration_complete htable hclosed hat hab hinfer).2
    obtain ⟨rfl, -⟩ := Infer.declaration_complete htable hclosed htyped hblank hinfer
    obtain ⟨hs, hback, htyped', -, hfix⟩ := Infer.declaration_derives htable hclosed herr hinfer
    refine .inr ⟨d', w', rfl, ?_, hback, htyped', hprincipal, fun n hn => ?_⟩
    · obtain ⟨_, _, hpass, _⟩ := Infer.runs_declaration hinfer
      rw [hw, Checker.errors_noting, hds]
      exact of_decide_eq_true hpass.symm
    · have hname := Expr.declared?_of_blank hback
      rw [hn, Option.map_some, Option.map_eq_some_iff] at hname
      obtain ⟨n', hn', htext⟩ := hname
      obtain ⟨s, hctx, hgen, -⟩ := hnamed n' hn'
      obtain ⟨hbody, hvars⟩ :=
        Infer.generalize_closed hclosed hs (hfix _ d'.ty_mem_slots) (hgen rfl)
      refine ⟨s, htext ▸ hctx, fun a hab hat => ?_⟩
      obtain ⟨θ, hθ⟩ := hprincipal a hab hat
      have hsc : s.Closed := fun v hv => hv.2 ((hvars v).mpr (hbody ▸ hv.1))
      rw [hθ, ← hbody]
      exact hsc.instance_subst θ

/-- `let g = let f = fun x -> x in f f`, where a derivation may take both
uses of `f` at integers, but the type of `g` need not be about integers. -/
theorem declaration_principal_twice :
    let w : Workspace := ⟨.root {}, .empty⟩
    let name (x : String) (t : Ty) : Name := ⟨x, { ty := t }⟩
    let self : Ty := .fn (.var 0) (.var 0)
    let int : Ty := .fn (.prim .int) (.prim .int)
    let e : Expr := .bind (name "g" int) none
      (.bind (name "f" self) none
        (.lam none [.ident (name "x" (.var 0))] none (.ident (name "x" (.var 0))) none { ty := self })
        (some (.app (.ident (name "f" (.fn int int))) [.ident (name "f" int)] { ty := int }))
        { ty := int }) none { ty := int }
    w.context.Closed ∧ w.context.ErrorFree ∧ Typed w.context e ∧
      ∃ d' w' v s, Check.declaration e.blank w = .ok (true, d') w' ∧
        d'.ty = .fn (.var v) (.var v) ∧ w'.context = w.context.insert "g" s ∧
        s.Instance int := by
  intro w name self int e
  have hnone : ∀ {P : Scheme → Prop}, w.context.All P := fun {P} x s hx => by cases hx
  have hpoly : ∀ t : Ty, Scheme.Instance ⟨[0], self⟩ (.fn t t) := fun t =>
    ⟨fun v => if v = 0 then t else .var v, fun v hv => if_neg (by simpa using hv), rfl⟩
  have hself : Generalizes w.context self ⟨[0], self⟩ := by
    refine ⟨rfl, fun v => ?_⟩
    have hfree : ¬ w.context.Free v := fun ⟨x, s, hx, _⟩ => by cases hx
    simp [self, hfree]
  have htyped : Typed w.context e := by
    refine .declare (.bind (.lam ⟨?_, ?_, rfl, ?_, ?_⟩ (.ident rfl ⟨.var, fun _ _ => rfl, rfl⟩)) rfl
      ?_ hself (.app (.ident rfl (hpoly int)) ?_ rfl nofun) rfl) rfl ?_ rfl
    · exact List.forall_mem_singleton.mpr (.ident _)
    · decide
    · simp
    · simp [Annotated]
    · simp [Annotated]
    · exact List.forall_mem_singleton.mpr (.ident rfl (hpoly _))
    · simp [Annotated]
  have hblank : e.blank = e.blank.blank := by
    rw [Expr.blank, Expr.blank, Expr.mapTypes_mapTypes]
  have htype : Check.type? e.blank w = some (.fn (.var 4) (.var 4)) := by decide +kernel
  obtain ⟨d', w', hrun, hty⟩ := Check.exists_of_type? htype
  rcases declaration_principal rfl hnone hnone hblank htyped with ⟨_, hstop, -⟩ | h
  · rw [hrun] at hstop
    cases hstop
  · obtain ⟨d'', w'', hrun', -, -, -, -, hname⟩ := h
    obtain ⟨rfl, rfl⟩ : d' = d'' ∧ w' = w'' := by
      rw [hrun] at hrun'
      cases hrun'
      exact ⟨rfl, rfl⟩
    obtain ⟨s, hctx, hs⟩ := hname (name "g" .error) rfl
    exact ⟨hnone, hnone, htyped, d', w', 4, s, hrun, hty, hctx, hs e hblank htyped⟩

end Check
end MiniML
