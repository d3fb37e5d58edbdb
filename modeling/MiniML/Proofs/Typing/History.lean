import Mathlib.GroupTheory.GroupAction.MultipleTransitivity
import MiniML.Proofs.Typing.Shift
import MiniML.Proofs.Typing.Soundness

/-!
# Checking does not depend on the past of a checker

A checker comes to a declaration with what it did before: its supply of
variables has sunk, it still has the substitution of the last declaration,
and diagnostics have piled up. In a closed context, where all that a name's
scheme mentions is replaced when the name is used, none of this shows but in
the numbers of variables.

The run whose supply stands lower is the other run moved down
(`Check.mirrored_declaration`). As only finitely many variables take part,
the move extends to a permutation of all variables, so that neither run comes
first in the statement (`Check.declaration_history`).
-/
namespace MiniML

/-! ## Declarations at different heights -/

section Mirrored

variable {k : Nat} {p p' : Diagnostics} {Γ Δ : Context}

/-- Errors are found in both runs or in neither. -/
theorem Checker.Shifted.errors {c c' : Checker} (h : c.Shifted k p p' c') :
    c'.errors + Diagnostics.errors p = c.errors + Diagnostics.errors p' := by
  obtain ⟨ds, ds', h1, h2, hds⟩ := h.diagnostics
  have hsplit (ps qs : Diagnostics) : Diagnostics.errors (ps ++ qs) =
      Diagnostics.errors ps + Diagnostics.errors qs := List.countP_append
  rw [Checker.errors, Checker.errors, h1, h2, hsplit, hsplit, Diagnostic.errors_renamed hds]
  omega

namespace Infer

theorem mirrors_declaration (hΓ : Γ.Shifted k Δ) (d : Expr) :
    Mirrors k p p' (Prod.map id (raisedTree k)) (Infer.declaration Γ d) (Infer.declaration Δ d) := by
  have hforget : Mirrors k p p' id (modify fun c => { c with subst := .empty })
      (modify fun c => { c with subst := .empty }) := by
    intro c c' r e' hS hy
    obtain rfl := runs_modify.mp hy
    exact ⟨(), _, runs_modify.mpr rfl, rfl, { hS with subst := Subst.renamed_empty.symm }⟩
  refine .bind hforget fun _ => .get_bind fun c c' hc => .bind (mirrors_expr d hΓ) fun e =>
    .bind mirrors_subst fun σ => .get_bind fun c₁ c₁' hc₁ => .pure ?_
  have hquiet : c₁'.errors = c'.errors ↔ c₁.errors = c.errors := by
    have := hc.errors
    have := hc₁.errors
    omega
  refine Prod.ext (decide_eq_decide.mpr hquiet) ?_
  simp only [raisedTree, Prod.map, Expr.mapTypes_mapTypes, Subst.apply_renamed]

theorem mirrors_reportType (name type : String) (span : Span) :
    Mirrors k p p' id (reportType name type span) (reportType name type span) :=
  .get_bind fun c c' hc => .ite (by rw [hc.config]) (mirrors_push (.refl _ _)) (.pure rfl)

end Infer

/-- The workspace without the substitution of the last declaration. -/
def Workspace.forget (w : Workspace) : Workspace := { w with checker := w.checker.knowing .empty }

/-- `w'` is `w` with all variables `k` higher. -/
structure Workspace.Shifted (k : Nat) (p p' : Diagnostics) (w w' : Workspace) : Prop where
  checker : w.checker.Shifted k p p' w'.checker
  context : w.context.Shifted k w'.context

namespace Check

theorem mirrored_inferring {α β : Type} {f : α → β} {step : Context → Infer α}
    {step' : Context → Infer β}
    (h : ∀ {Γ Δ : Context}, Γ.Shifted k Δ → Infer.Mirrors k p p' f (step Γ) (step' Δ)) :
    Mirrored (Workspace.Shifted k p p') f (inferring step) (inferring step') := by
  intro w w' b v' hS hy
  obtain ⟨hy, hctx⟩ := runs_inferring hy
  obtain ⟨a, c, hx, hb, hc⟩ := h hS.context hS.checker hy
  refine ⟨a, { w with checker := c }, ?_, hb, hc, hctx ▸ hS.context⟩
  unfold Runs inferring
  rw [hx]

theorem mirrored_define {s s' : Scheme} (name : String) (h : s.Shifted k s') :
    Mirrored (Workspace.Shifted k p p') id (define name s) (define name s') := by
  intro w w' r v' hS hy
  obtain rfl := runs_modify.mp hy
  exact ⟨(), _, runs_modify.mpr rfl, rfl, hS.checker, hS.context.insert name h⟩

/-- Checking a declaration does the same at any height. -/
theorem mirrored_declaration (d : Expr) :
    Mirrored (Workspace.Shifted k p p') (Prod.map id (Infer.raisedTree k)) (declaration d)
      (declaration d) := by
  refine .bind (mirrored_inferring fun h => Infer.mirrors_declaration h d) fun ⟨passed, e⟩ => ?_
  have hname := Expr.declared?_mapTypes (Ty.raised k) e
  have hgen (n : Name) (n' : Name) (hn : n' = n.typed (n.mark.ty.raised k)) :
      Mirrored (Workspace.Shifted k p p') (Scheme.renamed (raise k))
        (inferring fun Γ => do
          let s ← Infer.generalize Γ e.ty
          Infer.reportType n.text s.text n.mark.span
          return s)
        (inferring fun Γ => do
          let s ← Infer.generalize Γ (Infer.raisedTree k e).ty
          Infer.reportType n'.text s.text n'.mark.span
          return s) := by
    subst hn
    refine mirrored_inferring fun hΓ => ?_
    rw [Expr.mapTypes_ty]
    refine .bind (Infer.mirrors_generalize hΓ _) fun s => ?_
    rw [Scheme.text_renamed (raise k).injective]
    exact .bind (Infer.mirrors_reportType _ _ _) fun _ => .pure rfl
  cases hn : e.declared? with
  | some n =>
    rw [hn, Option.map_some] at hname
    cases passed with
    | true =>
      simp only [Prod.map, id, hname, hn, if_true]
      exact .bind (hgen n _ rfl) fun s => .bind (mirrored_define n.text .raised) fun _ => .pure rfl
    | false =>
      simp only [Prod.map, id, hname, hn]
      exact .bind (mirrored_define n.text .raised) fun _ => .pure rfl
  | none =>
    rw [hn, Option.map_none] at hname
    cases passed with
    | true =>
      simp only [Prod.map, id, hname, hn, if_true, Expr.mapTypes_ty, Expr.mapTypes_span,
        Ty.normalized_rename (raise k).injective]
      exact .bind (mirrored_inferring fun _ => Infer.mirrors_reportType _ _ _) fun _ => .pure rfl
    | false =>
      simp only [Prod.map, id, hname, hn]
      exact .pure rfl

end Check

end Mirrored

/-! ## Permutations -/

/-- On finitely many variables every injection is a permutation. -/
theorem exists_perm_eq (ρ : TyVar ↪ TyVar) (n : Nat) :
    ∃ π : Equiv.Perm TyVar, ∀ v < n, π v = ρ v := by
  have : MulAction.IsPretransitive (Equiv.Perm TyVar) (Fin n ↪ TyVar) :=
    Equiv.Perm.isMultiplyPretransitive TyVar n
  obtain ⟨π, hπ⟩ := MulAction.exists_smul_eq (Equiv.Perm TyVar)
    (Fin.valEmbedding : Fin n ↪ TyVar) (Fin.valEmbedding.trans ρ)
  exact ⟨π, fun v hv => DFunLike.congr_fun hπ ⟨v, hv⟩⟩

/-- `s'` is `s` with other names for its quantified variables. -/
def Scheme.AlphaEq (s s' : Scheme) : Prop :=
  ∃ ρ : Equiv.Perm TyVar, (∀ v, s.Free v → ρ v = v) ∧ s' = s.renamed ρ

namespace Scheme

variable {s s' : Scheme}

theorem renamed_renamed (ρ π : TyVar → TyVar) (s : Scheme) :
    (s.renamed ρ).renamed π = s.renamed fun v => π (ρ v) := by
  simp [renamed, Ty.rename_rename, Function.comp_def]

theorem AlphaEq.symm (h : s.AlphaEq s') : s'.AlphaEq s := by
  obtain ⟨ρ, hfree, rfl⟩ := h
  refine ⟨ρ.symm, fun w hw => ?_, ?_⟩
  · obtain ⟨v, -, rfl⟩ := List.mem_map.mp (Ty.leaves_rename (ρ := ρ) s.body ▸ hw.1)
    have hv : s.Free v := (free_renamed ρ.toEmbedding).mp hw
    rw [Equiv.symm_apply_apply, hfree v hv]
  · simp only [renamed_renamed, Equiv.symm_apply_apply]
    exact (renamed_id s).symm

theorem AlphaEq.text (h : s.AlphaEq s') : s'.text = s.text := by
  obtain ⟨ρ, -, rfl⟩ := h
  exact text_renamed ρ.injective s

/-- A closed scheme with its variables renamed is the same up to names. -/
theorem Closed.alphaEq (h : s.Closed) (ρ : TyVar ↪ TyVar) : s.AlphaEq (s.renamed ρ) := by
  obtain ⟨n, hn⟩ := exists_above (s.vars ++ s.body.leaves)
  obtain ⟨π, hπ⟩ := exists_perm_eq ρ n
  refine ⟨π, fun v hv => absurd hv (h v), ?_⟩
  have hvars : s.vars.map ρ = s.vars.map π :=
    List.map_congr_left fun v hv => (hπ v (hn v (List.mem_append_left _ hv))).symm
  have hbody : s.body.rename ρ = s.body.rename π :=
    Ty.rename_congr fun v hv => (hπ v (hn v (List.mem_append_right _ hv))).symm
  rw [Scheme.renamed, Scheme.renamed, hvars, hbody]

end Scheme

/-! ## Two checkers -/

namespace Check

variable {w₁ w₂ w₁' w₂' : Workspace} {d₁ d₂ : Expr} {r₁ r₂ : Bool × Expr}

/-- What two checks of a declaration have in common if they differ in their
variables only, the second having `ρ v` where the first has `v`: one took `w₁`
to `w₁'` with result `r₁`, the other `w₂` to `w₂'` with result `r₂`. -/
structure Matches (ρ : Equiv.Perm TyVar) (w₁ w₁' : Workspace) (r₁ : Bool × Expr)
    (w₂ w₂' : Workspace) (r₂ : Bool × Expr) : Prop where
  passed : r₂.1 = r₁.1
  tree : r₂.2 = r₁.2.mapTypes (Ty.rename ρ)
  diagnostics : ∃ ds₁ ds₂, w₁'.checker.diagnostics = w₁.checker.diagnostics ++ ds₁ ∧
    w₂'.checker.diagnostics = w₂.checker.diagnostics ++ ds₂ ∧
    List.Forall₂ (Diagnostic.Renamed ρ) ds₁ ds₂
  plain : r₁.2.declared? = none → w₁'.context = w₁.context ∧ w₂'.context = w₂.context
  named : ∀ n, r₁.2.declared? = some n → ∃ s₁ s₂ : Scheme,
    w₁'.context = w₁.context.insert n.text s₁ ∧ w₂'.context = w₂.context.insert n.text s₂ ∧
      s₁.AlphaEq s₂ ∧ s₂.text = s₁.text

theorem Matches.symm {ρ : Equiv.Perm TyVar} (h : Matches ρ w₁ w₁' r₁ w₂ w₂' r₂) :
    Matches ρ.symm w₂ w₂' r₂ w₁ w₁' r₁ where
  passed := h.passed.symm
  tree := by
    rw [h.tree, Expr.mapTypes_mapTypes]
    refine (Expr.mapTypes_id _).symm.trans (Expr.mapTypes_congr fun t _ => ?_)
    rw [Ty.rename_rename, Ty.rename_eq_self fun v _ => ρ.symm_apply_apply v]
  diagnostics := by
    obtain ⟨ds₁, ds₂, h1, h2, hds⟩ := h.diagnostics
    exact ⟨ds₂, ds₁, h2, h1, hds.flip.imp fun _ _ h => h.symm⟩
  plain hn := by
    rw [h.tree, Expr.declared?_mapTypes, Option.map_eq_none_iff] at hn
    exact (h.plain hn).symm
  named n hn := by
    rw [h.tree, Expr.declared?_mapTypes, Option.map_eq_some_iff] at hn
    obtain ⟨m, hm, rfl⟩ := hn
    obtain ⟨s₁, s₂, h1, h2, ha, htext⟩ := h.named m hm
    exact ⟨s₂, s₁, h2, h1, ha.symm, htext.symm⟩

/-- The slots of a tree are overwritten. -/
theorem declaration_eq_of_blank (h : d₂.blank = d₁.blank) : declaration d₂ = declaration d₁ := by
  have hinfer : (fun Γ => Infer.declaration Γ d₂) = fun Γ => Infer.declaration Γ d₁ := by
    funext Γ
    rw [Infer.declaration, Infer.expr_eq_of_blank h, Infer.declaration]
  rw [declaration, hinfer, declaration]

/-- The check whose supply stands lower, seen from the other one. -/
theorem matches_of_le (hle : w₁.checker.next ≤ w₂.checker.next)
    (hcontext : w₂.context = w₁.context) (hclosed : w₁.context.Closed)
    (hbuiltins : w₂.checker.builtins = w₁.checker.builtins) (htable : w₁.checker.builtins.Closed)
    (hconfig : w₂.checker.config = w₁.checker.config) (hblank : d₂.blank = d₁.blank)
    (h₁ : Runs (declaration d₁) w₁ r₁ w₁') (h₂ : Runs (declaration d₂) w₂ r₂ w₂') :
    ∃ ρ, Matches ρ w₁ w₁' r₁ w₂ w₂' r₂ := by
  have hstart : Workspace.Shifted (w₂.checker.next - w₁.checker.next) w₁.checker.diagnostics
      w₂.checker.diagnostics w₁.forget w₂.forget := by
    refine ⟨⟨(Nat.add_sub_cancel' hle).symm, rfl, hbuiltins, htable, hconfig, [], [], ?_⟩, ?_⟩
    · simp [Workspace.forget, Checker.knowing]
    · show w₁.context.Shifted _ w₂.context
      rw [hcontext]
      exact .self hclosed _
  rw [declaration_eq_of_blank hblank] at h₂
  obtain ⟨r, w, hrun, hr, hw⟩ := mirrored_declaration d₁ hstart h₂
  obtain ⟨rfl, rfl⟩ : r = r₁ ∧ w = w₁' := by
    have : EStateM.Result.ok r w = .ok r₁ w₁' := hrun.symm.trans h₁
    cases this
    exact ⟨rfl, rfl⟩
  -- beyond the variables that appear in slots or messages, any permutation will do
  obtain ⟨ds₁, ds₂, hds₁, hds₂, hds⟩ := hw.checker.diagnostics
  obtain ⟨n, hn⟩ := exists_above (r.2.slots.flatMap Ty.leaves)
  obtain ⟨m, hm⟩ := Diagnostic.exists_bound hds
  obtain ⟨π, hπ⟩ := exists_perm_eq (raise (w₂.checker.next - w₁.checker.next)) (max n m)
  have htree : r₂.2 = r.2.mapTypes (Ty.rename π) := by
    rw [hr]
    refine Expr.mapTypes_congr fun t ht => Ty.rename_congr fun v hv => (hπ v ?_).symm
    exact Nat.lt_of_lt_of_le (hn v (List.mem_flatMap.mpr ⟨t, ht, hv⟩)) (Nat.le_max_left n m)
  obtain ⟨hplain₁, hnamed₁⟩ := declaration_binds hclosed h₁
  obtain ⟨hplain₂, hnamed₂⟩ := declaration_binds (hcontext ▸ hclosed) h₂
  refine ⟨π, ?_, htree, ⟨ds₁, ds₂, hds₁, hds₂, hm π fun v hv => hπ v ?_⟩, fun hnone => ?_,
    fun x hx => ?_⟩
  · rw [hr]
    rfl
  · exact Nat.lt_of_lt_of_le hv (Nat.le_max_right n m)
  · refine ⟨hplain₁ hnone, hplain₂ ?_⟩
    rw [htree, Expr.declared?_mapTypes, hnone, Option.map_none]
  · obtain ⟨s₁, hs₁, hctx₁⟩ := hnamed₁ x hx
    obtain ⟨s₂, -, hctx₂⟩ := hnamed₂ (x.typed (x.mark.ty.rename π)) (by
      rw [htree, Expr.declared?_mapTypes, hx, Option.map_some])
    have hrel := hw.context x.text
    rw [hctx₁, hctx₂, Name.typed_text, FinMap.get?_insert, FinMap.get?_insert, if_pos rfl,
      if_pos rfl] at hrel
    cases hrel with
    | some hs =>
      obtain ⟨ρ, rfl, -⟩ := hs.exists_renamed
      have halpha := hs₁.alphaEq ρ
      exact ⟨s₁, _, hctx₁, hctx₂, halpha, halpha.text⟩

/-- Checking does not depend on the past of a checker. Two checkers with one
table of operators and one configuration may have drawn any number of
variables, may still know any substitution and may have reported anything;
their trees may hold anything in their slots. In a closed context they come to
the same verdict, and a permutation of variables takes the slots and the
diagnostics of the one to those of the other; the schemes that they bind are
the same up to the names of quantified variables, and read the same. -/
theorem declaration_history
    (hcontext : w₂.context = w₁.context) (hclosed : w₁.context.Closed)
    (hbuiltins : w₂.checker.builtins = w₁.checker.builtins) (htable : w₁.checker.builtins.Closed)
    (hconfig : w₂.checker.config = w₁.checker.config) (hblank : d₂.blank = d₁.blank)
    (h₁ : declaration d₁ w₁ = .ok r₁ w₁') (h₂ : declaration d₂ w₂ = .ok r₂ w₂') :
    ∃ ρ, Matches ρ w₁ w₁' r₁ w₂ w₂' r₂ := by
  rcases Nat.le_total w₁.checker.next w₂.checker.next with hle | hle
  · exact matches_of_le hle hcontext hclosed hbuiltins htable hconfig hblank h₁ h₂
  · obtain ⟨ρ, h⟩ := matches_of_le hle hcontext.symm (hcontext ▸ hclosed) hbuiltins.symm
      (hbuiltins ▸ htable) hconfig.symm hblank.symm h₂ h₁
    exact ⟨ρ.symm, h.symm⟩

/-- `let f = fun x -> id x`, by a new checker and by one that has failed before
and still knows something about a variable. Both will draw the variable that
the scheme of `id` quantifies. -/
theorem declaration_history_used :
    let Γ : Context := .singleton "id" ⟨[3], .fn (.var 3) (.var 3)⟩
    let w₁ : Workspace := ⟨.root {}, Γ⟩
    let reported : TypeError := ⟨.unbound "y", {}⟩
    let c : Checker :=
      { next := 2, subst := .singleton 0 (.prim .int), builtins := Builtins.context,
        diagnostics := [reported.toDiagnostic] }
    let w₂ : Workspace := ⟨c, Γ⟩
    let name (x : String) : Name := ⟨x, {}⟩
    let d : Expr := .bind (name "f") none
      (.lam none [.ident (name "x")] none (.app (.ident (name "id")) [.ident (name "x")] {}) none {})
      none {}
    ∃ r₁ w₁' r₂ w₂' ρ, declaration d w₁ = .ok r₁ w₁' ∧ declaration d w₂ = .ok r₂ w₂' ∧
      r₁.2.ty = .fn (.var 4) (.var 4) ∧ r₂.2.ty = .fn (.var 5) (.var 5) ∧
      Matches ρ w₁ w₁' r₁ w₂ w₂' r₂ ∧ ρ 4 = 5 := by
  intro Γ w₁ reported c w₂ name d
  have hclosed : Γ.Closed := by
    intro x s hx v hv
    rw [FinMap.get?_singleton] at hx
    split at hx
    · cases hx
      exact hv.2 (by simpa [Ty.leaves] using hv.1)
    · cases hx
  have htype₁ : type? d w₁ = some (.fn (.var 4) (.var 4)) := by decide +kernel
  have htype₂ : type? d w₂ = some (.fn (.var 5) (.var 5)) := by decide +kernel
  obtain ⟨d₁, w₁', h₁, hty₁⟩ := exists_of_type? htype₁
  obtain ⟨d₂, w₂', h₂, hty₂⟩ := exists_of_type? htype₂
  obtain ⟨ρ, h⟩ : ∃ ρ, Matches ρ w₁ w₁' (true, d₁) w₂ w₂' (true, d₂) :=
    declaration_history rfl hclosed rfl Builtins.context_closed rfl rfl h₁ h₂
  have hρ := congrArg Expr.ty h.tree
  rw [Expr.mapTypes_ty, hty₁, hty₂] at hρ
  exact ⟨_, w₁', _, w₂', ρ, h₁, h₂, hty₁, hty₂, h, (Ty.var.inj (Ty.fn.inj hρ).1).symm⟩

end Check

end MiniML
