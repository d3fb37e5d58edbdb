import MiniML.Proofs.Ty.AsHint
import MiniML.Proofs.Typing.Inline
import MiniML.Proofs.Typing.Places
import MiniML.Proofs.Typing.Widen

/-!
# A reported type can be pasted back

The text of the type that a declaration is given can be put behind its name as an
annotation. It is read as an annotation to which the most general type fits, so the
declaration keeps this type; and a type that fits as well is an instance of it, so
the text stays the same.

Results:
* `Infer.declaration_wide`: the type of a tree with wide tuples has wide tuples.
* `Check.declaration_pasted`: a declaration that passes still passes with the text of
  its type as its annotation, and its type has the same text then.
-/
namespace MiniML

variable {Γ : Context}

namespace Infer

variable {c c' : Checker} {d e : Expr}

/-- The type of a tree with wide tuples has wide tuples: another type of the tree has
them, and is an instance of it. -/
theorem declaration_wide (htable : c.builtins = Builtins.context) (hΓ : Γ.Closed)
    (herr : Γ.ErrorFree) (hwide : Γ.Wide) (he : e.Wide)
    (hrun : Runs (Infer.declaration Γ e) c (true, d) c') : d.ty.wide = true := by
  obtain ⟨htyped, hall⟩ := declaration_hasType htable hΓ herr hrun
  have hwidened := (htyped rfl).widen he
  rw [Context.widened_of_wide hwide] at hwidened
  obtain ⟨-, θ, hθ⟩ := hall _ hwidened
  exact Ty.wide_of_subst (hθ ▸ Ty.wide_widen d.ty)

end Infer

namespace Check

variable {c₁ c₂ : Checker} {d v v' : Expr} {n n' : Name} {m m' : Mark} {w : Workspace}

/-- A reported type can be pasted back. If a declaration without an annotation passes,
in a closed context without the error type and with only tuples of at least two items
in the context and the tree, then the text of its type is read as an annotation, up to
the end. Unless the type variables run out, the declaration with this annotation passes
too, and binds its name to a type with the same text. The parts of the annotated
declaration may stand at other places, as they do behind a pasted text. -/
theorem declaration_pasted (ht₁ : c₁.builtins = Builtins.context)
    (ht₂ : c₂.builtins = Builtins.context) (hΓ : Γ.Closed) (herr : Γ.ErrorFree) (hwide : Γ.Wide)
    (hv : v.Wide) (hn : n'.text = n.text) (hplaces : v'.bare = v.bare)
    (hpass : Check.declaration (.bind n none v none m) ⟨c₁, Γ⟩ = .ok (true, d) w) :
    ∃ s, w.context = Γ.insert n.text s ∧ ∃ tokens h c, Token.lex s.text = .ok tokens ∧
      Grammar.hint (.ofTokens tokens) = .ok h c ∧ c.rest = [] ∧
      ((∃ w', Check.declaration (.bind n' (some h) v' none m') ⟨c₂, Γ⟩ =
            .error .typeVariables w' ∧ lastVar ≤ w'.checker.next) ∨
        ∃ d' w' s', Check.declaration (.bind n' (some h) v' none m') ⟨c₂, Γ⟩ = .ok (true, d') w' ∧
          w'.checker.errors = c₂.errors ∧ w'.context = Γ.insert n.text s' ∧ s'.text = s.text) := by
  obtain ⟨-, hblank, htyped, hclean, s, hgen, hctx⟩ := declaration_derives ⟨ht₁, hΓ, herr⟩ hpass
  obtain ⟨_, _, _, hinfer, -⟩ := runs_declaration_bindName hpass
  obtain ⟨-, hall⟩ := Infer.declaration_hasType ht₁ hΓ herr hinfer
  have hwide := Infer.declaration_wide ht₁ hΓ herr hwide (.bind n m (by simp) hv (by simp)) hinfer
  obtain ⟨tokens, c, hlex, hparse, hrest⟩ := d.ty.parse_normalized hclean.ty hwide
  have htext : s.text = d.ty.normalized := congrArg Ty.normalized hgen.body
  rw [Infer.bindName_of_blank hblank] at hctx
  refine ⟨s, hctx, tokens, d.ty.normalHint, c, htext ▸ hlex, hparse, hrest, ?_⟩
  -- the annotation fits to the type that the declaration has without it
  have hty : HasType Γ v d.ty := (HasType.declare.mp ⟨d, hblank, htyped, rfl⟩).1
  have hfits : HasType Γ (.bind n' (some d.ty.normalHint) v' none m') d.ty :=
    HasType.declare.mpr ⟨hty.of_bare hplaces.symm, d.ty.annotated_normalHint⟩
  cases hrun : Check.declaration (.bind n' (some d.ty.normalHint) v' none m') ⟨c₂, Γ⟩ with
  | error x w' =>
    cases x
    exact .inl ⟨w', rfl, (stops_declaration _).spent hrun⟩
  | ok r w' =>
    obtain ⟨p, d'⟩ := r
    obtain ⟨_, _, _, hinfer', -⟩ := runs_declaration_bindName hrun
    obtain ⟨-, hall'⟩ := Infer.declaration_hasType ht₂ hΓ herr hinfer'
    obtain ⟨rfl, θ, hθ⟩ := hall' _ hfits
    obtain ⟨-, hblank', htyped', -, s', hgen', hctx'⟩ :=
      declaration_derives ⟨ht₂, hΓ, herr⟩ hrun
    -- and without it the declaration has the type that it has with it
    have hty' : HasType Γ v' d'.ty := (HasType.declare.mp ⟨d', hblank', htyped', rfl⟩).1
    obtain ⟨-, η, hη⟩ :=
      hall _ (HasType.declare.mpr ⟨hty'.of_bare hplaces, by simp [Annotated]⟩)
    rw [Infer.bindName_of_blank hblank'] at hctx'
    replace hctx' : w'.context = Γ.insert n.text s' := hn ▸ hctx'
    refine .inr ⟨d', w', s', rfl, errors_of_passed hrun, hctx', ?_⟩
    rw [htext]
    exact (congrArg Ty.normalized hgen'.body).trans (Ty.normalized_eq_of_subst hη hθ)

/-- `let pair = fun f x -> (f x, f)`, and the same with the type that is reported for it. -/
theorem declaration_pasted_pair :
    let w : Workspace := ⟨.root {}, Builtins.context⟩
    let name (x : String) : Name := ⟨x, {}⟩
    let v : Expr := .lam none [.ident (name "f"), .ident (name "x")] none
      (.tuple [.app (.ident (name "f")) [.ident (name "x")] {}, .ident (name "f")] {}) none {}
    v.Wide ∧ ∃ d w₁ s tokens h c d' w₂ s',
      declaration (.bind (name "pair") none v none {}) w = .ok (true, d) w₁ ∧
      w₁.context = w.context.insert "pair" s ∧ s.text = "('a -> 'b) -> 'a -> 'b * ('a -> 'b)" ∧
      Token.lex s.text = .ok tokens ∧ Grammar.hint (.ofTokens tokens) = .ok h c ∧ c.rest = [] ∧
      declaration (.bind (name "pair") (some h) v none {}) w = .ok (true, d') w₂ ∧
      w₂.context = w.context.insert "pair" s' ∧ s'.text = s.text := by
  intro w name v
  have hv : v.Wide := by
    have happ : (Expr.app (.ident (name "f")) [.ident (name "x")] {}).Wide :=
      .app _ (.ident _) (List.forall_mem_singleton.mpr (.ident _))
    refine .lam _ _ ?_ nofun (.tuple _ (Nat.le_refl 2) ?_) nofun
    · exact List.forall_mem_cons.mpr ⟨.ident _, List.forall_mem_singleton.mpr (.ident _)⟩
    · exact List.forall_mem_cons.mpr ⟨happ, List.forall_mem_singleton.mpr (.ident _)⟩
  have htype : (type? (.bind (name "pair") none v none {}) w).map Ty.normalized =
      some "('a -> 'b) -> 'a -> 'b * ('a -> 'b)" := by decide +kernel
  have hread : (match Token.lex "('a -> 'b) -> 'a -> 'b * ('a -> 'b)" with
      | .ok tokens =>
        match Grammar.hint (.ofTokens tokens) with
        | .ok h _ => (type? (.bind (name "pair") (some h) v none {}) w).isSome
        | .error _ _ => false
      | .error _ => false) = true := by decide +kernel
  obtain ⟨t, ht, hnormal⟩ := Option.map_eq_some_iff.mp htype
  obtain ⟨d, w₁, hpass, rfl⟩ := exists_of_type? ht
  obtain ⟨s, hctx, tokens, h, c, hlex, hparse, hrest, hpasted⟩ :=
    declaration_pasted rfl (rfl : w.checker.builtins = _) Builtins.context_closed
      Builtins.context_errorFree Builtins.context_wide hv rfl rfl hpass
  have htext : s.text = "('a -> 'b) -> 'a -> 'b * ('a -> 'b)" := by
    obtain ⟨-, hblank, -, -, s', hgen, hctx'⟩ := declaration_derives
      ⟨rfl, Builtins.context_closed, Builtins.context_errorFree⟩ hpass
    rw [Infer.bindName_of_blank hblank, hctx] at hctx'
    have hsame : s = s' := by
      simpa [Infer.bindName, Expr.declared?, FinMap.get?_insert, name] using
        congrArg (FinMap.get? · "pair") hctx'
    rw [hsame, ← hnormal, ← hgen.body]
    rfl
  rw [← htext, hlex] at hread
  dsimp only at hread
  rw [hparse] at hread
  obtain ⟨t', ht'⟩ := Option.isSome_iff_exists.mp hread
  obtain ⟨d', w₂, hpass', -⟩ := exists_of_type? ht'
  rcases hpasted with ⟨_, hstop, -⟩ | ⟨_, _, s', hrun, -, hctx', htext'⟩
  · cases hpass'.symm.trans hstop
  · cases hpass'.symm.trans hrun
    exact ⟨hv, d, w₁, s, tokens, h, c, d', w₂, s', hpass, hctx, htext, hlex, hparse, hrest, hpass',
      hctx', htext'⟩

end Check
end MiniML
