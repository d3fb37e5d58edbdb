import MiniML.Proofs.Ty.Blur

/-!
# Most general unifiers

Without the error type, `unify` decides whether two types have a common
instance that respects what is known, and finds the most general one
(`unify_mostGeneral`). A map `θ` from variables to types respects `σ` if
`σ.RefinedBy θ`: to apply `σ` before `θ` changes nothing. An idempotent
substitution acts on types as such a map (`Subst.apply_eq_subst`).
-/
namespace MiniML

/-- Unification finds a most general unifier if there is any, and what it
reports otherwise is a conflict of resolved types. More rounds than it takes
would not change the answer: no run is cut short. -/
theorem unify_mostGeneral {σ : Subst} {s t : Ty} (hσ : σ.Idempotent) (he : σ.ErrorFree)
    (hs : s.errorFree = true) (ht : t.errorFree = true) :
    (∀ n, (unknowns (residue (σ.apply s) (σ.apply t))).length ≤ n →
      solve n (residue (σ.apply s) (σ.apply t)) σ = unify s t σ) ∧
    ((∃ σ', unify s t σ = .ok () σ') ↔ ∃ θ, σ.RefinedBy θ ∧ s.subst θ = t.subst θ) ∧
    (∀ σ', unify s t σ = .ok () σ' →
      σ'.Idempotent ∧ σ.RefinedBy σ'.image ∧ σ'.apply s = σ'.apply t ∧
      ∀ θ, σ.RefinedBy θ → s.subst θ = t.subst θ → σ'.RefinedBy θ) ∧
    ∀ err σ', unify s t σ = .error err σ' →
      err.Conflict ∧ σ'.apply err.sides.1 = err.sides.1 ∧ σ'.apply err.sides.2 = err.sides.2 ∧
      ∀ θ, err.sides.1.subst θ ≠ err.sides.2.subst θ := by
  have hok : ∀ σ', unify s t σ = .ok () σ' → σ'.Idempotent ∧ σ.RefinedBy σ'.image ∧
      σ'.apply s = σ'.apply t ∧
      ∀ θ, σ.RefinedBy θ → s.subst θ = t.subst θ → σ'.RefinedBy θ := by
    intro σ' h
    have ho := outcome_eq_none.mpr h
    obtain ⟨hi, hr⟩ := unify_grows hσ ho
    have he' := unify_errorFree hσ ho he hs ht
    refine ⟨hi, hr, ?_, fun θ hθ hst => (unify_general hσ ho hθ hst).2⟩
    exact (unify_agree hσ ho).eq (Subst.errorFree_apply hi he' hs)
      (Subst.errorFree_apply hi he' ht)
  refine ⟨fun n hn => solve_rounds (ready_residue hσ s t) hn, ⟨?_, ?_⟩, hok, ?_⟩
  · rintro ⟨σ', h⟩
    obtain ⟨hi, hr, heq, -⟩ := hok σ' h
    refine ⟨σ'.image, hr, ?_⟩
    rw [← Subst.apply_eq_subst hi, ← Subst.apply_eq_subst hi, heq]
  · rintro ⟨θ, hθ, hst⟩
    cases h : unify s t σ with
    | ok u σ' => exact ⟨σ', rfl⟩
    | error err σ' =>
      have ho := outcome_eq_some.mpr h
      cases (unify_general hσ ho hθ hst).1
  · intro err σ' h
    have ho := outcome_eq_some.mpr h
    obtain ⟨hc, h1, h2⟩ :=
      (elimination_unify hσ ho).conflict (ready_residue hσ s t) rfl
    exact ⟨hc, h1, h2, hc.subst_ne⟩

/-- Variable 3 stands for variable 1 already; both sides share a variable, and
the equation of the second items is only met through the binding of the first. -/
theorem unify_mostGeneral_sample :
    let σ : Subst := Subst.assign .empty 3 (.var 1)
    let s : Ty := .tuple [.var 0, .var 0]
    let t : Ty := .tuple [.fn (.var 3) (.prim .int), .fn (.prim .bool) (.var 2)]
    σ.Idempotent ∧ σ.ErrorFree ∧ s.errorFree = true ∧ t.errorFree = true ∧
      (∃ θ, σ.RefinedBy θ ∧ s.subst θ = t.subst θ) ∧
      unify s t σ = .ok () (((σ.assign 0 (.fn (.var 1) (.prim .int))).assign 1 (.prim .bool)).assign
        2 (.prim .int)) := by
  intro σ s t
  have hi : σ.Idempotent :=
    Subst.idempotent_empty.assign ⟨rfl, fun _ _ => rfl, by decide⟩
  have he : σ.ErrorFree := Subst.errorFree_empty.assign rfl
  refine ⟨hi, he, rfl, rfl, ?_, rfl⟩
  exact (unify_mostGeneral hi he rfl rfl).2.1.mp ⟨_, rfl⟩

end MiniML
