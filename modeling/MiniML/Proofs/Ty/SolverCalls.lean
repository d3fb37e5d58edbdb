import MiniML.Proofs.Ty.Solver

/-!
# Sequences of calls to the solver

A caller starts from the empty substitution and unifies and binds as it
likes, on types that may contain the error type, going on after failures with
whatever was bound before them. Only `bind` asks for something: its variable
is not bound yet (`SolverCall.Allowed`).

One call keeps the substitution idempotent and only refines it
(`SolverCall.after_grows`), hence so does a whole sequence (`Calls.grows`).
`Calls.history` says this of every call in every sequence, and that an
equation once solved stays solved, up to the error type, in all later states.
-/
namespace MiniML

/-- A call of the solver. -/
inductive SolverCall where
  | unify (s t : Ty)
  | bind (v : TyVar) (t : Ty)
  deriving Repr

namespace SolverCall

/-- The step that a call is. -/
def run : SolverCall → Solving Unit
  | .unify s t => MiniML.unify s t
  | .bind v t => Subst.bind v t

/-- A bound variable is not bound again. -/
def Allowed (σ : Subst) : SolverCall → Prop
  | .unify _ _ => True
  | .bind v _ => σ.get? v = none

/-- The substitution after a call, also one that fails. -/
def after (c : SolverCall) (σ : Subst) : Subst := (outcome (c.run σ)).2

/-- Nothing stops the call. -/
def Succeeds (c : SolverCall) (σ : Subst) : Prop := (outcome (c.run σ)).1 = none

instance (c : SolverCall) (σ : Subst) : Decidable (c.Succeeds σ) :=
  inferInstanceAs (Decidable ((outcome (c.run σ)).1 = none))

instance (σ : Subst) : (c : SolverCall) → Decidable (c.Allowed σ)
  | .unify _ _ => .isTrue trivial
  | .bind v _ => inferInstanceAs (Decidable (σ.get? v = none))

variable {σ : Subst}

theorem bind_cases (σ : Subst) (v : TyVar) (t : Ty) :
    (bind v t).after σ = σ ∨
      v ∉ (σ.apply t).leaves ∧ (bind v t).after σ = σ.assign v (σ.apply t) := by
  simp only [after, run, Subst.bind]
  split
  · exact .inl rfl
  · split
    · exact .inl rfl
    · rename_i h
      exact .inr ⟨by simpa [Ty.occurs] using h, rfl⟩

theorem after_grows {c : SolverCall} (hσ : σ.Idempotent) (hc : c.Allowed σ) :
    (c.after σ).Idempotent ∧ σ.RefinedBy (c.after σ).image := by
  cases c with
  | unify s t => exact unify_grows hσ rfl
  | bind v t =>
    rcases bind_cases σ v t with h | ⟨hv, h⟩
    · rw [h]
      exact ⟨hσ, Subst.refinedBy_image hσ⟩
    · rw [h]
      have hb : σ.Bindable v (σ.apply t) :=
        ⟨hc, fun _ hw => Subst.get?_of_mem_apply hσ hw, hv⟩
      exact ⟨hσ.assign hb, Subst.refinedBy_assign hσ hb⟩

end SolverCall

/-- `ρ` is reached from `σ` by a sequence of calls. -/
inductive Calls : Subst → List SolverCall → Subst → Prop
  | nil (σ : Subst) : Calls σ [] σ
  | cons {σ ρ : Subst} {c : SolverCall} {cs : List SolverCall} :
      c.Allowed σ → Calls (c.after σ) cs ρ → Calls σ (c :: cs) ρ

namespace Calls

theorem grows {σ ρ : Subst} {cs : List SolverCall} (h : Calls σ cs ρ) (hσ : σ.Idempotent) :
    ρ.Idempotent ∧ σ.RefinedBy ρ.image := by
  induction h with
  | nil σ => exact ⟨hσ, Subst.refinedBy_image hσ⟩
  | cons hc _ ih =>
    obtain ⟨hi, hr⟩ := SolverCall.after_grows hσ hc
    obtain ⟨hi', hr'⟩ := ih hi
    exact ⟨hi', hr.trans hi hr'⟩

/-- Every call of every sequence, whatever came before and comes after:
no bound variable occurs in a bound type, so that following bindings ends and
a second application changes nothing; the call only refines the state it
found; and if it unified two types, they agree up to the error type from then
on. -/
theorem history {before later : List SolverCall} {c : SolverCall} {σ ρ : Subst}
    (hbefore : Calls .empty before σ) (hc : c.Allowed σ) (hlater : Calls (c.after σ) later ρ) :
    (c.after σ).Idempotent ∧
    (∀ t u, (c.after σ).Resolves t u ↔ u = (c.after σ).apply t) ∧
    (∀ t, (c.after σ).apply ((c.after σ).apply t) = (c.after σ).apply t) ∧
    (∀ t, (c.after σ).apply (σ.apply t) = (c.after σ).apply t) ∧
    ∀ s t, c = .unify s t → c.Succeeds σ → Agree (ρ.apply s) (ρ.apply t) := by
  have hσ := (hbefore.grows Subst.idempotent_empty).1
  obtain ⟨hi, hr⟩ := SolverCall.after_grows hσ hc
  obtain ⟨hi', hr'⟩ := hlater.grows hi
  refine ⟨hi, fun t u => Subst.resolves_iff hi, Subst.apply_apply hi, hr.apply hi, ?_⟩
  rintro s t rfl hs
  have ho : outcome (unify s t σ) = (none, (SolverCall.unify s t).after σ) := Prod.ext hs rfl
  have ha := (unify_agree hσ ho).subst ρ.image
  rwa [hr' s, hr' t, ← Subst.apply_eq_subst hi', ← Subst.apply_eq_subst hi'] at ha

end Calls

/-- A failed call that bound a variable, a successful one on a type with a
hole, and a later one that fills the hole. -/
theorem calls_history_sample :
    let before : List SolverCall :=
      [.unify (.fn (.var 0) .unit) (.fn (.var 1) (.prim .int)), .bind 2 (.fn (.var 0) .error)]
    let c : SolverCall := .unify (.var 2) (.fn (.prim .int) (.var 3))
    let later : List SolverCall := [.unify (.var 3) (.prim .bool)]
    ∃ σ ρ, Calls .empty before σ ∧ c.Allowed σ ∧ Calls (c.after σ) later ρ ∧
      (c.after σ).Idempotent ∧ c.Succeeds σ ∧
      Agree (ρ.apply (.var 2)) (ρ.apply (.fn (.prim .int) (.var 3))) ∧
      ρ.apply (.var 2) = .fn (.prim .int) .error ∧
      ρ.apply (.fn (.prim .int) (.var 3)) = .fn (.prim .int) (.prim .bool) := by
  intro before c later
  let σ : Subst := (SolverCall.bind 2 (.fn (.var 0) .error)).after
    ((SolverCall.unify (.fn (.var 0) .unit) (.fn (.var 1) (.prim .int))).after .empty)
  let ρ : Subst := (SolverCall.unify (.var 3) (.prim .bool)).after (c.after σ)
  have hbefore : Calls .empty before σ :=
    .cons trivial (.cons (by decide) (.nil _))
  have hlater : Calls (c.after σ) later ρ := .cons trivial (.nil _)
  have hc : c.Allowed σ := trivial
  have h := Calls.history hbefore hc hlater
  exact ⟨σ, ρ, hbefore, hc, hlater, h.1, by decide, h.2.2.2.2 _ _ rfl (by decide),
    by decide, by decide⟩

end MiniML
