import Mathlib.Data.List.Zip
import Mathlib.Logic.Equiv.Basic
import MiniML.Proofs.Ty.Rename

/-!
# Exchanging the two sides

To unify `t` with `s` is not to run the same program as to unify `s` with `t`:
between two variables the one on the left is bound, so that the two runs go on
with different variables in the place of one. What relates them is a
permutation `ρ` of the variables that grows with the runs. Where the one run
has an equation, the other has its mirror image under `ρ`
(`Equation.mirror`), and the types that the two substitutions make of a type
differ by `ρ` (`Mirrors`). A round in which both bind a type that is not a
variable keeps `ρ`; one in which the runs bind `v := w` and `ρ w := ρ v` puts
the transposition of `v` and `w` before it (`exists_binding_mirror`).

Results:
* `Elimination.mirror`: every run of the solver has a mirror image.
* `unify_symm`: the two unifications end alike.
-/
namespace MiniML

variable {σ σ' τ : Subst} {s t u : Ty} {v w : TyVar} {e : Equation} {eqs : List Equation}

/-! ## Flipped equations and errors -/

/-- The two sides of an equation exchanged. -/
def Equation.flip (e : Equation) : Equation := (e.2, e.1)

/-- The kinds of unification errors. -/
inductive UnifyErrorKind
  | mismatch
  | tupleArity
  | occurs
deriving DecidableEq, Repr

/-- Which of the three errors it is. -/
def UnifyError.kind : UnifyError → UnifyErrorKind
  | .mismatch _ _ => .mismatch
  | .tupleArity _ _ => .tupleArity
  | .occurs _ _ => .occurs

/-- The same error with what was expected and what was found exchanged. -/
def UnifyError.flip : UnifyError → UnifyError
  | .mismatch s t => .mismatch t s
  | .tupleArity s t => .tupleArity t s
  | .occurs v t => .occurs v t

@[simp] theorem UnifyError.kind_flip (x : UnifyError) : x.flip.kind = x.kind := by cases x <;> rfl

@[simp] theorem UnifyError.kind_rename (ρ : TyVar → TyVar) (x : UnifyError) :
    (x.rename ρ).kind = x.kind := by
  cases x <;> rfl

theorem Stuck.flip (h : Stuck e) : Stuck e.flip where
  left := h.right
  right := h.left
  differ := by
    rcases h.differ with hd | ⟨ts, us, h1, h2, hl⟩
    · exact .inl (Ne.symm hd)
    · exact .inr ⟨us, ts, h2, h1, Ne.symm hl⟩

theorem residue_comm (s t : Ty) : residue t s = (residue s t).map Equation.flip := by
  have hp := parts_residue s t
  generalize residue s t = r at hp ⊢
  induction hp with
  | error_left t => cases t <;> rfl
  | error_right s => cases s <;> rfl
  | var v => simp [residue]
  | prim p => simp [residue]
  | fn _ _ ha hb => rw [residue, ha, hb, List.map_append]
  | @tuple ts us hl _ ih =>
    rw [residue, if_pos hl.symm, residues_eq, List.map_flatMap, ← List.zip_swap us ts,
      List.flatMap_map]
    refine List.flatMap_congr fun p hp => ?_
    have hmem : p.swap ∈ ts.zip us := by
      rw [← List.zip_swap us ts]
      exact List.mem_map_of_mem hp
    exact ih p.swap hmem
  | stuck h => exact residue_stuck h.flip

/-! ## Mirror images -/

/-- An equation as it stands in the other run: the sides exchanged and the
variables renamed. -/
def Equation.mirror (ρ : TyVar → TyVar) (e : Equation) : Equation := (e.rename ρ).flip

/-- An error as the other run reports it. -/
def UnifyError.mirror (ρ : TyVar → TyVar) (x : UnifyError) : UnifyError := (x.rename ρ).flip

/-- The types that `τ` makes are those that `σ` makes with their variables
renamed. -/
def Mirrors (ρ : TyVar → TyVar) (σ τ : Subst) : Prop := ∀ t, τ.apply t = (σ.apply t).rename ρ

theorem mirrors_refl (σ : Subst) : Mirrors (Equiv.refl TyVar) σ σ := fun t =>
  (Ty.rename_id (σ.apply t)).symm

section Mirror

variable {ρ π : Equiv.Perm TyVar} {v' : TyVar} {t' : Ty}

theorem Stuck.mirror (h : Stuck e) : Stuck (e.mirror ρ) := (h.rename ρ.injective).flip

theorem residue_mirror (s t : Ty) :
    residue (t.rename ρ) (s.rename ρ) = (residue s t).map (Equation.mirror ρ) := by
  rw [residue_rename ρ.injective, residue_comm s t, List.map_map]
  rfl

/-- A variable that `σ` does not bind has its image unbound in a mirror image
of `σ`. -/
theorem Mirrors.get?_eq_none (h : Mirrors ρ σ τ) (hσ : σ.Idempotent) (hτ : τ.Idempotent)
    (hv : σ.get? v = none) : τ.get? (ρ v) = none := by
  have himage : τ.apply (.var v) = .var (ρ v) := by
    rw [h, Subst.apply_var hσ, Subst.image_of_none hv, Ty.rename_var]
  exact Subst.get?_of_mem_apply hτ (t := .var v) (by simp [himage])

theorem Ready.mirror (h : Ready σ eqs) (hτ : τ.Idempotent) (hm : Mirrors ρ σ τ) :
    Ready τ (eqs.map (Equation.mirror ρ)) where
  idem := hτ
  resolved := by
    refine List.forall_mem_map.mpr fun e he => ?_
    have hside : ∀ t : Ty, (∀ v ∈ t.leaves, σ.get? v = none) →
        ∀ w ∈ (t.rename ρ).leaves, τ.get? w = none := fun t ht w hw => by
      rw [Ty.leaves_rename] at hw
      obtain ⟨v, hv, rfl⟩ := List.mem_map.mp hw
      exact hm.get?_eq_none h.idem hτ (ht v hv)
    exact ⟨hside e.2 (h.resolved e he).2, hside e.1 (h.resolved e he).1⟩
  stuck := List.forall_mem_map.mpr fun e he => (h.stuck e he).mirror

/-! ## One round -/

theorem orient_mirror_eq_none (ho : orient e = none) : orient (e.mirror ρ) = none := by
  obtain ⟨s, t⟩ := e
  cases s <;> cases t <;> simp_all [orient, Equation.mirror, Equation.rename, Equation.flip]

theorem clash_mirror (ho : orient e = none) : clash (e.mirror ρ) = (clash e).mirror ρ := by
  obtain ⟨s, t⟩ := e
  cases s <;> cases t <;>
    simp_all [orient, clash, Equation.mirror, Equation.rename, Equation.flip, UnifyError.mirror,
      UnifyError.rename, UnifyError.flip]

/-- A variable against another type is found from both sides. -/
theorem orient_mirror (ho : orient e = some (v, t)) (ht : t.isVar = false) :
    orient (e.mirror ρ) = some (ρ v, t.rename ρ) := by
  obtain ⟨s, s'⟩ := e
  cases t <;> cases s <;> cases s' <;>
    simp_all [orient, Equation.mirror, Equation.rename, Equation.flip, Ty.isVar]

/-- Of two variables the one on the left is bound. -/
theorem eq_of_orient_var (ho : orient e = some (v, .var w)) : e = (.var v, .var w) := by
  obtain ⟨s, t⟩ := e
  cases s <;> cases t <;> simp_all [orient]

/-- To replace `v` by `w` or `w` by `v` is the same up to exchanging the two. -/
theorem rename_replace_var (u : Ty) (v w : TyVar) :
    (u.replace w (.var v)).rename ρ = (u.replace v (.var w)).rename ((Equiv.swap v w).trans ρ) := by
  rw [Ty.replace, Ty.replace, Ty.rename_subst, Ty.rename_subst]
  refine Ty.subst_congr fun x _ => ?_
  by_cases hv : x = v
  · subst hv
    simp
  · by_cases hw : x = w
    · simp [hw]
    · simp [hv, hw, Equiv.swap_apply_of_ne_of_ne hv hw]

/-- What the other run binds in a round: the image of the same variable or,
between two variables, that of the other one. -/
theorem exists_binding_mirror (ρ : Equiv.Perm TyVar) (ho : orient e = some (v, t))
    (hv : v ∉ t.leaves) :
    ∃ (v' : TyVar) (t' : Ty) (π : Equiv.Perm TyVar),
      orient (e.mirror ρ) = some (v', t') ∧ v' ∉ t'.leaves ∧
      ∀ u : Ty, (u.rename ρ).replace v' t' = (u.replace v t).rename π := by
  cases ht : t.isVar with
  | false =>
    refine ⟨ρ v, t.rename ρ, ρ, orient_mirror ho ht, ?_, fun u => ?_⟩
    · rwa [Ty.leaves_rename, List.mem_map_of_injective ρ.injective]
    · exact (Ty.rename_replace ρ.injective v u t).symm
  | true =>
    obtain ⟨w, rfl⟩ : ∃ w, t = .var w := by
      cases t <;> first | exact ⟨_, rfl⟩ | simp [Ty.isVar] at ht
    obtain rfl := eq_of_orient_var ho
    refine ⟨ρ w, .var (ρ v), (Equiv.swap v w).trans ρ, rfl, ?_, fun u => ?_⟩
    · rw [Ty.leaves_var, List.mem_singleton] at hv ⊢
      exact fun h => hv (ρ.injective h).symm
    · rw [← Ty.rename_var, ← Ty.rename_replace ρ.injective, rename_replace_var]

theorem eliminate_mirror (h : ∀ u : Ty, (u.rename ρ).replace v' t' = (u.replace v t).rename π)
    (eqs : List Equation) :
    eliminate v' t' (eqs.map (Equation.mirror ρ)) =
      (eliminate v t eqs).map (Equation.mirror π) := by
  simp only [eliminate, List.flatMap_map, List.map_flatMap]
  refine List.flatMap_congr fun e _ => ?_
  show residue ((e.2.rename ρ).replace v' t') ((e.1.rename ρ).replace v' t') = _
  rw [h, h, residue_mirror]

theorem Mirrors.assign (hm : Mirrors ρ σ τ) (hσ : σ.Idempotent) (hτ : τ.Idempotent)
    (hb : σ.Bindable v t) (hb' : τ.Bindable v' t')
    (h : ∀ u : Ty, (u.rename ρ).replace v' t' = (u.replace v t).rename π) :
    Mirrors π (σ.assign v t) (τ.assign v' t') := fun u => by
  rw [Subst.assign_apply hτ hb', hm u, h, Subst.assign_apply hσ hb]

end Mirror

/-! ## Whole runs -/

/-- Every run of the solver has a mirror image. The permutation grows with the
bindings, so the induction starts from any two substitutions that are related
already. -/
theorem Elimination.mirror {err : Option UnifyError} (h : Elimination eqs σ err σ')
    (hr : Ready σ eqs) (hτ : τ.Idempotent) (ρ : Equiv.Perm TyVar) (hm : Mirrors ρ σ τ) :
    ∃ (π : Equiv.Perm TyVar) (τ' : Subst),
      Elimination (eqs.map (Equation.mirror ρ)) τ (err.map (UnifyError.mirror π)) τ' ∧
      Mirrors π σ' τ' := by
  induction h generalizing τ ρ with
  | done σ => exact ⟨ρ, τ, .done τ, hm⟩
  | clash eqs σ ho =>
    refine ⟨ρ, τ, ?_, hm⟩
    rw [Option.map_some, ← clash_mirror ho]
    exact .clash _ τ (orient_mirror_eq_none ho)
  | @occurs e v t eqs σ ho hv =>
    refine ⟨ρ, τ, .occurs _ τ (orient_mirror ho ?_) ?_, hm⟩
    · -- a variable in itself is no equation that is left
      cases t with
      | var w =>
        obtain rfl := List.mem_singleton.mp hv
        exact absurd rfl (conflict_occurs (hr.stuck e (by simp)) ho hv).2
      | _ => rfl
    · rw [Ty.leaves_rename]
      exact List.mem_map_of_mem hv
  | @bind e v t eqs σ σ' err ho hv _ ih =>
    obtain ⟨v', t', π, ho', hv', hstep⟩ := exists_binding_mirror ρ ho hv
    have hr' := hr.mirror hτ hm
    rw [List.map_cons] at hr'
    have hb' := hr'.bindable ho' hv'
    obtain ⟨π', τ', hrun, hm'⟩ := ih (hr.step ho hv) (hτ.assign hb') π
      (hm.assign hr.idem hτ (hr.bindable ho hv) hb' hstep)
    refine ⟨π', τ', ?_, hm'⟩
    rw [← eliminate_mirror hstep] at hrun
    exact .bind ho' hv' hrun

/-- Unification does not depend on the order of its two arguments: both orders
succeed, or both stop with the same kind of error, and there is one renaming of
the variables that takes every type, as it is known after the one unification,
to what it is after the other. -/
theorem unify_symm (hσ : σ.Idempotent) (a b : Ty) :
    ∃ (ρ : Equiv.Perm TyVar) (σ₁ σ₂ : Subst), (∀ t, σ₂.apply t = (σ₁.apply t).rename ρ) ∧
      ((unify a b σ = .ok () σ₁ ∧ unify b a σ = .ok () σ₂) ∨
        ∃ e₁ e₂ : UnifyError, unify a b σ = .error e₁ σ₁ ∧ unify b a σ = .error e₂ σ₂ ∧
          e₂ = (e₁.rename ρ).flip ∧ e₂.kind = e₁.kind) := by
  obtain ⟨ρ, τ, hrun, hm⟩ := (elimination_unify (s := a) (t := b) hσ rfl).mirror
    (ready_residue hσ a b) hσ (Equiv.refl TyVar) (mirrors_refl σ)
  have heqs : (residue (σ.apply a) (σ.apply b)).map (Equation.mirror (Equiv.refl TyVar)) =
      residue (σ.apply b) (σ.apply a) := by
    rw [← residue_mirror]
    exact congrArg₂ residue (Ty.rename_id _) (Ty.rename_id _)
  rw [heqs] at hrun
  obtain ⟨herr, hsubst⟩ := (elimination_unify hσ rfl).unique hrun
  refine ⟨ρ, _, τ, hm, ?_⟩
  cases h₁ : unify a b σ with
  | ok _ σ₁ =>
    rw [h₁] at herr
    exact .inl ⟨rfl, outcome_injective (Prod.ext herr hsubst)⟩
  | error e₁ σ₁ =>
    rw [h₁] at herr
    refine .inr ⟨e₁, (e₁.rename ρ).flip, rfl, outcome_injective (Prod.ext herr hsubst), rfl, ?_⟩
    rw [UnifyError.kind_flip, UnifyError.kind_rename]

/-- The one run binds `'t0` to `'t1` and `'t2` to `'t4`, the other the other way
round. -/
theorem unify_symm_sample :
    let σ : Subst := Subst.assign .empty 3 (.fn (.var 2) .error)
    let a : Ty := .tuple [.var 0, .var 3]
    let b : Ty := .tuple [.var 1, .fn (.var 4) (.prim .bool)]
    σ.Idempotent ∧ ∃ (ρ : Equiv.Perm TyVar) (σ₁ σ₂ : Subst),
      unify a b σ = .ok () σ₁ ∧ unify b a σ = .ok () σ₂ ∧ σ₁ ≠ σ₂ ∧
      σ₂.apply a = (σ₁.apply a).rename ρ ∧ σ₂.apply b = (σ₁.apply b).rename ρ := by
  intro σ a b
  have hi : σ.Idempotent := Subst.idempotent_empty.assign ⟨rfl, fun _ _ => rfl, by decide⟩
  refine ⟨hi, ?_⟩
  obtain ⟨ρ, σ₁, σ₂, hm, ⟨h₁, h₂⟩ | ⟨e₁, _, h₁, -⟩⟩ := unify_symm hi a b
  · have hne : (outcome (unify a b σ)).2.get? 0 ≠ (outcome (unify b a σ)).2.get? 0 := by decide
    refine ⟨ρ, σ₁, σ₂, h₁, h₂, fun h => hne ?_, hm a, hm b⟩
    rw [h₁, h₂, h]
  · cases h₁

end MiniML
