import Mathlib.Data.List.Perm.Subperm
import MiniML.Proofs.Ty.Equation
import MiniML.Proofs.Ty.Idempotent

/-!
# The runs of the solver

`solve` counts its rounds down from the number of unknowns. `Elimination` is
the same algorithm without a count: a derivation is a run that has ended.
From an idempotent substitution and equations that are resolved and taken
apart (`Ready`), the rounds suffice (`elimination_solve`), so whatever holds
of every elimination holds of `solve`, and it is proved by induction on the
elimination:

* `Elimination.grows`: the substitution stays idempotent and only grows.
* `Elimination.agree`: if nothing stopped the run, the equations hold up to
  the error type.
* `Elimination.conflict`: what stopped a run is a conflict of resolved types.
* `Elimination.frame`: only variables of the equations are bound, to types
  over variables of the equations.
-/
namespace MiniML

/-! ## Sets of variables -/

theorem pairwise_insertVar {v : TyVar} {ws : List TyVar} (h : ws.Pairwise (· < ·)) :
    (insertVar v ws).Pairwise (· < ·) := by
  induction ws with
  | nil => simp [insertVar]
  | cons w ws ih =>
    obtain ⟨hw, hws⟩ := List.pairwise_cons.mp h
    simp only [insertVar]
    split
    · rename_i hlt
      refine List.pairwise_cons.mpr ⟨fun x hx => ?_, h⟩
      rcases List.mem_cons.mp hx with rfl | hx
      · exact hlt
      · exact Nat.lt_trans hlt (hw x hx)
    · rename_i hge
      split
      · exact h
      · rename_i hne
        refine List.pairwise_cons.mpr ⟨fun x hx => ?_, ih hws⟩
        rcases mem_insertVar.mp hx with rfl | hx
        · exact Nat.lt_of_le_of_ne (Nat.le_of_not_lt hge) (Ne.symm hne)
        · exact hw x hx

theorem pairwise_ascending (vs : List TyVar) : (ascending vs).Pairwise (· < ·) := by
  induction vs with
  | nil => exact .nil
  | cons v vs ih => exact pairwise_insertVar ih

theorem nodup_ascending (vs : List TyVar) : (ascending vs).Nodup :=
  (pairwise_ascending vs).imp fun h => Nat.ne_of_lt h

/-! ## Runs -/

/-- The runs of the solver, from the first equation on: the equations that
are left, the substitution, what stopped the run if anything did, and the
last substitution. -/
inductive Elimination : List Equation → Subst → Option UnifyError → Subst → Prop
  | done (σ : Subst) : Elimination [] σ none σ
  | clash {e : Equation} (eqs : List Equation) (σ : Subst) :
      orient e = none → Elimination (e :: eqs) σ (some (clash e)) σ
  | occurs {e : Equation} {v : TyVar} {t : Ty} (eqs : List Equation) (σ : Subst) :
      orient e = some (v, t) → v ∈ t.leaves → Elimination (e :: eqs) σ (some (.occurs v t)) σ
  | bind {e : Equation} {v : TyVar} {t : Ty} {eqs : List Equation} {σ σ' : Subst}
      {err : Option UnifyError} :
      orient e = some (v, t) → v ∉ t.leaves →
      Elimination (eliminate v t eqs) (σ.assign v t) err σ' → Elimination (e :: eqs) σ err σ'

/-- What stopped the solver, if anything did, and the last substitution. -/
def outcome : EStateM.Result UnifyError Subst Unit → Option UnifyError × Subst
  | .ok _ σ => (none, σ)
  | .error e σ => (some e, σ)

theorem outcome_injective {r r' : EStateM.Result UnifyError Subst Unit}
    (h : outcome r = outcome r') : r = r' := by
  cases r <;> cases r' <;> simp_all [outcome]

theorem outcome_eq_none {r : EStateM.Result UnifyError Subst Unit} {σ : Subst} :
    outcome r = (none, σ) ↔ r = .ok () σ := by
  cases r <;> simp [outcome]

theorem outcome_eq_some {r : EStateM.Result UnifyError Subst Unit} {e : UnifyError} {σ : Subst} :
    outcome r = (some e, σ) ↔ r = .error e σ := by
  cases r <;> simp [outcome]

/-- Equations that the solver may be given: resolved, and taken apart. -/
structure Ready (σ : Subst) (eqs : List Equation) : Prop where
  idem : σ.Idempotent
  resolved : ∀ e ∈ eqs, (∀ v ∈ e.1.leaves, σ.get? v = none) ∧ ∀ v ∈ e.2.leaves, σ.get? v = none
  stuck : ∀ e ∈ eqs, Stuck e

theorem ready_residue {σ : Subst} (hσ : σ.Idempotent) (s t : Ty) :
    Ready σ (residue (σ.apply s) (σ.apply t)) where
  idem := hσ
  resolved _ he := leaves_residue (fun _ hv => Subst.get?_of_mem_apply hσ hv)
    (fun _ hv => Subst.get?_of_mem_apply hσ hv) he
  stuck _ he := stuck_of_mem_residue he

theorem orient_eq_some {e : Equation} {v : TyVar} {t : Ty} (h : orient e = some (v, t)) :
    e.1 = .var v ∧ e.2 = t ∨ e.2 = .var v ∧ e.1 = t := by
  unfold orient at h
  split at h <;> simp_all

theorem orient_eq_none {e : Equation} (h : orient e = none) :
    e.1.isVar = false ∧ e.2.isVar = false := by
  obtain ⟨s, t⟩ := e
  cases s <;> cases t <;> simp_all [orient, Ty.isVar]

theorem conflict_clash {e : Equation} (hs : Stuck e) (ho : orient e = none) :
    (clash e).Conflict ∧ (clash e).sides = e := by
  obtain ⟨s, t⟩ := e
  obtain ⟨hl, hr, hd⟩ := hs
  obtain ⟨h1, h2⟩ := orient_eq_none ho
  by_cases htup : ∃ ts us, s = .tuple ts ∧ t = .tuple us
  · obtain ⟨ts, us, rfl, rfl⟩ := htup
    refine ⟨⟨ts, us, rfl, rfl, ?_⟩, rfl⟩
    rcases hd with hd | ⟨ts', us', e1, e2, hl⟩
    · exact absurd rfl hd
    · cases e1; cases e2; exact hl
  · have hcl : clash (s, t) = .mismatch s t := by
      cases s <;> cases t <;> first | rfl | exact absurd ⟨_, _, rfl, rfl⟩ htup
    rw [hcl]
    refine ⟨⟨h1, h2, hl, hr, ?_⟩, rfl⟩
    rcases hd with hd | ⟨ts', us', e1, e2, -⟩
    · exact hd
    · exact absurd ⟨ts', us', e1, e2⟩ htup

theorem conflict_occurs {e : Equation} {v : TyVar} {t : Ty} (hs : Stuck e)
    (ho : orient e = some (v, t)) (hv : v ∈ t.leaves) : (UnifyError.occurs v t).Conflict := by
  refine ⟨hv, ?_⟩
  rintro rfl
  have h1 : e.1 = .var v ∧ e.2 = .var v := by
    rcases orient_eq_some ho with ⟨e1, e2⟩ | ⟨e2, e1⟩
    · exact ⟨e1, e2⟩
    · exact ⟨e1, e2⟩
  rcases hs.differ with hd | ⟨ts, us, h2, -⟩
  · exact hd (by rw [h1.1, h1.2])
  · rw [h1.1] at h2; cases h2

theorem mem_eliminate {e : Equation} {v : TyVar} {t : Ty} {eqs : List Equation} :
    e ∈ eliminate v t eqs ↔ ∃ d ∈ eqs, e ∈ residue (d.1.replace v t) (d.2.replace v t) := by
  simp only [eliminate, List.mem_flatMap]

/-- The leaves of an eliminated variable's equations avoid it. -/
theorem leaves_eliminate {A : TyVar → Prop} {v : TyVar} {t : Ty} {eqs : List Equation}
    (ht : ∀ w ∈ t.leaves, A w)
    (h : ∀ e ∈ eqs, (∀ w ∈ e.1.leaves, w ≠ v → A w) ∧ ∀ w ∈ e.2.leaves, w ≠ v → A w) :
    ∀ e ∈ eliminate v t eqs, (∀ w ∈ e.1.leaves, A w) ∧ ∀ w ∈ e.2.leaves, A w := by
  intro e he
  obtain ⟨d, hd, he⟩ := mem_eliminate.mp he
  refine leaves_residue (fun w hw => ?_) (fun w hw => ?_) he
  · rcases Subst.mem_leaves_replace hw with ⟨hw, hne⟩ | hw
    · exact (h d hd).1 w hw hne
    · exact ht w hw
  · rcases Subst.mem_leaves_replace hw with ⟨hw, hne⟩ | hw
    · exact (h d hd).2 w hw hne
    · exact ht w hw

namespace Ready

variable {σ : Subst} {e : Equation} {eqs : List Equation} {v : TyVar} {t : Ty}

theorem bindable (h : Ready σ (e :: eqs)) (ho : orient e = some (v, t)) (hv : v ∉ t.leaves) :
    σ.Bindable v t := by
  obtain ⟨h1, h2⟩ := h.resolved e (by simp)
  rcases orient_eq_some ho with ⟨e1, e2⟩ | ⟨e2, e1⟩
  · rw [e1] at h1; rw [e2] at h2
    exact ⟨h1 v (by simp), h2, hv⟩
  · rw [e1] at h1; rw [e2] at h2
    exact ⟨h2 v (by simp), h1, hv⟩

/-- A round of the solver: the equations that remain are resolved by the new
substitution. -/
theorem step (h : Ready σ (e :: eqs)) (ho : orient e = some (v, t)) (hv : v ∉ t.leaves) :
    Ready (σ.assign v t) (eliminate v t eqs) where
  idem := h.idem.assign (h.bindable ho hv)
  resolved := by
    have hb := h.bindable ho hv
    have hkeep : ∀ w, σ.get? w = none → w ≠ v → (σ.assign v t).get? w = none := by
      intro w hw hne
      rw [Subst.get?_assign, if_neg hne, hw]; rfl
    refine leaves_eliminate (fun w hw => hkeep w (hb.resolved w hw) fun e => hv (e ▸ hw)) ?_
    intro d hd
    have := h.resolved d (List.mem_cons_of_mem _ hd)
    exact ⟨fun w hw => hkeep w (this.1 w hw), fun w hw => hkeep w (this.2 w hw)⟩
  stuck d hd := by
    obtain ⟨_, -, hd⟩ := mem_eliminate.mp hd
    exact stuck_of_mem_residue hd

end Ready

/-! ## The rounds suffice -/

theorem mem_unknowns {v : TyVar} {eqs : List Equation} :
    v ∈ unknowns eqs ↔ ∃ e ∈ eqs, v ∈ e.1.leaves ∨ v ∈ e.2.leaves := by
  simp only [unknowns, mem_ascending, List.mem_flatMap, List.mem_append]

theorem length_unknowns_le {eqs fs : List Equation} (h : unknowns eqs ⊆ unknowns fs) :
    (unknowns eqs).length ≤ (unknowns fs).length :=
  (List.subperm_of_subset (nodup_ascending _) h).length_le

theorem length_unknowns_lt {eqs fs : List Equation} {v : TyVar} (hv : v ∈ unknowns fs)
    (h : ∀ w ∈ unknowns eqs, w ∈ unknowns fs ∧ w ≠ v) :
    (unknowns eqs).length < (unknowns fs).length := by
  have hnodup : (v :: unknowns eqs).Nodup :=
    List.nodup_cons.mpr ⟨fun hm => (h v hm).2 rfl, nodup_ascending _⟩
  have hincl : v :: unknowns eqs ⊆ unknowns fs :=
    List.cons_subset.mpr ⟨hv, fun w hw => (h w hw).1⟩
  exact Nat.lt_of_succ_le (List.subperm_of_subset hnodup hincl).length_le

/-- A round takes an unknown away. -/
theorem length_unknowns_eliminate {e : Equation} (eqs : List Equation) {v : TyVar} {t : Ty}
    (ho : orient e = some (v, t)) (hv : v ∉ t.leaves) :
    (unknowns (eliminate v t eqs)).length < (unknowns (e :: eqs)).length := by
  have hmem : ∀ w, w ∈ e.1.leaves ∨ w ∈ e.2.leaves → w ∈ unknowns (e :: eqs) :=
    fun w hw => mem_unknowns.mpr ⟨e, by simp, hw⟩
  have hside : v ∈ unknowns (e :: eqs) ∧ ∀ w ∈ t.leaves, w ∈ unknowns (e :: eqs) := by
    rcases orient_eq_some ho with ⟨e1, e2⟩ | ⟨e2, e1⟩
    · exact ⟨hmem v (by simp [e1]), fun w hw => hmem w (.inr (e2 ▸ hw))⟩
    · exact ⟨hmem v (by simp [e2]), fun w hw => hmem w (.inl (e1 ▸ hw))⟩
  have hrest : ∀ d ∈ eliminate v t eqs,
      (∀ w ∈ d.1.leaves, w ∈ unknowns (e :: eqs) ∧ w ≠ v) ∧
        ∀ w ∈ d.2.leaves, w ∈ unknowns (e :: eqs) ∧ w ≠ v := by
    refine leaves_eliminate (fun w hw => ⟨hside.2 w hw, fun e => hv (e ▸ hw)⟩) fun d hd => ?_
    have hd' := List.mem_cons_of_mem e hd
    exact ⟨fun w hw hne => ⟨mem_unknowns.mpr ⟨d, hd', .inl hw⟩, hne⟩,
      fun w hw hne => ⟨mem_unknowns.mpr ⟨d, hd', .inr hw⟩, hne⟩⟩
  refine length_unknowns_lt hside.1 fun w hw => ?_
  obtain ⟨d, hd, hw⟩ := mem_unknowns.mp hw
  exact hw.elim ((hrest d hd).1 w) ((hrest d hd).2 w)

theorem elimination_solve {σ : Subst} {eqs : List Equation} (h : Ready σ eqs) {n : Nat}
    (hn : (unknowns eqs).length ≤ n) :
    Elimination eqs σ (outcome (solve n eqs σ)).1 (outcome (solve n eqs σ)).2 := by
  induction n using Nat.strongRecOn generalizing σ eqs with
  | ind n ih =>
    cases eqs with
    | nil => rw [solve]; exact .done σ
    | cons e eqs =>
      rw [solve]
      cases ho : orient e with
      | none => exact .clash eqs σ ho
      | some vt =>
        obtain ⟨v, t⟩ := vt
        by_cases hv : v ∈ t.leaves
        · simp only [Ty.occurs_iff.mpr hv, if_true]
          exact .occurs eqs σ ho hv
        · simp only [Ty.occurs_eq_false.mpr hv, Bool.false_eq_true, if_false]
          have hlt := length_unknowns_eliminate eqs ho hv
          cases n with
          | zero => omega
          | succ n => exact .bind ho hv (ih n (Nat.lt_succ_self n) (h.step ho hv) (by omega))

theorem Elimination.unique {eqs : List Equation} {σ σ₁ σ₂ : Subst} {err₁ err₂ : Option UnifyError}
    (h₁ : Elimination eqs σ err₁ σ₁) (h₂ : Elimination eqs σ err₂ σ₂) :
    err₁ = err₂ ∧ σ₁ = σ₂ := by
  induction h₁ with
  | done => cases h₂; exact ⟨rfl, rfl⟩
  | clash eqs σ ho =>
    cases h₂ with
    | clash => exact ⟨rfl, rfl⟩
    | occurs _ _ ho' => rw [ho] at ho'; cases ho'
    | bind ho' => rw [ho] at ho'; cases ho'
  | occurs eqs σ ho hv =>
    cases h₂ with
    | clash _ _ ho' => rw [ho] at ho'; cases ho'
    | occurs _ _ ho' => rw [ho] at ho'; cases ho'; exact ⟨rfl, rfl⟩
    | bind ho' hv' => rw [ho] at ho'; cases ho'; exact absurd hv hv'
  | bind ho hv _ ih =>
    cases h₂ with
    | clash _ _ ho' => rw [ho] at ho'; cases ho'
    | occurs _ _ ho' hv' => rw [ho] at ho'; cases ho'; exact absurd hv' hv
    | bind ho' _ h => rw [ho] at ho'; cases ho'; exact ih h

/-- More rounds than there are unknowns do not change the answer. -/
theorem solve_rounds {σ : Subst} {eqs : List Equation} (h : Ready σ eqs) {n : Nat}
    (hn : (unknowns eqs).length ≤ n) : solve n eqs σ = solve (unknowns eqs).length eqs σ := by
  have hu := (elimination_solve h hn).unique (elimination_solve h (Nat.le_refl _))
  exact outcome_injective (Prod.ext hu.1 hu.2)

/-! ## What every run does -/

namespace Elimination

variable {eqs : List Equation} {σ σ' : Subst} {err : Option UnifyError} {θ : TyVar → Ty}

theorem grows (h : Elimination eqs σ err σ') (hr : Ready σ eqs) :
    σ'.Idempotent ∧ σ.RefinedBy σ'.image := by
  induction h with
  | done σ => exact ⟨hr.idem, Subst.refinedBy_image hr.idem⟩
  | clash _ σ _ => exact ⟨hr.idem, Subst.refinedBy_image hr.idem⟩
  | occurs _ σ _ _ => exact ⟨hr.idem, Subst.refinedBy_image hr.idem⟩
  | bind ho hv _ ih =>
    have hs := hr.step ho hv
    obtain ⟨hi, href⟩ := ih hs
    exact ⟨hi, (Subst.refinedBy_assign hr.idem (hr.bindable ho hv)).trans hs.idem href⟩

theorem errorFree (h : Elimination eqs σ err σ') (hσ : σ.ErrorFree)
    (he : ∀ e ∈ eqs, e.1.errorFree = true ∧ e.2.errorFree = true) : σ'.ErrorFree := by
  induction h with
  | done σ => exact hσ
  | clash _ σ _ => exact hσ
  | occurs _ σ _ _ => exact hσ
  | @bind e v t eqs σ σ' err ho hv _ ih =>
    have ht : t.errorFree = true := by
      obtain ⟨h1, h2⟩ := he e (by simp)
      rcases orient_eq_some ho with ⟨-, e2⟩ | ⟨-, e1⟩
      · rwa [← e2]
      · rwa [← e1]
    have hrep : ∀ u : Ty, u.errorFree = true → (u.replace v t).errorFree = true := fun u hu =>
      Ty.errorFree_subst.mpr ⟨hu, fun w _ => by by_cases hw : w = v <;> simp [hw, ht]⟩
    refine ih (hσ.assign ht) fun d hd => ?_
    obtain ⟨d', hd', hd⟩ := mem_eliminate.mp hd
    have := he d' (List.mem_cons_of_mem _ hd')
    exact errorFree_residue (hrep _ this.1) (hrep _ this.2) hd

/-- The equations of a run that nothing stopped hold up to the error type. -/
theorem agree (h : Elimination eqs σ err σ') (hr : Ready σ eqs) (herr : err = none) :
    Reconciles σ'.image eqs := by
  induction h with
  | done σ => intro e he; cases he
  | clash _ σ _ => cases herr
  | occurs _ σ _ _ => cases herr
  | @bind e v t eqs σ σ' err ho hv hrun ih =>
    have hs := hr.step ho hv
    have hb := hr.bindable ho hv
    have hvt : σ'.image v = t.subst σ'.image := by
      have hkeep := (hrun.grows hs).2 (.var v)
      rw [Subst.assign_apply hr.idem hb, Subst.apply_fixed hr.idem (by simp [hb.unbound])] at hkeep
      simpa [Ty.replace, Ty.subst] using hkeep.symm
    intro d hd
    rcases List.mem_cons.mp hd with rfl | hd
    · rcases orient_eq_some ho with ⟨e1, e2⟩ | ⟨e2, e1⟩
      · rw [e1, e2, ← hvt]; exact .refl _
      · rw [e1, e2, ← hvt]; exact .refl _
    · have := agree_of_residue (s := d.1.replace v t) (t := d.2.replace v t)
        fun e he => ih hs herr e (mem_eliminate.mpr ⟨d, hd, he⟩)
      rwa [Subst.subst_replace hvt, Subst.subst_replace hvt] at this

/-- What stops a run is a conflict of two types that the substitution at
that point does not change. -/
theorem conflict (h : Elimination eqs σ err σ') (hr : Ready σ eqs) {e : UnifyError}
    (herr : err = some e) :
    e.Conflict ∧ σ'.apply e.sides.1 = e.sides.1 ∧ σ'.apply e.sides.2 = e.sides.2 := by
  induction h with
  | done σ => cases herr
  | @clash d eqs σ ho =>
    cases herr
    obtain ⟨hc, hside⟩ := conflict_clash (hr.stuck d (by simp)) ho
    obtain ⟨h1, h2⟩ := hr.resolved d (by simp)
    rw [hside]
    exact ⟨hc, Subst.apply_fixed hr.idem h1, Subst.apply_fixed hr.idem h2⟩
  | @occurs d v t eqs σ ho hv =>
    cases herr
    refine ⟨conflict_occurs (hr.stuck d (by simp)) ho hv, ?_⟩
    obtain ⟨h1, h2⟩ := hr.resolved d (by simp)
    rcases orient_eq_some ho with ⟨e1, e2⟩ | ⟨e2, e1⟩
    · rw [e1] at h1; rw [e2] at h2
      exact ⟨Subst.apply_fixed hr.idem h1, Subst.apply_fixed hr.idem h2⟩
    · rw [e1] at h1; rw [e2] at h2
      exact ⟨Subst.apply_fixed hr.idem h2, Subst.apply_fixed hr.idem h1⟩
  | bind ho hv _ ih => exact ih (hr.step ho hv) herr

/-- A run binds variables of its equations only, to types over variables of
its equations. -/
theorem frame (h : Elimination eqs σ err σ') (hr : Ready σ eqs) {A : TyVar → Prop}
    (hA : ∀ e ∈ eqs, (∀ v ∈ e.1.leaves, A v) ∧ ∀ v ∈ e.2.leaves, A v) :
    (∀ v, ¬ A v → σ.get? v = none → σ'.get? v = none) ∧
      ∀ v, A v → σ.get? v = none → ∀ w ∈ (σ'.apply (.var v)).leaves, A w := by
  have hself : ∀ {σ : Subst}, σ.Idempotent → ∀ v, A v → σ.get? v = none →
      ∀ w ∈ (σ.apply (.var v)).leaves, A w := by
    intro σ hσ v hv hn w hw
    rw [Subst.apply_fixed hσ (by simp [hn]), Ty.leaves_var, List.mem_singleton] at hw
    rwa [hw]
  induction h with
  | done σ => exact ⟨fun _ _ hn => hn, hself hr.idem⟩
  | clash _ σ _ => exact ⟨fun _ _ hn => hn, hself hr.idem⟩
  | occurs _ σ _ _ => exact ⟨fun _ _ hn => hn, hself hr.idem⟩
  | @bind e v t eqs σ σ' err ho hv hrun ih =>
    have hs := hr.step ho hv
    have hb := hr.bindable ho hv
    have hvt : A v ∧ ∀ w ∈ t.leaves, A w := by
      obtain ⟨h1, h2⟩ := hA e (by simp)
      rcases orient_eq_some ho with ⟨e1, e2⟩ | ⟨e2, e1⟩
      · rw [e1] at h1; rw [e2] at h2; exact ⟨h1 v (by simp), h2⟩
      · rw [e1] at h1; rw [e2] at h2; exact ⟨h2 v (by simp), h1⟩
    have hA' := leaves_eliminate (v := v) hvt.2 fun d hd =>
      have := hA d (List.mem_cons_of_mem e hd)
      ⟨fun w hw _ => this.1 w hw, fun w hw _ => this.2 w hw⟩
    obtain ⟨hout, hin⟩ := ih hs hA'
    have hkeep : ∀ w, w ≠ v → σ.get? w = none → (σ.assign v t).get? w = none := by
      intro w hne hw
      rw [Subst.get?_assign, if_neg hne, hw]; rfl
    refine ⟨fun w hw hn => hout w hw (hkeep w (fun e => hw (e ▸ hvt.1)) hn), fun w hw hn => ?_⟩
    by_cases hwv : w = v
    · subst hwv
      -- the bound variable stands for a type over unbound ones
      have hext := hrun.grows hs
      have happ := hext.2.apply hext.1 (.var w)
      rw [Subst.assign_apply hr.idem hb, Subst.apply_fixed hr.idem (by simp [hn])] at happ
      have hrep : (Ty.var w).replace w t = t := by simp [Ty.replace, Ty.subst]
      rw [hrep] at happ
      intro x hx
      rw [← happ, Subst.mem_leaves_apply hext.1] at hx
      obtain ⟨y, hy, hx⟩ := hx
      exact hin y (hvt.2 y hy) (hkeep y (fun e => hv (e ▸ hy)) (hb.resolved y hy)) x hx
    · exact hin w hw (hkeep w hwv hn)

end Elimination

/-! ## Unifying two types -/

section Unify

variable {σ σ' : Subst} {s t : Ty} {err : Option UnifyError} {θ : TyVar → Ty}

theorem elimination_unify (hσ : σ.Idempotent) (h : outcome (unify s t σ) = (err, σ')) :
    Elimination (residue (σ.apply s) (σ.apply t)) σ err σ' := by
  have := elimination_solve (ready_residue hσ s t) (Nat.le_refl _)
  unfold unify at h
  rwa [h] at this

theorem unify_grows (hσ : σ.Idempotent) (h : outcome (unify s t σ) = (err, σ')) :
    σ'.Idempotent ∧ σ.RefinedBy σ'.image :=
  (elimination_unify hσ h).grows (ready_residue hσ s t)

theorem unify_errorFree (hσ : σ.Idempotent) (h : outcome (unify s t σ) = (err, σ'))
    (he : σ.ErrorFree) (hs : s.errorFree = true) (ht : t.errorFree = true) : σ'.ErrorFree :=
  (elimination_unify hσ h).errorFree he fun _ hd =>
    errorFree_residue (Subst.errorFree_apply hσ he hs) (Subst.errorFree_apply hσ he ht) hd

theorem unify_agree (hσ : σ.Idempotent) (h : outcome (unify s t σ) = (none, σ')) :
    Agree (σ'.apply s) (σ'.apply t) := by
  obtain ⟨hi, hr⟩ := unify_grows hσ h
  have hrec := (elimination_unify hσ h).agree (ready_residue hσ s t) rfl
  rw [← hr.apply hi s, ← hr.apply hi t, Subst.apply_eq_subst hi (σ.apply s),
    Subst.apply_eq_subst hi (σ.apply t)]
  exact agree_of_residue hrec

theorem unify_frame (hσ : σ.Idempotent) (h : outcome (unify s t σ) = (err, σ'))
    {A : TyVar → Prop} (hs : ∀ v ∈ (σ.apply s).leaves, A v) (ht : ∀ v ∈ (σ.apply t).leaves, A v) :
    (∀ v, ¬ A v → σ.get? v = none → σ'.get? v = none) ∧
      ∀ v, A v → σ.get? v = none → ∀ w ∈ (σ'.apply (.var v)).leaves, A w :=
  (elimination_unify hσ h).frame (ready_residue hσ s t) fun _ he => leaves_residue hs ht he

end Unify
end MiniML
