import MiniML.Proofs.Ty.Recursion

/-!
# The recursion ends

`descend` is one level of the recursion through two types, and leaves their parts
to `unify`. `Descent` is the recursion itself: both sides of an equation are
resolved; two functions, and two tuples of one length, are taken apart, and the
parts are gone through from left to right (`components`); all else is settled
where it stands (`meet`). Nothing bounds the depth or the number of calls, and a
derivation is a run that ends.

From an idempotent substitution every run ends, and it ends as `unify` does
(`descent_iff`). What decreases on the way is the number of variables that the
resolved equations mention, and, where that stays the same, the size of their
left sides (`work`). For a call that changes the substitution binds a variable of
its own two types (`unify_idle_or_binds`), and that is not mentioned afterwards.
-/
namespace MiniML

variable {σ σ' σ₁ : Subst} {s t : Ty} {eqs ps : List Equation} {err : Option UnifyError}
  {x : UnifyError} {v : TyVar}

/-! ## Runs -/

/-- Settle two resolved types that are not taken apart. -/
def meet : Ty → Ty → Solving Unit
  | .error, _ => pure ()
  | _, .error => pure ()
  | .prim p, .prim q => if p = q then pure () else throw (.mismatch (.prim p) (.prim q))
  | .var v, t => Subst.bind v t
  | s, .var v => Subst.bind v s
  | .tuple ts, .tuple us => throw (.tupleArity (.tuple ts) (.tuple us))
  | s, t => throw (.mismatch s t)

/-- The runs of the recursion, on one equation after another: the equations that
are left, the substitution, what stopped the run if anything did, and the last
substitution. -/
inductive Descent : List Equation → Subst → Option UnifyError → Subst → Prop
  | done (σ : Subst) : Descent [] σ none σ
  | met {s t : Ty} {eqs : List Equation} {σ σ₁ σ₂ : Subst} {err : Option UnifyError} :
      components (σ.apply s) (σ.apply t) = none →
      meet (σ.apply s) (σ.apply t) σ = .ok () σ₁ →
      Descent eqs σ₁ err σ₂ → Descent ((s, t) :: eqs) σ err σ₂
  | refused {s t : Ty} (eqs : List Equation) {σ σ₁ : Subst} {x : UnifyError} :
      components (σ.apply s) (σ.apply t) = none →
      meet (σ.apply s) (σ.apply t) σ = .error x σ₁ → Descent ((s, t) :: eqs) σ (some x) σ₁
  | apart {s t : Ty} {ps eqs : List Equation} {σ σ₁ σ₂ : Subst} {err : Option UnifyError} :
      components (σ.apply s) (σ.apply t) = some ps →
      Descent ps σ none σ₁ → Descent eqs σ₁ err σ₂ → Descent ((s, t) :: eqs) σ err σ₂
  | stopped {s t : Ty} {ps : List Equation} (eqs : List Equation) {σ σ₁ : Subst}
      {x : UnifyError} :
      components (σ.apply s) (σ.apply t) = some ps →
      Descent ps σ (some x) σ₁ → Descent ((s, t) :: eqs) σ (some x) σ₁

/-! ## Each level -/

theorem descend_of_none (h : components s t = none) : descend s t = meet s t := by
  cases s <;> cases t <;> first | rfl | simp_all [components, descend, meet]

theorem descend_of_some (hσ : σ.Idempotent) (h : components s t = some ps) :
    descend s t σ = unifyAll ps σ := by
  unfold components at h
  split at h
  · obtain rfl := Option.some.inj h
    rw [unifyAll_cons hσ, unifyAll_singleton]
    rfl
  · obtain ⟨hl, h⟩ := Option.ite_none_right_eq_some.mp h
    obtain rfl := Option.some.inj h
    rw [unifyAll_eq_forM hσ]
    simp only [descend, if_pos hl]
  · cases h

theorem unify_of_none (hσ : σ.Idempotent) (h : components (σ.apply s) (σ.apply t) = none) :
    unify s t σ = meet (σ.apply s) (σ.apply t) σ := by
  rw [unify_eq_descend hσ, descend_of_none h]

theorem unify_of_some (hσ : σ.Idempotent) (h : components (σ.apply s) (σ.apply t) = some ps) :
    unify s t σ = unifyAll ps σ :=
  (unify_eq_descend hσ s t).trans (descend_of_some hσ h)

theorem unifyAll_cons_ok (hσ : σ.Idempotent) (h : unify s t σ = .ok () σ₁)
    (eqs : List Equation) : unifyAll ((s, t) :: eqs) σ = unifyAll eqs σ₁ := by
  rw [unifyAll_cons hσ]
  show EStateM.bind _ _ σ = _
  rw [EStateM.bind, h]

theorem unifyAll_cons_error (hσ : σ.Idempotent) (h : unify s t σ = .error x σ₁)
    (eqs : List Equation) : unifyAll ((s, t) :: eqs) σ = .error x σ₁ := by
  rw [unifyAll_cons hσ]
  show EStateM.bind _ _ σ = _
  rw [EStateM.bind, h]

theorem idempotent_of_unify (hσ : σ.Idempotent) (h : unify s t σ = .ok () σ₁) : σ₁.Idempotent :=
  (unify_grows hσ (outcome_eq_none.mpr h)).1

/-- A run ends as unification does. -/
theorem Descent.outcome_unifyAll (h : Descent eqs σ err σ') (hσ : σ.Idempotent) :
    outcome (unifyAll eqs σ) = (err, σ') := by
  induction h with
  | done σ => rfl
  | met hnone hmeet _ ih =>
    have hu := (unify_of_none hσ hnone).trans hmeet
    rw [unifyAll_cons_ok hσ hu]
    exact ih (idempotent_of_unify hσ hu)
  | refused eqs hnone hmeet =>
    have hu := (unify_of_none hσ hnone).trans hmeet
    exact outcome_eq_some.mpr (unifyAll_cons_error hσ hu eqs)
  | apart hsome _ _ ihps ih =>
    have hu := (unify_of_some hσ hsome).trans (outcome_eq_none.mp (ihps hσ))
    rw [unifyAll_cons_ok hσ hu]
    exact ih (idempotent_of_unify hσ hu)
  | stopped eqs hsome _ ihps =>
    have hu := (unify_of_some hσ hsome).trans (outcome_eq_some.mp (ihps hσ))
    exact outcome_eq_some.mpr (unifyAll_cons_error hσ hu eqs)

/-! ## What decreases -/

namespace Ty

mutual
/-- The number of constructors of a type. -/
def size : Ty → Nat
  | .fn a b => 1 + size a + size b
  | .tuple ts => 1 + sizeItems ts
  | _ => 1
/-- The number of constructors of a list of types. -/
def sizeItems : List Ty → Nat
  | [] => 0
  | t :: ts => size t + sizeItems ts
end

theorem size_pos (t : Ty) : 0 < t.size := by
  cases t <;> simp only [size] <;> omega

end Ty

/-- The variables that the resolved sides of some equations mention. -/
def openVars (σ : Subst) (eqs : List Equation) : List TyVar :=
  unknowns (eqs.map fun e => (σ.apply e.1, σ.apply e.2))

/-- The size of the resolved left sides of some equations. -/
def weight (σ : Subst) (eqs : List Equation) : Nat := Ty.sizeItems (eqs.map fun e => σ.apply e.1)

/-- What a run has before it: variables, and types to go through. -/
def work (σ : Subst) (eqs : List Equation) : Nat × Nat :=
  ((openVars σ eqs).length, weight σ eqs)

/-- There is less work, in the first place if there are fewer variables. -/
def Lighter : Nat × Nat → Nat × Nat → Prop := Prod.Lex (· < ·) (· < ·)

theorem weight_cons (σ : Subst) (s t : Ty) (eqs : List Equation) :
    weight σ ((s, t) :: eqs) = (σ.apply s).size + weight σ eqs := rfl

theorem mem_openVars : v ∈ openVars σ eqs ↔
    ∃ e ∈ eqs, v ∈ (σ.apply e.1).leaves ∨ v ∈ (σ.apply e.2).leaves := by
  simp only [openVars, mem_unknowns, List.mem_map, exists_exists_and_eq_and]

theorem mem_openVars_cons : v ∈ openVars σ ((s, t) :: eqs) ↔
    (v ∈ (σ.apply s).leaves ∨ v ∈ (σ.apply t).leaves) ∨ v ∈ openVars σ eqs := by
  simp only [mem_openVars, List.exists_mem_cons_iff]

theorem leaves_openVars (σ : Subst) (s t : Ty) (eqs : List Equation) :
    (∀ v ∈ (σ.apply s).leaves, v ∈ openVars σ ((s, t) :: eqs)) ∧
      ∀ v ∈ (σ.apply t).leaves, v ∈ openVars σ ((s, t) :: eqs) :=
  ⟨fun _ hv => mem_openVars_cons.mpr (.inl (.inl hv)),
    fun _ hv => mem_openVars_cons.mpr (.inl (.inr hv))⟩

/-- Bound variables are not mentioned. -/
theorem get?_of_mem_openVars (hσ : σ.Idempotent) (h : v ∈ openVars σ eqs) : σ.get? v = none := by
  obtain ⟨e, -, h⟩ := mem_openVars.mp h
  exact h.elim (Subst.get?_of_mem_apply hσ) (Subst.get?_of_mem_apply hσ)

theorem size_components (h : components s t = some ps) :
    Ty.sizeItems (ps.map Prod.fst) < s.size := by
  unfold components at h
  split at h
  · obtain rfl := Option.some.inj h
    simp only [List.map_cons, List.map_nil, Ty.sizeItems, Ty.size]
    omega
  · obtain ⟨hl, h⟩ := Option.ite_none_right_eq_some.mp h
    obtain rfl := Option.some.inj h
    rw [List.map_fst_zip (Nat.le_of_eq hl), Ty.size]
    omega
  · cases h

/-- Taking types apart leaves less to go through, and no new variable. -/
theorem lighter_components (hσ : σ.Idempotent)
    (h : components (σ.apply s) (σ.apply t) = some ps) (eqs : List Equation) :
    Lighter (work σ ps) (work σ ((s, t) :: eqs)) := by
  have hfixed := leaves_components h (fun v hv => Subst.get?_of_mem_apply hσ hv)
    fun v hv => Subst.get?_of_mem_apply hσ hv
  obtain ⟨hs, ht⟩ := leaves_openVars σ s t eqs
  have hin := leaves_components h hs ht
  have hsub : openVars σ ps ⊆ openVars σ ((s, t) :: eqs) := fun v hv => by
    obtain ⟨e, he, hv⟩ := mem_openVars.mp hv
    rw [Subst.apply_fixed hσ (hfixed e he).1, Subst.apply_fixed hσ (hfixed e he).2] at hv
    exact hv.elim ((hin e he).1 v) ((hin e he).2 v)
  have hweight : weight σ ps = Ty.sizeItems (ps.map Prod.fst) := congrArg Ty.sizeItems <|
    List.map_congr_left fun e he => Subst.apply_fixed hσ (hfixed e he).1
  have hlt : weight σ ps < weight σ ((s, t) :: eqs) := by
    have := size_components h
    rw [hweight, weight_cons]
    omega
  exact Prod.Lex.right' _ (length_unknowns_le hsub) hlt

namespace Elimination

/-- No binding is undone. -/
theorem stays_bound (h : Elimination eqs σ err σ') (hv : σ.get? v ≠ none) : σ'.get? v ≠ none := by
  induction h with
  | done | clash | occurs => exact hv
  | @bind _ w t _ σ _ _ _ _ _ ih =>
    refine ih ?_
    rw [Subst.get?_assign]
    split
    · exact Option.some_ne_none _
    · exact fun hn => hv (Option.map_eq_none_iff.mp hn)

/-- A run that changes the substitution binds a variable of its equations. -/
theorem idle_or_binds (h : Elimination eqs σ err σ') :
    σ' = σ ∨ ∃ v ∈ unknowns eqs, σ'.get? v ≠ none := by
  cases h with
  | done | clash | occurs => exact .inl rfl
  | @bind e v t eqs _ _ _ ho _ hrest =>
    refine .inr ⟨v, mem_unknowns.mpr ⟨e, List.mem_cons_self, ?_⟩, hrest.stays_bound ?_⟩
    · rcases orient_eq_some ho with ⟨h, -⟩ | ⟨h, -⟩ <;> simp [h]
    · rw [Subst.get?_assign, if_pos rfl]
      exact Option.some_ne_none _

end Elimination

theorem unify_idle_or_binds (hσ : σ.Idempotent) (h : outcome (unify s t σ) = (err, σ')) :
    σ' = σ ∨ ∃ v, (v ∈ (σ.apply s).leaves ∨ v ∈ (σ.apply t).leaves) ∧ σ'.get? v ≠ none := by
  refine (elimination_unify hσ h).idle_or_binds.imp_right fun ⟨v, hv, hb⟩ => ⟨v, ?_, hb⟩
  obtain ⟨e, he, hv⟩ := mem_unknowns.mp hv
  have hin := leaves_residue (A := fun v => v ∈ (σ.apply s).leaves ∨ v ∈ (σ.apply t).leaves)
    (fun _ => .inl) (fun _ => .inr) he
  exact hv.elim (hin.1 v) (hin.2 v)

/-- Behind a call no variable is mentioned that was not mentioned before it. -/
theorem openVars_unify (hσ : σ.Idempotent) (h : outcome (unify s t σ) = (err, σ₁))
    (eqs : List Equation) : openVars σ₁ eqs ⊆ openVars σ ((s, t) :: eqs) := by
  obtain ⟨hσ₁, hgrow⟩ := unify_grows hσ h
  obtain ⟨hs, ht⟩ := leaves_openVars σ s t eqs
  obtain ⟨-, hframe⟩ := unify_frame hσ h hs ht
  -- a type may be resolved by `σ` before it is resolved by `σ₁`
  have hside {u : Ty} {w : TyVar} (hu : ∀ v ∈ (σ.apply u).leaves, v ∈ openVars σ eqs)
      (hw : w ∈ (σ₁.apply u).leaves) : w ∈ openVars σ ((s, t) :: eqs) := by
    rw [← hgrow.apply hσ₁, Subst.mem_leaves_apply hσ₁] at hw
    obtain ⟨v, hv, hw⟩ := hw
    exact hframe v (mem_openVars_cons.mpr (.inr (hu v hv))) (Subst.get?_of_mem_apply hσ hv) w hw
  intro w hw
  obtain ⟨e, he, hw⟩ := mem_openVars.mp hw
  rcases hw with hw | hw
  · exact hside (fun v hv => mem_openVars.mpr ⟨e, he, .inl hv⟩) hw
  · exact hside (fun v hv => mem_openVars.mpr ⟨e, he, .inr hv⟩) hw

/-- Behind a call there is less left: it has changed nothing, and its own types are
done, or it has bound a variable. -/
theorem lighter_unify (hσ : σ.Idempotent) (h : outcome (unify s t σ) = (err, σ₁))
    (eqs : List Equation) : Lighter (work σ₁ eqs) (work σ ((s, t) :: eqs)) := by
  have hsub := openVars_unify hσ h eqs
  rcases unify_idle_or_binds hσ h with rfl | ⟨v, hv, hb⟩
  · have hlt : weight σ₁ eqs < weight σ₁ ((s, t) :: eqs) := by
      have := Ty.size_pos (σ₁.apply s)
      rw [weight_cons]
      omega
    exact Prod.Lex.right' _ (length_unknowns_le hsub) hlt
  · exact .left _ _ (length_unknowns_lt (mem_openVars_cons.mpr (.inl hv)) fun w hw =>
      ⟨hsub hw, fun heq => hb (heq ▸ get?_of_mem_openVars (unify_grows hσ h).1 hw)⟩)

/-! ## All runs end -/

/-- Every list of equations has a run. -/
theorem descent_unifyAll {σ : Subst} (hσ : σ.Idempotent) (eqs : List Equation) :
    Descent eqs σ (outcome (unifyAll eqs σ)).1 (outcome (unifyAll eqs σ)).2 := by
  match eqs with
  | [] => exact .done σ
  | (s, t) :: eqs =>
    have hrest {σ₁ : Subst} (hu : unify s t σ = .ok () σ₁) : Descent eqs σ₁
        (outcome (unifyAll ((s, t) :: eqs) σ)).1 (outcome (unifyAll ((s, t) :: eqs) σ)).2 := by
      have hless := lighter_unify hσ (outcome_eq_none.mpr hu) eqs
      rw [unifyAll_cons_ok hσ hu]
      exact descent_unifyAll (idempotent_of_unify hσ hu) eqs
    cases hc : components (σ.apply s) (σ.apply t) with
    | none =>
      have hu := unify_of_none hσ hc
      cases hm : meet (σ.apply s) (σ.apply t) σ with
      | ok _ σ₁ => exact .met hc hm (hrest (hu.trans hm))
      | error x σ₁ =>
        rw [unifyAll_cons_error hσ (hu.trans hm)]
        exact .refused eqs hc hm
    | some ps =>
      have hu := unify_of_some hσ hc
      have hless := lighter_components hσ hc eqs
      have hps := descent_unifyAll hσ ps
      cases hm : unifyAll ps σ with
      | ok _ σ₁ =>
        rw [hm] at hps
        exact .apart hc hps (hrest (hu.trans hm))
      | error x σ₁ =>
        rw [hm] at hps
        rw [unifyAll_cons_error hσ (hu.trans hm)]
        exact .stopped eqs hc hps
termination_by work σ eqs
decreasing_by all_goals exact hless

/-- The recursion has one run on two types, and ends as `unify` does. -/
theorem descent_iff (hσ : σ.Idempotent) (s t : Ty) :
    Descent [(s, t)] σ err σ' ↔ outcome (unify s t σ) = (err, σ') := by
  rw [← unifyAll_singleton]
  refine ⟨fun h => h.outcome_unifyAll hσ, fun h => ?_⟩
  have hrun := descent_unifyAll hσ [(s, t)]
  rwa [h] at hrun

end MiniML
