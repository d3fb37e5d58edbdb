import MiniML.Proofs.Ty.Solver

/-!
# Unification by recursion

`unify` takes both types apart before it binds anything, and what it binds is
then replaced in the equations that are left. One may as well go through the
two types together, from left to right, and unify part by part, each under
the substitution that the parts before it led to (`descend`). That gives the
same result, with the same bindings if it fails (`unify_eq_descend`).

The reason is that taking an equation apart commutes with replacing its
variables (`residue_subst`), so the equations behind a part can wait until
that part is solved (`Elimination.append`).
-/
namespace MiniML

/-- One level of the descent through two types that are resolved. -/
def descend : Ty → Ty → Solving Unit
  | .error, _ => pure ()
  | _, .error => pure ()
  | .prim p, .prim q => if p = q then pure () else throw (.mismatch (.prim p) (.prim q))
  | .var v, t => Subst.bind v t
  | s, .var v => Subst.bind v s
  | .fn a b, .fn c d => do
    unify a c
    unify b d
  | .tuple ts, .tuple us =>
    if ts.length = us.length then (ts.zip us).forM fun p => unify p.1 p.2
    else throw (.tupleArity (.tuple ts) (.tuple us))
  | s, t => throw (.mismatch s t)

/-- The parts of two types, side by side, if the types are taken apart. -/
def components : Ty → Ty → Option (List Equation)
  | .fn a b, .fn c d => some [(a, c), (b, d)]
  | .tuple ts, .tuple us => if ts.length = us.length then some (ts.zip us) else none
  | _, _ => none

/-- The equations that are left of some equations under a substitution. -/
def resolvedParts (σ : Subst) (eqs : List Equation) : List Equation :=
  eqs.flatMap fun e => residue (σ.apply e.1) (σ.apply e.2)

/-- Unify the sides of several equations at once. -/
def unifyAll (eqs : List Equation) : Solving Unit := fun σ =>
  solve (unknowns (resolvedParts σ eqs)).length (resolvedParts σ eqs) σ

variable {σ σ' σ'' : Subst} {s t : Ty} {e : Equation} {eqs fs : List Equation}
  {err : Option UnifyError} {θ : TyVar → Ty}

/-! ## Taking apart and replacing -/

theorem residue_error_right (s : Ty) : residue s .error = [] := by
  cases s <;> simp [residue]

theorem residue_self (t : Ty) : residue t t = [] := by
  induction t with
  | var v => simp [residue]
  | fn a b ha hb => simp [residue, ha, hb]
  | tuple ts ih =>
    simp only [residue, if_true, residues_eq, List.flatMap_eq_nil_iff]
    intro p hp
    obtain ⟨i, hi, rfl⟩ := List.mem_iff_getElem.mp hp
    rw [List.getElem_zip]
    exact ih _ (List.getElem_mem _)
  | prim p => simp [residue]
  | error => simp [residue]

theorem residue_stuck (h : Stuck (s, t)) : residue s t = [(s, t)] := by
  have hp := parts_residue s t
  generalize residue s t = r at hp ⊢
  cases hp with
  | error_left => exact absurd rfl h.left
  | error_right => exact absurd rfl h.right
  | var v => rcases h.differ with hd | ⟨ts, us, he, -⟩ <;> simp_all
  | prim p => rcases h.differ with hd | ⟨ts, us, he, -⟩ <;> simp_all
  | fn => rcases h.differ with hd | ⟨ts, us, he, -⟩ <;> simp_all [Ty.head]
  | tuple hl => rcases h.differ with hd | ⟨ts, us, he, he', hne⟩ <;> simp_all [Ty.head]
  | stuck => rfl

/-- What is left after replacing variables is left of what was left before. -/
theorem residue_subst (θ : TyVar → Ty) (s t : Ty) :
    residue (s.subst θ) (t.subst θ) =
      (residue s t).flatMap fun e => residue (e.1.subst θ) (e.2.subst θ) := by
  have hp := parts_residue s t
  generalize residue s t = r at hp ⊢
  induction hp with
  | error_left t => simp [Ty.subst, residue]
  | error_right s => simp [Ty.subst, residue_error_right]
  | var v => exact residue_self _
  | prim p => exact residue_self _
  | fn _ _ ha hb => rw [Ty.subst, Ty.subst, residue, ha, hb, List.flatMap_append]
  | @tuple ts us hl _ ih =>
    simp only [Ty.subst_tuple, residue, List.length_map, hl, if_true, residues_eq, List.zip_map,
      List.flatMap_map, List.flatMap_assoc]
    exact List.flatMap_congr ih
  | stuck _ => simp

/-- The variables of the parts are variables of the types. -/
theorem leaves_components (h : components s t = some eqs) {A : TyVar → Prop}
    (hs : ∀ v ∈ s.leaves, A v) (ht : ∀ v ∈ t.leaves, A v) :
    ∀ e ∈ eqs, (∀ v ∈ e.1.leaves, A v) ∧ ∀ v ∈ e.2.leaves, A v := by
  unfold components at h
  split at h
  · obtain rfl := Option.some.inj h
    simp only [Ty.leaves_fn, List.forall_mem_append] at hs ht
    simp only [List.forall_mem_cons]
    exact ⟨⟨hs.1, ht.1⟩, ⟨hs.2, ht.2⟩, by simp⟩
  · obtain ⟨-, h⟩ := Option.ite_none_right_eq_some.mp h
    obtain rfl := Option.some.inj h
    simp only [Ty.leaves_tuple, List.mem_flatMap] at hs ht
    exact fun e he => ⟨fun v hv => hs v ⟨e.1, (List.of_mem_zip he).1, hv⟩,
      fun v hv => ht v ⟨e.2, (List.of_mem_zip he).2, hv⟩⟩
  · cases h

/-! ## One part after another -/

theorem resolvedParts_append (σ : Subst) (eqs fs : List Equation) :
    resolvedParts σ (eqs ++ fs) = resolvedParts σ eqs ++ resolvedParts σ fs :=
  List.flatMap_append

/-- What is known may be replaced first. -/
theorem resolvedParts_flatMap (hσ : σ.Idempotent) (h : ∀ t, σ.apply (t.subst θ) = σ.apply t)
    (eqs : List Equation) :
    resolvedParts σ (eqs.flatMap fun e => residue (e.1.subst θ) (e.2.subst θ)) =
      resolvedParts σ eqs := by
  simp only [resolvedParts, List.flatMap_assoc]
  refine List.flatMap_congr fun e _ => ?_
  simp only [Subst.apply_eq_subst hσ]
  rw [← residue_subst, ← Subst.apply_eq_subst hσ, ← Subst.apply_eq_subst hσ, h, h,
    Subst.apply_eq_subst hσ, Subst.apply_eq_subst hσ]

/-- Equations that the solver may be given are left as they are. -/
theorem resolvedParts_ready (h : Ready σ eqs) : resolvedParts σ eqs = eqs := by
  have hone : ∀ e ∈ eqs, residue (σ.apply e.1) (σ.apply e.2) = [e] := fun e he => by
    obtain ⟨h1, h2⟩ := h.resolved e he
    rw [Subst.apply_fixed h.idem h1, Subst.apply_fixed h.idem h2]
    exact residue_stuck (h.stuck e he)
  rw [resolvedParts, List.flatMap_congr hone]
  simp

theorem ready_resolvedParts (hσ : σ.Idempotent) (eqs : List Equation) :
    Ready σ (resolvedParts σ eqs) where
  idem := hσ
  resolved e he := by
    obtain ⟨d, -, he⟩ := List.mem_flatMap.mp he
    exact (ready_residue hσ d.1 d.2).resolved e he
  stuck e he := by
    obtain ⟨d, -, he⟩ := List.mem_flatMap.mp he
    exact stuck_of_mem_residue he

theorem Ready.of_append (h : Ready σ (eqs ++ fs)) : Ready σ eqs ∧ Ready σ fs :=
  ⟨⟨h.idem, fun e he => h.resolved e (List.mem_append_left _ he),
      fun e he => h.stuck e (List.mem_append_left _ he)⟩,
    h.idem, fun e he => h.resolved e (List.mem_append_right _ he),
      fun e he => h.stuck e (List.mem_append_right _ he)⟩

theorem eliminate_append (v : TyVar) (t : Ty) (eqs fs : List Equation) :
    eliminate v t (eqs ++ fs) = eliminate v t eqs ++ eliminate v t fs :=
  List.flatMap_append

namespace Elimination

/-- A run that is stopped is so whatever comes behind. -/
theorem append_stopped {x : UnifyError} (h : Elimination eqs σ err σ') (herr : err = some x)
    (fs : List Equation) : Elimination (eqs ++ fs) σ err σ' := by
  induction h generalizing fs with
  | done => cases herr
  | clash eqs σ ho => exact .clash _ σ ho
  | occurs eqs σ ho hv => exact .occurs _ σ ho hv
  | @bind e v t eqs σ σ' err ho hv _ ih =>
    rw [List.cons_append]
    refine .bind ho hv ?_
    rw [eliminate_append]
    exact ih herr _

/-- A run that comes to its end goes on with what is behind, as it is known
by then. -/
theorem append (h : Elimination eqs σ err σ') (hr : Ready σ (eqs ++ fs)) (herr : err = none)
    {err' : Option UnifyError} (h' : Elimination (resolvedParts σ' fs) σ' err' σ'') :
    Elimination (eqs ++ fs) σ err' σ'' := by
  induction h generalizing fs with
  | done σ =>
    rw [List.nil_append] at hr ⊢
    rwa [resolvedParts_ready hr] at h'
  | clash => cases herr
  | occurs => cases herr
  | @bind e v t eqs σ σ' err ho hv hrest ih =>
    rw [List.cons_append] at hr ⊢
    have hb := hr.bindable ho hv
    have hstep := hr.step ho hv
    rw [eliminate_append] at hstep
    obtain ⟨hi, hgrow⟩ := hrest.grows hstep.of_append.1
    refine .bind ho hv ?_
    rw [eliminate_append]
    refine ih hstep herr ?_
    have hbound : σ'.image v = t.subst σ'.image := by
      have himage : (σ.assign v t).apply (.var v) = t := by
        rw [Subst.apply_var hstep.idem, Subst.image_of_some (by rw [Subst.get?_assign, if_pos rfl])]
      rw [← Subst.apply_eq_subst hi, ← Subst.apply_var hi, ← hgrow.apply hi, himage]
    have hreplace : ∀ u, σ'.apply (u.replace v t) = σ'.apply u := fun u => by
      rw [Subst.apply_eq_subst hi, Subst.apply_eq_subst hi, Subst.subst_replace hbound]
    have hparts := resolvedParts_flatMap hi hreplace fs
    rwa [← hparts] at h'

end Elimination

theorem elimination_unifyAll (hσ : σ.Idempotent) (eqs : List Equation) :
    Elimination (resolvedParts σ eqs) σ (outcome (unifyAll eqs σ)).1
      (outcome (unifyAll eqs σ)).2 :=
  elimination_solve (ready_resolvedParts hσ eqs) (Nat.le_refl _)

theorem unifyAll_append (hσ : σ.Idempotent) (eqs fs : List Equation) :
    unifyAll (eqs ++ fs) σ = (unifyAll eqs >>= fun _ => unifyAll fs) σ := by
  have hall := elimination_unifyAll hσ (eqs ++ fs)
  have heqs := elimination_unifyAll hσ eqs
  have hready := ready_resolvedParts hσ (eqs ++ fs)
  rw [resolvedParts_append] at hall hready
  show _ = EStateM.bind _ _ σ
  unfold EStateM.bind
  cases h : unifyAll eqs σ with
  | error x σ' =>
    rw [h] at heqs
    change Elimination _ σ (some x) σ' at heqs
    obtain ⟨herr, hsubst⟩ := hall.unique (heqs.append_stopped rfl _)
    exact outcome_injective (Prod.ext herr hsubst)
  | ok _ σ' =>
    rw [h] at heqs
    change Elimination _ σ none σ' at heqs
    obtain ⟨hi, hgrow⟩ := heqs.grows (ready_resolvedParts hσ eqs)
    have hparts : resolvedParts σ' (resolvedParts σ fs) = resolvedParts σ' fs := by
      have hknown : ∀ u, σ'.apply (u.subst σ.image) = σ'.apply u := fun u => by
        rw [← Subst.apply_eq_subst hσ, hgrow.apply hi]
      have := resolvedParts_flatMap hi hknown fs
      simpa only [resolvedParts, Subst.apply_eq_subst hσ] using this
    have hfs := elimination_unifyAll hi fs
    rw [← hparts] at hfs
    obtain ⟨herr, hsubst⟩ := hall.unique (heqs.append hready rfl hfs)
    exact outcome_injective (Prod.ext herr hsubst)

theorem unifyAll_singleton (s t : Ty) : unifyAll [(s, t)] = unify s t := by
  funext σ
  simp only [unifyAll, resolvedParts, List.flatMap_singleton]
  rfl

theorem unifyAll_cons (hσ : σ.Idempotent) (s t : Ty) (eqs : List Equation) :
    unifyAll ((s, t) :: eqs) σ = (unify s t >>= fun _ => unifyAll eqs) σ := by
  rw [← List.singleton_append, unifyAll_append hσ, unifyAll_singleton]

theorem unifyAll_eq_forM (hσ : σ.Idempotent) (eqs : List Equation) :
    unifyAll eqs σ = (eqs.forM fun e => unify e.1 e.2) σ := by
  induction eqs generalizing σ with
  | nil => rfl
  | cons e eqs ih =>
    rw [unifyAll_cons hσ]
    show EStateM.bind _ _ σ = EStateM.bind _ _ σ
    unfold EStateM.bind
    cases h : unify e.1 e.2 σ with
    | error x σ' => rfl
    | ok _ σ' =>
      exact ih (unify_grows hσ (outcome_eq_none.mpr h)).1

/-! ## The descent -/

/-- The run on an equation that has a variable on one side. -/
theorem elimination_bind {v : TyVar} {u : Ty} (hσ : σ.Idempotent)
    (ho : orient (s, t) = some (v, u)) (hu : ∀ w ∈ u.leaves, σ.get? w = none)
    (hne : u ≠ .var v) :
    Elimination [(s, t)] σ (outcome (Subst.bind v u σ)).1 (outcome (Subst.bind v u σ)).2 := by
  simp only [Subst.bind, Subst.apply_fixed hσ hu, hne, if_false]
  by_cases hv : v ∈ u.leaves
  · rw [if_pos (Ty.occurs_iff.mpr hv)]
    exact .occurs [] σ ho hv
  · rw [Ty.occurs_eq_false.mpr hv, if_neg Bool.false_ne_true]
    exact .bind ho hv (.done _)

/-- The run on an equation that cannot be taken apart. -/
theorem elimination_descend (h : Stuck (s, t)) (hσ : σ.Idempotent)
    (hs : ∀ v ∈ s.leaves, σ.get? v = none) (ht : ∀ v ∈ t.leaves, σ.get? v = none) :
    Elimination [(s, t)] σ (outcome (descend s t σ)).1 (outcome (descend s t σ)).2 := by
  have hclash : orient (s, t) = none →
      Elimination [(s, t)] σ (some (clash (s, t))) σ := fun ho => .clash [] σ ho
  cases s with
  | error => exact absurd rfl h.left
  | var v =>
    have hdesc : descend (.var v) t = Subst.bind v t := by
      cases t <;> first | rfl | exact absurd rfl h.right
    rw [hdesc]
    refine elimination_bind hσ rfl ht ?_
    rintro rfl
    rcases h.differ with hd | ⟨ts, us, he, -⟩ <;> simp_all
  | fn a b =>
    cases t with
    | error => exact absurd rfl h.right
    | var w => exact elimination_bind hσ rfl hs (by simp)
    | fn c d => rcases h.differ with hd | ⟨ts, us, he, -⟩ <;> simp_all [Ty.head]
    | tuple us => exact hclash rfl
    | prim q => exact hclash rfl
  | tuple ts =>
    cases t with
    | error => exact absurd rfl h.right
    | var w => exact elimination_bind hσ rfl hs (by simp)
    | fn c d => exact hclash rfl
    | tuple us =>
      have hl : ts.length ≠ us.length := by
        rcases h.differ with hd | ⟨ts, us, he, he', hne⟩ <;> simp_all [Ty.head]
      simp only [descend, if_neg hl]
      exact hclash rfl
    | prim q => exact hclash rfl
  | prim p =>
    cases t with
    | error => exact absurd rfl h.right
    | var w => exact elimination_bind hσ rfl hs (by simp)
    | fn c d => exact hclash rfl
    | tuple us => exact hclash rfl
    | prim q =>
      have hpq : p ≠ q := by
        rcases h.differ with hd | ⟨ts, us, he, -⟩ <;> simp_all [Ty.head]
      simp only [descend, if_neg hpq]
      exact hclash rfl

theorem solve_stuck (h : Stuck (s, t)) (hσ : σ.Idempotent)
    (hs : ∀ v ∈ s.leaves, σ.get? v = none) (ht : ∀ v ∈ t.leaves, σ.get? v = none) :
    solve (unknowns [(s, t)]).length [(s, t)] σ = descend s t σ := by
  have hready : Ready σ [(s, t)] :=
    ⟨hσ, List.forall_mem_singleton.mpr ⟨hs, ht⟩, List.forall_mem_singleton.mpr h⟩
  have hrun := elimination_solve hready (Nat.le_refl _)
  obtain ⟨herr, hsubst⟩ := hrun.unique (elimination_descend h hσ hs ht)
  exact outcome_injective (Prod.ext herr hsubst)

/-- Equations between resolved types are left of themselves only. -/
theorem unifyAll_of_resolved (hσ : σ.Idempotent)
    (h : ∀ e ∈ eqs, (∀ v ∈ e.1.leaves, σ.get? v = none) ∧ ∀ v ∈ e.2.leaves, σ.get? v = none) :
    unifyAll eqs σ =
      solve (unknowns (eqs.flatMap fun e => residue e.1 e.2)).length
        (eqs.flatMap fun e => residue e.1 e.2) σ := by
  have hparts : resolvedParts σ eqs = eqs.flatMap fun e => residue e.1 e.2 :=
    List.flatMap_congr fun e he => by
      rw [Subst.apply_fixed hσ (h e he).1, Subst.apply_fixed hσ (h e he).2]
  rw [unifyAll, hparts]

/-- Unification goes through the two types from left to right, each part
under the bindings that the parts before it made. -/
theorem unify_eq_descend (hσ : σ.Idempotent) (s t : Ty) :
    unify s t σ = descend (σ.apply s) (σ.apply t) σ := by
  have hs : ∀ v ∈ (σ.apply s).leaves, σ.get? v = none := fun v hv =>
    Subst.get?_of_mem_apply hσ hv
  have ht : ∀ v ∈ (σ.apply t).leaves, σ.get? v = none := fun v hv =>
    Subst.get?_of_mem_apply hσ hv
  show solve _ (residue (σ.apply s) (σ.apply t)) σ = _
  generalize σ.apply s = s' at hs ⊢
  generalize σ.apply t = t' at ht ⊢
  have hp := parts_residue s' t'
  generalize hr : residue s' t' = r at hp ⊢
  cases hp with
  | error_left => rfl
  | error_right => cases s' <;> rfl
  | var v => simp [solve, descend, Subst.bind, Subst.apply_fixed hσ hs]
  | prim p => simp [solve, descend]; rfl
  | @fn a b c d =>
    have hboth : unifyAll ([(a, c)] ++ [(b, d)]) σ = descend (.fn a b) (.fn c d) σ := by
      rw [unifyAll_append hσ, unifyAll_singleton, unifyAll_singleton]
      rfl
    have hsolve := unifyAll_of_resolved hσ (leaves_components rfl hs ht)
    simp only [List.flatMap_cons, List.flatMap_nil, List.append_nil] at hsolve
    rw [← hr, ← hboth, residue]
    exact hsolve.symm
  | @tuple ts us hl =>
    have hparts : components (.tuple ts) (.tuple us) = some (ts.zip us) := if_pos hl
    rw [← unifyAll_of_resolved hσ (leaves_components hparts hs ht), unifyAll_eq_forM hσ]
    simp only [descend, if_pos hl]
  | stuck h => exact solve_stuck h hσ hs ht

end MiniML
