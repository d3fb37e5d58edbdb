import MiniML.Proofs.Ty.Solver

/-!
# Types with parts that are not known

The error type stands for a part that could not be typed. `Blurs p s t` says
that `s` is `t`, except that it may have the error type in some places; where
`p` does not hold it may not, and `s` is `t`. So a fact about blurred types is
also one about equal types, and is proved once.

To lose sight of a part never makes an equation fail: if a map takes both
sides to types that blur a common one, and is itself exact, then the solver is
not stopped, and the map still knows the result up to a blur
(`unify_blurred`). For types that a map makes equal this is `unify_general`.
-/
namespace MiniML

/-- `s` is `t`, with the error type in some places if `p` holds. -/
inductive Blurs (p : Prop) : Ty → Ty → Prop
  | lost (hp : p) (t : Ty) : Blurs p .error t
  | error : Blurs p .error .error
  | var (v : TyVar) : Blurs p (.var v) (.var v)
  | prim (q : Prim) : Blurs p (.prim q) (.prim q)
  | fn {a b c d : Ty} : Blurs p a c → Blurs p b d → Blurs p (.fn a b) (.fn c d)
  | tuple {ts us : List Ty} : List.Forall₂ (Blurs p) ts us → Blurs p (.tuple ts) (.tuple us)

/-- Nothing of a type is lost. -/
def Ty.Exact (p : Prop) (t : Ty) : Prop := p → t.errorFree = true

variable {p : Prop} {s t u : Ty} {θ θ' : TyVar → Ty} {v w : TyVar}

namespace Blurs

theorem refl (t : Ty) : Blurs p t t := by
  induction t with
  | var v => exact .var v
  | fn a b ha hb => exact .fn ha hb
  | tuple ts ih => exact .tuple (List.forall₂_same.mpr ih)
  | prim q => exact .prim q
  | error => exact .error

theorem trans (h : Blurs p s t) (h' : Blurs p t u) : Blurs p s u := by
  induction s generalizing t u with
  | error =>
    cases h with
    | lost hp => exact .lost hp u
    | error => exact h'
  | var v =>
    cases h
    exact h'
  | prim q =>
    cases h
    exact h'
  | fn a b ha hb =>
    cases h with
    | fn h₁ h₂ =>
      cases h' with
      | fn h₁' h₂' => exact .fn (ha h₁ h₁') (hb h₂ h₂')
  | tuple ts ih =>
    cases h with
    | tuple h =>
      cases h' with
      | @tuple _ us h' =>
        refine .tuple ?_
        have hall := List.forall₂_iff_get.mp h
        have hall' := List.forall₂_iff_get.mp h'
        refine List.forall₂_iff_get.mpr ⟨hall.1.trans hall'.1, fun i hi hi' => ?_⟩
        exact ih _ (List.get_mem ts ⟨i, hi⟩) (hall.2 i hi (hall.1 ▸ hi))
          (hall'.2 i (hall.1 ▸ hi) hi')

/-- A blurred type, under a blurred map. -/
theorem subst (h : Blurs p s t) (hθ : ∀ v ∈ s.leaves, Blurs p (θ v) (θ' v)) :
    Blurs p (s.subst θ) (t.subst θ') := by
  induction s generalizing t with
  | error =>
    cases h with
    | lost hp => exact .lost hp _
    | error => exact .error
  | var v =>
    cases h
    exact hθ v (by simp)
  | prim q =>
    cases h
    exact .prim q
  | fn a b ha hb =>
    cases h with
    | fn h₁ h₂ =>
      exact .fn (ha h₁ fun v hv => hθ v (by simp [hv])) (hb h₂ fun v hv => hθ v (by simp [hv]))
  | tuple ts ih =>
    cases h with
    | tuple h =>
      rw [Ty.subst_tuple, Ty.subst_tuple]
      refine .tuple (List.forall₂_map_left_iff.mpr (List.forall₂_map_right_iff.mpr ?_))
      refine forall₂_imp_mem h fun t ht u _ htu => ih t ht htu fun v hv => hθ v ?_
      rw [Ty.leaves_tuple]
      exact List.mem_flatMap.mpr ⟨t, ht, hv⟩

/-- What is not lost is known exactly. -/
theorem eq (h : Blurs p s t) (hs : s.Exact p) : s = t := by
  induction s generalizing t with
  | error =>
    cases h with
    | lost hp => cases hs hp
    | error => rfl
  | var v =>
    cases h
    rfl
  | prim q =>
    cases h
    rfl
  | fn a b ha hb =>
    cases h with
    | fn h₁ h₂ =>
      rw [ha h₁ fun hp => (Ty.errorFree_fn.mp (hs hp)).1,
        hb h₂ fun hp => (Ty.errorFree_fn.mp (hs hp)).2]
  | tuple ts ih =>
    cases h with
    | tuple h =>
      have heq : List.Forall₂ (· = ·) ts _ := forall₂_imp_mem h fun t ht u _ htu =>
        ih t ht htu fun hp => Ty.errorFree_tuple.mp (hs hp) t ht
      rw [List.forall₂_eq_eq_eq] at heq
      rw [heq]

/-- A blurred type has no variables of its own. -/
theorem leaves (h : Blurs p s t) (hv : v ∈ s.leaves) : v ∈ t.leaves := by
  induction s generalizing t with
  | error => simp at hv
  | var w =>
    cases h
    exact hv
  | prim q => simp at hv
  | fn a b ha hb =>
    cases h with
    | fn h₁ h₂ =>
      rw [Ty.leaves_fn, List.mem_append] at hv ⊢
      exact hv.imp (ha h₁) (hb h₂)
  | tuple ts ih =>
    cases h with
    | @tuple _ us h =>
      rw [Ty.leaves_tuple, List.mem_flatMap] at hv ⊢
      obtain ⟨t, ht, hv⟩ := hv
      obtain ⟨u, hu, htu⟩ := exists_mem_of_forall₂ h ht
      exact ⟨u, hu, ih t ht htu hv⟩

/-- The outermost constructor of what is not lost is known. -/
theorem head (h : Blurs p s t) (hs : s ≠ .error) : t.head = s.head := by
  cases h with
  | lost | error => exact absurd rfl hs
  | var | prim | fn | tuple => rfl

/-! ## Size -/

/-- What a type blurs is no smaller than an exact part of it. -/
theorem sizeOf_le (h : Blurs p (t.subst θ) u) (hv : v ∈ t.leaves) (he : (θ v).Exact p) :
    sizeOf (θ v) ≤ sizeOf u := by
  induction t generalizing u with
  | var w =>
    rw [Ty.leaves_var, List.mem_singleton] at hv
    subst hv
    exact Nat.le_of_eq (congrArg sizeOf (h.eq he))
  | prim q => simp at hv
  | error => simp at hv
  | fn a b ha hb =>
    cases h with
    | @fn _ _ c d h₁ h₂ =>
      rw [Ty.fn.sizeOf_spec]
      rcases List.mem_append.mp hv with hv | hv
      · have := ha h₁ hv
        omega
      · have := hb h₂ hv
        omega
  | tuple ts ih =>
    rw [Ty.leaves_tuple, List.mem_flatMap] at hv
    obtain ⟨t, ht, hv⟩ := hv
    rw [Ty.subst_tuple] at h
    cases h with
    | @tuple _ us h =>
      obtain ⟨u, hu, htu⟩ := exists_mem_of_forall₂ h (List.mem_map_of_mem ht)
      have := ih t ht htu hv
      have := List.sizeOf_lt_of_mem hu
      rw [Ty.tuple.sizeOf_spec]
      omega

/-- The occurs check stays right: no type is blurred both by an exact image of
a variable and by that of a type around the variable. -/
theorem acyclic (hne : t ≠ .var v) (hv : v ∈ t.leaves) (he : (θ v).Exact p) :
    ¬ Blurs p (t.subst θ) (θ v) := by
  intro h
  cases t with
  | var w =>
    rw [Ty.leaves_var, List.mem_singleton] at hv
    exact hne (hv ▸ rfl)
  | prim q => simp at hv
  | error => simp at hv
  | fn a b =>
    generalize hu : θ v = u at h
    cases h with
    | @fn _ _ c d h₁ h₂ =>
      have hsize : sizeOf (θ v) = sizeOf (Ty.fn c d) := congrArg sizeOf hu
      rw [Ty.fn.sizeOf_spec] at hsize
      rcases List.mem_append.mp hv with hv | hv
      · have := h₁.sizeOf_le hv he
        omega
      · have := h₂.sizeOf_le hv he
        omega
  | tuple ts =>
    rw [Ty.leaves_tuple, List.mem_flatMap] at hv
    obtain ⟨t, ht, hv⟩ := hv
    rw [Ty.subst_tuple] at h
    generalize hu : θ v = u at h
    cases h with
    | @tuple _ us h =>
      obtain ⟨u, hu', htu⟩ := exists_mem_of_forall₂ h (List.mem_map_of_mem ht)
      have hsize : sizeOf (θ v) = sizeOf (Ty.tuple us) := congrArg sizeOf hu
      rw [Ty.tuple.sizeOf_spec] at hsize
      have := htu.sizeOf_le hv he
      have := List.sizeOf_lt_of_mem hu'
      omega

end Blurs

/-- Where nothing may be lost, to blur a type is to be that type. -/
theorem blurs_false : Blurs False s t ↔ s = t :=
  ⟨fun h => h.eq False.elim, fun h => h ▸ .refl s⟩

/-! ## Equations -/

/-- Under `θ`, the two sides of each equation blur a common type. -/
def Joins (p : Prop) (θ : TyVar → Ty) (eqs : List Equation) : Prop :=
  ∀ e ∈ eqs, ∃ u, Blurs p (e.1.subst θ) u ∧ Blurs p (e.2.subst θ) u

/-- The parts of an equation may be joined if it may be. -/
theorem joins_residue (hs : Blurs p (s.subst θ) u) (ht : Blurs p (t.subst θ) u) :
    Joins p θ (residue s t) := by
  intro e he
  refine (residue_induct (P := fun s t => ∃ u, Blurs p (s.subst θ) u ∧ Blurs p (t.subst θ) u)
    ?_ ?_ ⟨u, hs, ht⟩ e he).1
  · rintro a b c d ⟨u, h, h'⟩
    cases h with
    | fn h₁ h₂ =>
      cases h' with
      | fn h₁' h₂' => exact ⟨⟨_, h₁, h₁'⟩, _, h₂, h₂'⟩
  · rintro ts us - ⟨u, h, h'⟩ ⟨t₁, t₂⟩ ht
    rw [Ty.subst_tuple] at h h'
    cases h with
    | @tuple _ us' h =>
      cases h' with
      | tuple h' =>
        obtain ⟨i, hi, hget⟩ := List.getElem_of_mem ht
        rw [List.getElem_zip] at hget
        obtain ⟨rfl, rfl⟩ := Prod.mk.inj hget
        rw [List.forall₂_map_left_iff] at h h'
        obtain ⟨hl, hget⟩ := List.forall₂_iff_get.mp h
        obtain ⟨hl', hget'⟩ := List.forall₂_iff_get.mp h'
        rw [List.length_zip] at hi
        have hi₁ : i < ts.length := by omega
        have hi₂ : i < us.length := by omega
        exact ⟨us'.get ⟨i, hl ▸ hi₁⟩, hget i hi₁ (hl ▸ hi₁), hget' i hi₂ (hl ▸ hi₁)⟩

/-- `θ` knows all that `σ` knows, up to a blur. -/
def Subst.BlurredBy (p : Prop) (σ : Subst) (θ : TyVar → Ty) : Prop :=
  ∀ t : Ty, Blurs p ((σ.apply t).subst θ) (t.subst θ)

namespace Subst.BlurredBy

variable {σ : Subst}

theorem empty (p : Prop) (θ : TyVar → Ty) : BlurredBy p .empty θ := fun _ => .refl _

theorem replace (h : Blurs p (t.subst θ) (θ v)) (u : Ty) :
    Blurs p ((u.replace v t).subst θ) (u.subst θ) := by
  rw [Ty.replace, Ty.subst_subst]
  refine (Blurs.refl u).subst fun w _ => ?_
  by_cases hw : w = v
  · rw [if_pos hw, hw]
    exact h
  · rw [if_neg hw]
    exact .refl _

theorem assign (hσ : σ.Idempotent) (hb : σ.Bindable v t) (hθ : σ.BlurredBy p θ)
    (h : Blurs p (t.subst θ) (θ v)) : BlurredBy p (σ.assign v t) θ := fun u => by
  rw [assign_apply hσ hb]
  exact (replace h _).trans (hθ u)

end Subst.BlurredBy

/-- Only a variable may become the error type. -/
theorem Ty.subst_ne_error (hv : t.isVar = false) (ht : t ≠ .error) : t.subst θ ≠ .error := by
  intro he
  cases t with
  | var v => cases hv
  | tuple ts =>
    rw [Ty.subst_tuple] at he
    cases he
  | error => exact ht rfl
  | _ => cases he

/-- An exact map under which the equations may be joined is not contradicted by
any step, and knows the result up to a blur. -/
theorem Elimination.blurred {eqs : List Equation} {σ σ' : Subst} {err : Option UnifyError}
    (h : Elimination eqs σ err σ') (hr : Ready σ eqs) (hexact : ∀ v, (θ v).Exact p)
    (hθ : σ.BlurredBy p θ) (hs : Joins p θ eqs) : err = none ∧ σ'.BlurredBy p θ := by
  induction h with
  | done σ => exact ⟨rfl, hθ⟩
  | @clash e eqs σ ho =>
    -- the sides have different heads, and that of a common type is the head of both
    obtain ⟨u, h₁, h₂⟩ := hs e (by simp)
    obtain ⟨hl, hr', hdiffer⟩ := hr.stuck e (by simp)
    obtain ⟨hv₁, hv₂⟩ := orient_eq_none ho
    exfalso
    rcases hdiffer with hne | ⟨ts, us, e₁, e₂, hlen⟩
    · refine hne ?_
      rw [← Ty.head_subst hv₁ θ, ← Ty.head_subst hv₂ θ, ← h₁.head (Ty.subst_ne_error hv₁ hl),
        ← h₂.head (Ty.subst_ne_error hv₂ hr')]
    · rw [e₁, Ty.subst_tuple] at h₁
      rw [e₂, Ty.subst_tuple] at h₂
      cases h₁ with
      | tuple h₁ =>
        cases h₂ with
        | tuple h₂ =>
          refine hlen ?_
          rw [← List.length_map (Ty.subst θ), h₁.length_eq, ← h₂.length_eq, List.length_map]
  | @occurs e v t eqs σ ho hv =>
    obtain ⟨-, hne⟩ := conflict_occurs (hr.stuck e (by simp)) ho hv
    obtain ⟨u, h₁, h₂⟩ := hs e (by simp)
    exfalso
    rcases orient_eq_some ho with ⟨e₁, e₂⟩ | ⟨e₁, e₂⟩
    · rw [e₁] at h₁
      rw [e₂, ← h₁.eq (hexact v)] at h₂
      exact Blurs.acyclic hne hv (hexact v) h₂
    · rw [e₁] at h₂
      rw [e₂, ← h₂.eq (hexact v)] at h₁
      exact Blurs.acyclic hne hv (hexact v) h₁
  | @bind e v t eqs σ σ' err ho hv hrun ih =>
    obtain ⟨u, h₁, h₂⟩ := hs e (by simp)
    have hvt : Blurs p (t.subst θ) (θ v) := by
      rcases orient_eq_some ho with ⟨e₁, e₂⟩ | ⟨e₁, e₂⟩
      · rw [e₁] at h₁
        rwa [e₂, ← h₁.eq (hexact v)] at h₂
      · rw [e₁] at h₂
        rwa [e₂, ← h₂.eq (hexact v)] at h₁
    refine ih (hr.step ho hv) (hθ.assign hr.idem (hr.bindable ho hv) hvt) fun d hd => ?_
    obtain ⟨d', hd', hd⟩ := mem_eliminate.mp hd
    obtain ⟨u, h₁, h₂⟩ := hs d' (List.mem_cons_of_mem _ hd')
    exact joins_residue ((Subst.BlurredBy.replace hvt _).trans h₁)
      ((Subst.BlurredBy.replace hvt _).trans h₂) d hd

/-- Types that an exact map takes to types that blur a common one are unified,
and the map knows the result up to a blur. -/
theorem unify_blurred {σ σ' : Subst} {err : Option UnifyError} (hσ : σ.Idempotent)
    (h : outcome (unify s t σ) = (err, σ')) (hexact : ∀ v, (θ v).Exact p)
    (hθ : σ.BlurredBy p θ) (hs : Blurs p (s.subst θ) u) (ht : Blurs p (t.subst θ) u) :
    err = none ∧ σ'.BlurredBy p θ :=
  (elimination_unify hσ h).blurred (ready_residue hσ s t) hexact hθ
    (joins_residue ((hθ s).trans hs) ((hθ t).trans ht))

/-- Types that a map makes equal are unified, and the map knows the result. -/
theorem unify_general {σ σ' : Subst} {err : Option UnifyError} (hσ : σ.Idempotent)
    (h : outcome (unify s t σ) = (err, σ')) (hθ : σ.RefinedBy θ) (he : s.subst θ = t.subst θ) :
    err = none ∧ σ'.RefinedBy θ := by
  obtain ⟨hnone, hθ'⟩ := unify_blurred (p := False) hσ h (fun _ => False.elim)
    (fun u => blurs_false.mpr (hθ u)) (blurs_false.mpr he) (.refl _)
  exact ⟨hnone, fun u => blurs_false.mp (hθ' u)⟩

end MiniML
