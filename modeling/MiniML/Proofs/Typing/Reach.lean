import MiniML.Proofs.Typing.Frame
import MiniML.Proofs.Typing.Supply

/-!
# What a run can touch

Inference knows a set of variables: those of the types in its context, and
all that are still unused. `Reach A c c'` says that a run from `c` to `c'`
stayed in such a set `A`: no unbound variable outside `A` was bound, and the
types of those in `A` are over `A`. Variables that are not in `A` are then as
they were, however much the substitution has grown.

`Scoped A Γ c` is what a run needs for that (`expr_reach`): the types of the
context are over `A`, and so is the supply. The sets are used with more and
with less in them: all variables, to bound what a run mentions; those that
are live in a context, to see what a run leaves alone; all but some quantified
ones, to see that these stay quantified.
-/
namespace MiniML

/-- The bindings of a checker are idempotent and about variables of its
supply that are drawn already. -/
structure Checker.Sane (c : Checker) : Prop where
  idem : c.subst.Idempotent
  unused : ∀ v, c.next ≤ v → c.subst.get? v = none
  below : ∀ v t, c.subst.get? v = some t → ∀ w ∈ t.leaves, w < c.next

/-- The variables of a type, as far as it is known, are drawn and in `A`. -/
def Seen (A : TyVar → Prop) (c : Checker) (t : Ty) : Prop :=
  ∀ v ∈ (c.subst.apply t).leaves, A v ∧ v < c.next

/-- `c'` is reached from `c` within `A`. -/
structure Reach (A : TyVar → Prop) (c c' : Checker) : Prop extends Frame c c' where
  sane : c'.Sane
  refines : c.subst.RefinedBy c'.subst.image
  outside : ∀ v, ¬ A v → c.subst.get? v = none → c'.subst.get? v = none
  inside : ∀ v, A v → c.subst.get? v = none → ∀ w ∈ (c'.subst.apply (.var v)).leaves, A w

variable {A B : TyVar → Prop} {c c' d : Checker} {t u : Ty} {v w : TyVar}

/-- A checker that knows nothing is sane. -/
theorem Checker.sane_knowing_empty (c : Checker) : (c.knowing .empty).Sane :=
  ⟨Subst.idempotent_empty, fun _ _ => rfl, fun _ _ h => by cases h⟩

theorem Checker.Sane.unbound (hs : c.Sane) (h : v ∈ (c.subst.apply t).leaves) :
    c.subst.get? v = none :=
  Subst.get?_of_mem_apply hs.idem h

theorem Checker.Sane.apply_unbound (hs : c.Sane) (h : c.subst.get? v = none) :
    c.subst.apply (.var v) = .var v :=
  Subst.apply_fixed hs.idem (by simpa using h)

/-- The variables of a drawn variable are drawn. -/
theorem Checker.Sane.lt_of_mem (hs : c.Sane) (hv : v < c.next)
    (h : w ∈ (c.subst.apply (.var v)).leaves) : w < c.next := by
  rw [Subst.apply_var hs.idem] at h
  cases hg : c.subst.get? v with
  | none =>
    rw [Subst.image_of_none hg, Ty.leaves_var, List.mem_singleton] at h
    exact h ▸ hv
  | some t => exact hs.below v t hg w (by rwa [Subst.image_of_some hg] at h)

namespace Seen

theorem error : Seen A c .error := by
  unfold Seen Subst.apply
  cases c.subst.size <;> simp [Subst.follow, Ty.subst]

theorem prim (p : Prim) : Seen A c (.prim p) := by
  unfold Seen Subst.apply
  cases c.subst.size <;> simp [Subst.follow, Ty.subst]

theorem iff_leaves (hs : c.Sane) : Seen A c t ↔ ∀ v ∈ t.leaves, Seen A c (.var v) := by
  unfold Seen
  constructor
  · intro h v hv w hw
    exact h w ((Subst.mem_leaves_apply hs.idem).mpr ⟨v, hv, hw⟩)
  · intro h w hw
    obtain ⟨v, hv, hw⟩ := (Subst.mem_leaves_apply hs.idem).mp hw
    exact h v hv w hw

theorem apply (hs : c.Sane) (h : Seen A c t) : Seen A c (c.subst.apply t) := by
  unfold Seen
  rw [Subst.apply_apply hs.idem]
  exact h

theorem tuple {ts : List Ty} (hs : c.Sane) (h : ∀ t ∈ ts, Seen A c t) : Seen A c (.tuple ts) := by
  refine (iff_leaves hs).mpr fun v hv => ?_
  rw [Ty.leaves_tuple, List.mem_flatMap] at hv
  obtain ⟨t, ht, hv⟩ := hv
  exact (iff_leaves hs).mp (h t ht) v hv

theorem curried {ts : List Ty} (hs : c.Sane) (h : ∀ t ∈ ts, Seen A c t) (hu : Seen A c u) :
    Seen A c (.curried ts u) := by
  refine (iff_leaves hs).mpr fun v hv => ?_
  rcases Ty.mem_leaves_curried.mp hv with ⟨t, ht, hv⟩ | hv
  · exact (iff_leaves hs).mp (h t ht) v hv
  · exact (iff_leaves hs).mp hu v hv

/-- An unbound variable is seen if it is there. -/
theorem var (hs : c.Sane) (hg : c.subst.get? v = none) (hA : A v) (hv : v < c.next) :
    Seen A c (.var v) := by
  unfold Seen
  rw [hs.apply_unbound hg]
  intro w hw
  rw [Ty.leaves_var, List.mem_singleton] at hw
  exact hw ▸ ⟨hA, hv⟩

theorem settled {ok : Bool} (h : Seen A c t) : Seen A c (Infer.settled ok t) := by
  cases ok
  · exact error
  · exact h

end Seen

namespace Reach

theorem refl (hs : c.Sane) : Reach A c c where
  toFrame := .refl c
  sane := hs
  refines := Subst.refinedBy_image hs.idem
  outside _ _ hg := hg
  inside v hA hg w hw := by
    rw [hs.apply_unbound hg, Ty.leaves_var, List.mem_singleton] at hw
    exact hw ▸ hA

theorem seen (h : Reach A c c') (hs : c.Sane) (ht : Seen A c t) : Seen A c' t := by
  intro w hw
  rw [← h.refines.apply h.sane.idem] at hw
  obtain ⟨v, hv, hw⟩ := (Subst.mem_leaves_apply h.sane.idem).mp hw
  obtain ⟨hA, hlt⟩ := ht v hv
  exact ⟨h.inside v hA (hs.unbound hv) w hw,
    h.sane.lt_of_mem (Nat.lt_of_lt_of_le hlt h.next_le) hw⟩

/-- What is seen in slots stays so. -/
theorem all {e : Expr} (h : Reach A c c') (hs : c.Sane) (he : e.All (Seen A c)) :
    e.All (Seen A c') := fun t ht => h.seen hs (he t ht)

theorem trans (h : Reach A c d) (h' : Reach A d c') : Reach A c c' where
  toFrame := h.toFrame.trans h'.toFrame
  sane := h'.sane
  refines := h.refines.trans h.sane.idem h'.refines
  outside v hA hg := h'.outside v hA (h.outside v hA hg)
  inside v hA hg w hw := by
    rw [← h'.refines.apply h'.sane.idem] at hw
    obtain ⟨x, hx, hw⟩ := (Subst.mem_leaves_apply h'.sane.idem).mp hw
    exact h'.inside x (h.inside v hA hg x hx) (h.sane.unbound hx) w hw

theorem mono (h : Reach A c c') (hAB : ∀ v, A v → B v) : Reach B c c' where
  toFrame := h.toFrame
  sane := h.sane
  refines := h.refines
  outside v hB hg := h.outside v (fun hA => hB (hAB v hA)) hg
  inside v hB hg w hw := by
    by_cases hA : A v
    · exact hAB w (h.inside v hA hg w hw)
    · rw [h.sane.apply_unbound (h.outside v hA hg), Ty.leaves_var, List.mem_singleton] at hw
      exact hw ▸ hB

end Reach

/-! ## Steps -/

theorem Reach.noting (hs : c.Sane) (ds : Diagnostics) : Reach A c (c.noting ds) where
  toFrame := .noting c ds
  sane := ⟨hs.idem, hs.unused, hs.below⟩
  refines := Subst.refinedBy_image hs.idem
  outside := (Reach.refl hs).outside
  inside := (Reach.refl hs).inside

theorem Reach.drew (h : c.Drew c') (hs : c.Sane) : Reach A c c' := by
  have hf := Frame.drew h
  rw [h.rest] at hf ⊢
  refine ⟨hf, ⟨hs.idem, fun v hv => hs.unused v (Nat.le_trans h.le hv), fun v t hg w hw => ?_⟩,
    Subst.refinedBy_image hs.idem, (refl hs).outside, (refl hs).inside⟩
  exact Nat.lt_of_lt_of_le (hs.below v t hg w hw) h.le

/-- Types over what was just drawn are seen. -/
theorem Seen.drew (h : c.Drew c') (hs : c.Sane) (hA : ∀ v, c.next ≤ v → A v)
    (ht : t.Between c.next c'.next) : Seen A c' t := by
  have hs' := (Reach.drew (A := A) h hs).sane
  refine (Seen.iff_leaves hs').mpr fun v hv => ?_
  have hg : c'.subst.get? v = none := by
    rw [h.rest]
    exact hs.unused v (ht v hv).1
  exact .var hs' hg (hA v (ht v hv).1) (ht v hv).2

/-- Solving an equation of seen types, as far as it goes, binds seen variables
to types over seen variables. -/
theorem Reach.knowing {err : Option UnifyError} {σ : Subst} (hs : c.Sane) (ht : Seen A c t)
    (hu : Seen A c u) (h : outcome (unify t u c.subst) = (err, σ)) :
    Reach A c (c.knowing σ) := by
  obtain ⟨hi, hr⟩ := unify_grows hs.idem h
  obtain ⟨hout, hin⟩ := unify_frame (A := fun v => A v ∧ v < c.next) hs.idem h ht hu
  have hself : ∀ v, σ.get? v = none → σ.apply (.var v) = .var v := fun v hg =>
    Subst.apply_fixed hi (by simpa using hg)
  have hfresh : ∀ v, c.next ≤ v → σ.get? v = none := fun v hv =>
    hout v (fun h => Nat.not_lt_of_ge hv h.2) (hs.unused v hv)
  -- an unbound variable that is drawn stands for a type over drawn ones
  have hlt : ∀ v, c.subst.get? v = none → v < c.next →
      ∀ w ∈ (σ.apply (.var v)).leaves, w < c.next := by
    intro v hg hv w hw
    by_cases hA : A v
    · exact (hin v ⟨hA, hv⟩ hg w hw).2
    · rw [hself v (hout v (fun h => hA h.1) hg), Ty.leaves_var, List.mem_singleton] at hw
      exact hw ▸ hv
  refine ⟨.knowing c σ, ⟨hi, hfresh, fun v s hg w hw => ?_⟩, hr,
    fun v hA hg => hout v (fun h => hA h.1) hg, fun v hA hg w hw => ?_⟩
  · change σ.get? v = some s at hg
    have hv : v < c.next := Nat.lt_of_not_le fun hv => by rw [hfresh v hv] at hg; cases hg
    rw [← Subst.image_of_some hg, ← Subst.apply_var hi, ← hr.apply hi] at hw
    obtain ⟨x, hx, hw⟩ := (Subst.mem_leaves_apply hi).mp hw
    exact hlt x (hs.unbound hx) (hs.lt_of_mem hv hx) w hw
  · by_cases hv : v < c.next
    · exact (hin v ⟨hA, hv⟩ hg w hw).1
    · have hge := Nat.le_of_not_lt hv
      rw [show (c.knowing σ).subst = σ from rfl, hself v (hfresh v hge), Ty.leaves_var,
        List.mem_singleton] at hw
      exact hw ▸ hA

namespace Infer

theorem Equated.reach {ok : Bool} (h : Equated t u c ok c') (hs : c.Sane) (ht : Seen A c t)
    (hu : Seen A c u) : Reach A c c' := by
  cases h with
  | solved h => exact .knowing hs ht hu h
  | refused h _ =>
    have r := Reach.knowing hs ht hu h
    exact r.trans (.noting r.sane _)

end Infer

/-! ## Schemes and contexts -/

/-- The free variables of a scheme are seen. -/
def Scheme.Seen (A : TyVar → Prop) (c : Checker) (s : Scheme) : Prop :=
  ∀ v, s.Free v → MiniML.Seen A c (.var v)

theorem Scheme.free_mono : (Scheme.mono t).Free v ↔ v ∈ t.leaves := by
  simp [Scheme.Free, Scheme.mono]

theorem Scheme.seen_mono (hs : c.Sane) (h : MiniML.Seen A c t) : (Scheme.mono t).Seen A c :=
  fun v hv => (MiniML.Seen.iff_leaves hs).mp h v (Scheme.free_mono.mp hv)

namespace Context.All

variable {P : Scheme → Prop} {Γ : Context} {s : Scheme}

theorem singleton {x : String} (hs : P s) : Context.All P (.singleton x s) := by
  intro y s' hy
  rw [FinMap.get?_singleton] at hy
  split at hy
  · cases hy; exact hs
  · cases hy

theorem insert {x : String} (h : Γ.All P) (hs : P s) : Context.All P (Γ.insert x s) := by
  intro y s' hy
  rw [FinMap.get?_insert] at hy
  split at hy
  · cases hy; exact hs
  · exact h y s' hy

theorem extend {bs : List (String × Scheme)} (h : Γ.All P) (hbs : ∀ b ∈ bs, P b.2) :
    (Γ.extend bs).All P := by
  intro y s' hy
  rw [Context.extend, FinMap.get?_insertMany] at hy
  cases hl : FinMap.look y bs.reverse with
  | none => rw [hl] at hy; exact h y s' hy
  | some s =>
    rw [hl] at hy
    cases hy
    exact hbs _ (List.mem_reverse.mp (FinMap.look_eq_some hl))

theorem bindName {n : Option Name} (h : Γ.All P) (hs : P s) : (Infer.bindName Γ n s).All P := by
  cases n with
  | none => exact h
  | some n => exact h.insert hs

end Context.All

/-- What a run in a context needs to stay in a set of variables. -/
structure Scoped (A : TyVar → Prop) (Γ : Context) (c : Checker) : Prop where
  sane : c.Sane
  supply : ∀ v, c.next ≤ v → A v
  builtins : c.builtins.Closed
  context : Γ.All (Scheme.Seen A c)

namespace Scoped

variable {Γ Δ : Context}

/-- Before anything is known, a closed context is in scope. -/
theorem start (hbuiltins : c.builtins.Closed) (hΓ : Γ.Closed) :
    Scoped (fun _ => True) Γ (c.knowing .empty) where
  sane := c.sane_knowing_empty
  supply _ _ := trivial
  builtins := hbuiltins
  context x s hx v hv := absurd hv (hΓ x s hx v)

theorem step (h : Scoped A Γ c) (hr : Reach A c c') : Scoped A Γ c' where
  sane := hr.sane
  supply v hv := h.supply v (Nat.le_trans hr.next_le hv)
  builtins := hr.builtins ▸ h.builtins
  context x s hx v hv := hr.seen h.sane (h.context x s hx v hv)

theorem inside (h : Scoped A Γ c) (hΔ : Δ.All (Scheme.Seen A c)) : Scoped A Δ c :=
  { h with context := hΔ }

/-- The first unused variable belongs to the supply. -/
theorem fresh (h : Scoped A Γ c) :
    Reach A c { c with next := c.next + 1 } ∧
      Seen A { c with next := c.next + 1 } (.var c.next) :=
  ⟨.drew c.drew_succ h.sane, .drew c.drew_succ h.sane h.supply (.var c.next)⟩

end Scoped

/-! ## The ends of the rules -/

namespace Infer

variable {Γ : Context}

theorem Instantiated.reach {s : Scheme} (h : Instantiated s c t c') (hsc : Scoped A Γ c)
    (hs : s.Seen A c) : Reach A c c' ∧ Seen A c' t := by
  obtain ⟨hd, f, hf, rfl⟩ := h
  have r : Reach A c c' := .drew hd hsc.sane
  refine ⟨r, (Seen.iff_leaves r.sane).mpr fun w hw => ?_⟩
  obtain ⟨v, hv, hw⟩ := Ty.mem_leaves_subst.mp hw
  by_cases hvs : v ∈ s.vars
  · obtain ⟨x, hx, h1, h2⟩ := hf.inside v hvs
    have hb : (f v).Between c.next c'.next := by
      rw [hx]
      exact fun y hy => by rw [List.mem_singleton.mp hy]; exact ⟨h1, h2⟩
    exact (Seen.iff_leaves r.sane).mp (Seen.drew hd hsc.sane hsc.supply hb) w hw
  · rw [hf.outside v hvs, Ty.leaves_var, List.mem_singleton] at hw
    exact hw ▸ r.seen hsc.sane (hs v ⟨hv, hvs⟩)

theorem Refused.reach {r : Ty} (h : Refused c r c') (hs : c.Sane) :
    Reach A c c' ∧ Seen A c' r := by
  obtain ⟨rfl, ds, -, rfl⟩ := h
  exact ⟨.noting hs ds, .error⟩

theorem Applied.reach {args : List Ty} {r : Ty} (h : Applied t args c r c') (hsc : Scoped A Γ c)
    (ht : Seen A c t) (hargs : ∀ u ∈ args, Seen A c u) : Reach A c c' ∧ Seen A c' r := by
  obtain ⟨-, ok, he, rfl⟩ := h
  obtain ⟨r, hnew⟩ := hsc.fresh
  have r' := he.reach r.sane (r.seen hsc.sane ht)
    (.curried r.sane (fun u hu => r.seen hsc.sane (hargs u hu)) hnew)
  exact ⟨r.trans r', .settled ((r'.seen r.sane hnew).apply r'.sane)⟩

theorem applyOperator_reach {name symbol : String} {args : List Ty} {span : Span} {r : Ty}
    {x : Except TypeError Ty} (hx : Runs (applyOperator name symbol args span) c x d)
    (hr : Runs (settle x) d r c') (hsc : Scoped A Γ c) (hargs : ∀ u ∈ args, Seen A c u) :
    Reach A c c' ∧ Seen A c' r := by
  rcases runs_applyOperator hx hr with ⟨-, h⟩ | ⟨s, u, c₁, hget, hi, h⟩
  · exact h.reach hsc.sane
  · obtain ⟨r₁, hu⟩ := hi.reach hsc fun v hv => absurd hv (hsc.builtins name s hget v)
    have hsc₁ := hsc.step r₁
    rcases h with ⟨-, h⟩ | ⟨-, h⟩
    · obtain ⟨r₂, hr⟩ := h.reach (A := A) hsc₁.sane
      exact ⟨r₁.trans r₂, hr⟩
    · obtain ⟨r₂, hr⟩ := h.reach hsc₁ hu fun u hu => r₁.seen hsc.sane (hargs u hu)
      exact ⟨r₁.trans r₂, hr⟩

theorem annotate_reach {h : Option Hint} {span : Span} {r : Unit}
    (hrun : Runs (annotate h t span) c r c') (hsc : Scoped A Γ c) (ht : Seen A c t) :
    Reach A c c' := by
  cases h with
  | none =>
    obtain ⟨-, rfl⟩ := runs_pure.mp hrun
    exact .refl hsc.sane
  | some h =>
    obtain ⟨u, named, d, ok, hu, he⟩ := runs_annotate hrun
    have hread := runs_hintType (Nat.le_refl _) (fun x t hx => by simp at hx) hu
    have r : Reach A c d := .drew hread.drew hsc.sane
    have hu : Seen A d u :=
      .drew hread.drew hsc.sane hsc.supply (hread.types u (by simp)).1
    exact r.trans (he.reach r.sane hu (r.seen hsc.sane ht))

theorem checkDistinct_reach {ps : List Pattern} {r : Unit} (h : Runs (checkDistinct ps) c r c')
    (hs : c.Sane) : Reach A c c' := by
  rcases runs_checkDistinct h with ⟨-, rfl⟩ | ⟨-, ds, -, rfl⟩
  · exact .refl hs
  · exact .noting hs ds

/-- What is generalized has its free variables in the context. -/
theorem generalize_seen {s : Scheme} (h : Runs (generalize Γ t) c s c') (hs : c.Sane)
    (ht : Seen A c t) : s.Seen A c := by
  obtain ⟨-, hbody, -⟩ := runs_generalize h
  intro v hv
  exact (Seen.iff_leaves hs).mp (ht.apply hs) v (hbody ▸ hv.1)

theorem PatternsRun.seen {ps ps' : List Pattern} {bs : Bindings} (h : PatternsRun ps c ps' bs c')
    (hsc : Scoped A Γ c) : (∀ p ∈ ps', p.All (Seen A c')) ∧ ∀ b ∈ bs, b.2.Seen A c' := by
  have r : Reach A c c' := .drew h.drew hsc.sane
  have hslot : ∀ p ∈ ps', p.All (Seen A c') := fun p hp t ht =>
    .drew h.drew hsc.sane hsc.supply (h.between p hp t ht)
  refine ⟨hslot, fun b hb => ?_⟩
  rw [h.bindings, List.mem_flatMap] at hb
  obtain ⟨p, hp, hb⟩ := hb
  obtain ⟨t, ht, hb⟩ := Pattern.mem_bindings hb
  exact hb ▸ Scheme.seen_mono r.sane (hslot p hp t ht)

/-! ## Runs of the rules -/

/-- Every run on `e` stays in scope, with all that it writes into slots. -/
def Stays (e : Expr) : Prop :=
  ∀ {A : TyVar → Prop} {Γ : Context} {c : Checker} {e' : Expr} {c' : Checker},
    Scoped A Γ c → Runs (expr Γ e) c e' c' → Reach A c c' ∧ e'.All (Seen A c')

theorem exprs_reach {es es' : List Expr} (h : ∀ e ∈ es, Stays e) (hsc : Scoped A Γ c)
    (hrun : Runs (exprs Γ es) c es' c') : Reach A c c' ∧ ∀ e ∈ es', e.All (Seen A c') := by
  induction es generalizing c es' with
  | nil =>
    obtain ⟨rfl, rfl⟩ := runs_pure.mp hrun
    exact ⟨.refl hsc.sane, by simp⟩
  | cons e es ih =>
    obtain ⟨a, c₁, as, ha, has, rfl⟩ := runs_exprs_cons hrun
    obtain ⟨r₁, h₁⟩ := h e (by simp) hsc ha
    obtain ⟨r₂, h₂⟩ := ih (fun d hd => h d (by simp [hd])) (hsc.step r₁) has
    exact ⟨r₁.trans r₂, List.forall_mem_cons.mpr ⟨r₂.all r₁.sane h₁, h₂⟩⟩

theorem optional_reach {o o' : Option Expr} (h : ∀ e ∈ o, Stays e) (hsc : Scoped A Γ c)
    (hrun : Runs (optional Γ o) c o' c') :
    Reach A c c' ∧ Seen A c' (elseTy o') ∧ ∀ e ∈ o', e.All (Seen A c') := by
  cases o with
  | none =>
    obtain ⟨rfl, rfl⟩ := runs_pure.mp hrun
    exact ⟨.refl hsc.sane, .prim _, nofun⟩
  | some e =>
    obtain ⟨a, ha, rfl⟩ := runs_optional_some hrun
    obtain ⟨r, hseen⟩ := h e rfl hsc ha
    exact ⟨r, hseen.ty, fun d hd => by cases hd; exact hseen⟩

theorem arms_reach {as as' : List Arm} {scrutinee result : Ty} {reachable : Bool}
    (h : ∀ a ∈ as, Stays a.body) (hsc : Scoped A Γ c) (hs : Seen A c scrutinee)
    (hr : Seen A c result) (hrun : Runs (arms Γ scrutinee result reachable as) c as' c') :
    Reach A c c' ∧ ∀ a ∈ as', a.pattern.All (Seen A c') ∧ a.body.All (Seen A c') := by
  induction as generalizing c as' reachable with
  | nil =>
    obtain ⟨rfl, rfl⟩ := runs_pure.mp hrun
    exact ⟨.refl hsc.sane, by simp⟩
  | cons a as ih =>
    obtain ⟨p, e, span⟩ := a
    obtain ⟨ds, c₁, p', bs, c₂, ok, c₃, b, c₄, ok', c₅, rest, -, hd, hp, he, hb, he', hrest, rfl⟩ :=
      runs_arms_cons hrun
    have r₀ : Reach A c (c.noting ds) := .noting hsc.sane ds
    have r₁ := r₀.trans (checkDistinct_reach hd r₀.sane)
    have hpat := runs_pattern hp
    obtain ⟨hps, hbs⟩ := hpat.singleton.seen (hsc.step r₁)
    have hpseen := hps p' (by simp)
    have r₂ := r₁.trans (.drew hpat.drew r₁.sane)
    have e₃ := he.reach r₂.sane (r₂.seen hsc.sane hs) (hpseen _ p'.ty_mem_slots)
    have r₃ := r₂.trans e₃
    have hsc₃ := hsc.step r₃
    obtain ⟨e₄, hbseen⟩ := h (.mk p e span) (by simp)
      (hsc₃.inside (hsc₃.context.extend fun b hb v hv => e₃.seen r₂.sane (hbs b hb v hv))) hb
    have r₄ := r₃.trans e₄
    have e₅ := he'.reach r₄.sane (r₄.seen hsc.sane hr) hbseen.ty
    have r₅ := r₄.trans e₅
    obtain ⟨e₆, hrestseen⟩ := ih (fun a ha => h a (by simp [ha])) (hsc.step r₅)
      (r₅.seen hsc.sane hs) (r₅.seen hsc.sane hr) hrest
    have e₂ : Reach A c₂ c' := e₃.trans (e₄.trans (e₅.trans e₆))
    exact ⟨r₅.trans e₆, List.forall_mem_cons.mpr
      ⟨⟨fun t ht => e₂.seen r₂.sane (hpseen t ht), (e₅.trans e₆).all r₄.sane hbseen⟩, hrestseen⟩⟩

theorem bindHead_reach {h : Option Hint} {v v' : Expr} {span : Span} (hv : Stays v)
    (hsc : Scoped A Γ c) (hrun : BindHead Γ h v span c v' c') :
    Reach A c c' ∧ v'.All (Seen A c') := by
  obtain ⟨c₁, hrun, ha⟩ := hrun
  obtain ⟨r₁, hseen⟩ := hv hsc hrun
  have r₂ := annotate_reach ha (hsc.step r₁) hseen.ty
  exact ⟨r₁.trans r₂, r₂.all r₁.sane hseen⟩

/-- The function itself has the first unused variable as its type. -/
theorem lamHead_reach {n : Option Name} {ps ps' : List Pattern} {h : Option Hint} {b b' : Expr}
    {span : Span} (hb : Stays b) (hsc : Scoped A Γ c)
    (hrun : LamHead Γ n ps h b span c ps' b' c') :
    Reach A c c' ∧ Seen A c' (.curried (ps'.map Pattern.ty) b'.ty) ∧
      (∀ p ∈ ps', p.All (Seen A c')) ∧ b'.All (Seen A c') := by
  obtain ⟨c₁, bs, c₂, c₃, ok, c₄, -, hd, hp, hrun, he, ha⟩ := hrun
  obtain ⟨r₀, hself⟩ := hsc.fresh
  have e₁ := checkDistinct_reach (A := A) hd r₀.sane
  have r₁ := r₀.trans e₁
  have hpat := runs_patterns (fun p _ => runs_pattern) hp
  obtain ⟨hps, hbs⟩ := hpat.seen (hsc.step r₁)
  have e₂ : Reach A c₁ c₂ := .drew hpat.drew r₁.sane
  have r₂ := r₁.trans e₂
  have hself₂ := e₂.seen r₁.sane (e₁.seen r₀.sane hself)
  have hsc₂ := hsc.step r₂
  obtain ⟨e₃, hbseen⟩ := hb (hsc₂.inside
    ((hsc₂.context.bindName (Scheme.seen_mono r₂.sane hself₂)).extend hbs)) hrun
  have r₃ := r₂.trans e₃
  have hty : Seen A c₃ (.curried (ps'.map Pattern.ty) b'.ty) := by
    refine .curried r₃.sane (fun t ht => e₃.seen r₂.sane ?_) hbseen.ty
    obtain ⟨p, hp, rfl⟩ := List.mem_map.mp ht
    exact hps p hp _ p.ty_mem_slots
  have e₄ := he.reach r₃.sane (e₃.seen r₂.sane hself₂) hty
  have r₄ := r₃.trans e₄
  have hty₄ := e₄.seen r₃.sane hty
  have e₅ := annotate_reach ha (hsc.step r₄) hty₄
  have e₃' := e₄.trans e₅
  exact ⟨r₄.trans e₅, e₅.seen r₄.sane hty₄,
    fun p hp t ht => (e₃.trans e₃').seen r₂.sane (hps p hp t ht), e₃'.all r₃.sane hbseen⟩

/-- A run stays in its scope, and so do the types that it writes into slots. -/
theorem expr_reach (e : Expr) : Stays e := by
  induction e with
  | const l m =>
    intro A Γ c e' c' hsc hrun
    obtain ⟨rfl, rfl⟩ := runs_const hrun
    exact ⟨.refl hsc.sane, Expr.all_const.mpr (.prim _)⟩
  | ident n =>
    intro A Γ c e' c' hsc hrun
    obtain ⟨t, rfl, h⟩ := runs_ident hrun
    obtain ⟨r, hseen⟩ : Reach A c c' ∧ Seen A c' t := by
      rcases h with ⟨-, h⟩ | ⟨s, hget, h⟩
      · exact h.reach hsc.sane
      · exact h.reach hsc (hsc.context n.text s hget)
    exact ⟨r, Expr.all_ident.mpr hseen⟩
  | tuple es m ih =>
    intro A Γ c e' c' hsc hrun
    obtain ⟨es', hes, rfl⟩ := runs_tuple hrun
    obtain ⟨r, hseen⟩ := exprs_reach ih hsc hes
    refine ⟨r, Expr.all_tuple.mpr ⟨.tuple r.sane fun t ht => ?_, hseen⟩⟩
    obtain ⟨e, he, rfl⟩ := List.mem_map.mp ht
    exact (hseen e he).ty
  | unary op e m ih =>
    intro A Γ c e' c' hsc hrun
    obtain ⟨a, c₁, x, d, t, ha, hx, ht, rfl⟩ := runs_unary hrun
    obtain ⟨r₁, h₁⟩ := ih hsc ha
    obtain ⟨r₂, h₂⟩ := applyOperator_reach hx ht (hsc.step r₁) (by simpa using h₁.ty)
    exact ⟨r₁.trans r₂, Expr.all_unary.mpr ⟨h₂, r₂.all r₁.sane h₁⟩⟩
  | binary op l r m hl hr =>
    intro A Γ c e' c' hsc hrun
    obtain ⟨a, c₁, b, c₂, x, d, t, ha, hb, hx, ht, rfl⟩ := runs_binary hrun
    obtain ⟨r₁, h₁⟩ := hl hsc ha
    obtain ⟨e₂, h₂⟩ := hr (hsc.step r₁) hb
    have r₂ := r₁.trans e₂
    obtain ⟨e₃, h₃⟩ := applyOperator_reach hx ht (hsc.step r₂)
      (by simpa using ⟨e₂.seen r₁.sane h₁.ty, h₂.ty⟩)
    exact ⟨r₂.trans e₃,
      Expr.all_binary.mpr ⟨h₃, (e₂.trans e₃).all r₁.sane h₁, e₃.all r₂.sane h₂⟩⟩
  | app f es m hf ih =>
    intro A Γ c e' c' hsc hrun
    obtain ⟨a, c₁, es', c₂, t, ha, hes, rfl, h⟩ := runs_app hrun
    obtain ⟨r₁, h₁⟩ := hf hsc ha
    obtain ⟨e₂, h₂⟩ := exprs_reach ih (hsc.step r₁) hes
    have r₂ := r₁.trans e₂
    obtain ⟨e₃, h₃⟩ : Reach A c₂ c' ∧ Seen A c' t := by
      rcases h with ⟨-, h⟩ | ⟨-, h⟩
      · exact h.reach r₂.sane
      · refine h.reach (hsc.step r₂) (e₂.seen r₁.sane h₁.ty) fun u hu => ?_
        obtain ⟨e, he, rfl⟩ := List.mem_map.mp hu
        exact (h₂ e he).ty
    exact ⟨r₂.trans e₃, Expr.all_app.mpr
      ⟨h₃, (e₂.trans e₃).all r₁.sane h₁, fun e he => e₃.all r₂.sane (h₂ e he)⟩⟩
  | cond e y n m he hy hn =>
    intro A Γ c e' c' hsc hrun
    obtain ⟨a, c₁, ok, c₂, b, c₃, n', c₄, ok', ha, hc, hb, hn', hj, rfl⟩ := runs_cond hrun
    obtain ⟨r₁, h₁⟩ := he hsc ha
    have e₂ := hc.reach r₁.sane (.prim _) h₁.ty
    have r₂ := r₁.trans e₂
    obtain ⟨e₃, h₃⟩ := hy (hsc.step r₂) hb
    have r₃ := r₂.trans e₃
    obtain ⟨e₄, helse, h₄⟩ := optional_reach hn (hsc.step r₃) hn'
    have r₄ := r₃.trans e₄
    have hyes := e₄.all r₃.sane h₃
    have e₅ := hj.reach r₄.sane hyes.ty helse
    have r₅ := r₄.trans e₅
    refine ⟨r₅, Expr.all_cond.mpr ⟨.settled ((e₅.seen r₄.sane hyes.ty).apply r₅.sane), ?_,
      e₅.all r₄.sane hyes, fun d hd => e₅.all r₄.sane (h₄ d hd)⟩⟩
    exact (e₂.trans (e₃.trans (e₄.trans e₅))).all r₁.sane h₁
  | cases e as m he has =>
    intro A Γ c e' c' hsc hrun
    obtain ⟨a, c₁, as', ha, -, has', rfl⟩ := runs_cases hrun
    obtain ⟨r₁, h₁⟩ := he hsc ha
    have hsc₁ := hsc.step r₁
    obtain ⟨e₂, hnew⟩ := hsc₁.fresh
    obtain ⟨e₃, h₃⟩ := arms_reach has (hsc₁.step e₂) (e₂.seen r₁.sane h₁.ty) hnew has'
    have r₃ := (r₁.trans e₂).trans e₃
    exact ⟨r₃, Expr.all_cases.mpr
      ⟨(e₃.seen e₂.sane hnew).apply r₃.sane, (e₂.trans e₃).all r₁.sane h₁, h₃⟩⟩
  | bind n h v b m hv hb =>
    intro A Γ c e' c' hsc hrun
    cases b with
    | none =>
      obtain ⟨v', hhead, rfl⟩ := runs_declare hrun
      obtain ⟨r, hseen⟩ := bindHead_reach hv hsc hhead
      have hty := hseen.ty.apply r.sane
      exact ⟨r, Expr.all_bind.mpr ⟨hty, hty, hseen, nofun⟩⟩
    | some b =>
      obtain ⟨v', c₁, s, b', hhead, hs, hb', rfl⟩ := runs_let hrun
      obtain ⟨r₁, hseen⟩ := bindHead_reach hv hsc hhead
      have hty := hseen.ty.apply r₁.sane
      have hsc₁ := hsc.step r₁
      have hs := generalize_seen hs r₁.sane hty
      obtain ⟨r₂, h₂⟩ := hb b rfl (hsc₁.inside (hsc₁.context.insert hs)) hb'
      exact ⟨r₁.trans r₂, Expr.all_bind.mpr ⟨h₂.ty, r₂.seen r₁.sane hty, r₂.all r₁.sane hseen,
        fun d hd => by cases hd; exact h₂⟩⟩
  | lam n ps h b r m hb hr =>
    intro A Γ c e' c' hsc hrun
    have hname (t : Ty) (c : Checker) (ht : Seen A c t) :
        ∀ x ∈ n.map (Name.typed · t), Seen A c x.mark.ty := by
      cases n with
      | none => exact nofun
      | some n => exact fun x hx => by cases hx; exact ht
    cases r with
    | none =>
      obtain ⟨ps', b', t, hhead, rfl, rfl⟩ := runs_lam hrun
      obtain ⟨r, hty, hps, hbody⟩ := lamHead_reach hb hsc hhead
      have hty := hty.apply r.sane
      exact ⟨r, Expr.all_lam.mpr ⟨hty, hname _ _ hty, hps, hbody, nofun⟩⟩
    | some r =>
      obtain ⟨ps', b', t, c₁, s, r', hhead, rfl, hs, hr', rfl⟩ := runs_fun hrun
      obtain ⟨r₁, hty, hps, hbody⟩ := lamHead_reach hb hsc hhead
      have hty := hty.apply r₁.sane
      have hsc₁ := hsc.step r₁
      have hs := generalize_seen hs r₁.sane hty
      obtain ⟨r₂, h₂⟩ := hr r rfl (hsc₁.inside (hsc₁.context.bindName hs)) hr'
      exact ⟨r₁.trans r₂, Expr.all_lam.mpr ⟨h₂.ty, hname _ _ (r₂.seen r₁.sane hty),
        fun p hp t ht => r₂.seen r₁.sane (hps p hp t ht), r₂.all r₁.sane hbody,
        fun d hd => by cases hd; exact h₂⟩⟩

end Infer
end MiniML
