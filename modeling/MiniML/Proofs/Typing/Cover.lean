import MiniML.Proofs.Ty.Blur
import MiniML.Proofs.Typing.Reach
import MiniML.Proofs.Typing.Resolve

/-!
# Schemes as general as those of a derivation

Inference and a derivation go through contexts with the same names. A map `θ`
gives the variables of inference their types in the derivation, and
`Γ.Covers p θ Δ` says that inference has, under `θ`, a scheme for each name
that can be used at all types at which the derivation can use its own. Where
`p` holds the schemes of inference may have lost parts of their types, and it
is enough that they can be used at a blur of the type.

Results:
* `Context.Covers.free`: what is free for inference is free in the derivation,
  so inference quantifies all that the derivation does.
* `covers_generalize`: a generalization of a type covers every generalization
  of a type that it blurs under `θ`.
-/
namespace MiniML

/-- Under `θ`, `s` can be used at a blur of `t`. -/
def Scheme.Offers (p : Prop) (θ : TyVar → Ty) (s : Scheme) (t : Ty) : Prop :=
  ∃ f : TyVar → Ty, (∀ v ∉ s.vars, f v = θ v) ∧ (∀ v, (f v).Exact p) ∧ Blurs p (s.body.subst f) t

/-- Under `θ`, `s` can be used wherever `s'` can, and of that nothing is lost. -/
structure Scheme.Covers (p : Prop) (θ : TyVar → Ty) (s s' : Scheme) : Prop where
  exact : s'.body.Exact p
  offers : ∀ t : Ty, t.Exact p → s'.Instance t → s.Offers p θ t

/-- The names of `Δ` are those of `Γ`, with schemes that those of `Γ` cover. -/
def Context.Covers (p : Prop) (θ : TyVar → Ty) (Γ Δ : Context) : Prop :=
  ∀ x, Option.Rel (Scheme.Covers p θ) (Γ.get? x) (Δ.get? x)

variable {p : Prop} {θ θ' : TyVar → Ty} {s s' : Scheme} {t u : Ty} {v w : TyVar}

namespace Ty.Exact

theorem var (v : TyVar) : (Ty.var v).Exact p := fun _ => rfl

theorem prim (q : Prim) : (Ty.prim q).Exact p := fun _ => rfl

theorem leaf (h : (t.subst θ).Exact p) (hv : v ∈ t.leaves) : (θ v).Exact p :=
  fun hp => (Ty.errorFree_subst.mp (h hp)).2 v hv

theorem subst (h : t.Exact p) (hθ : ∀ v ∈ t.leaves, (θ v).Exact p) : (t.subst θ).Exact p :=
  fun hp => Ty.errorFree_subst.mpr ⟨h hp, fun v hv => hθ v hv hp⟩

end Ty.Exact

/-! ## Schemes -/

namespace Scheme

theorem Offers.congr (h : s.Offers p θ t) (hexact : ∀ v, (θ' v).Exact p)
    (hθ : ∀ v, s.Free v → θ' v = θ v) : s.Offers p θ' t := by
  obtain ⟨f, hf, hfe, hb⟩ := h
  refine ⟨fun v => if v ∈ s.vars then f v else θ' v, fun v hv => if_neg hv, fun v => ?_, ?_⟩
  · show (if v ∈ s.vars then f v else θ' v).Exact p
    split
    · exact hfe v
    · exact hexact v
  · rwa [Ty.subst_congr (g := f) fun v hv => ?_]
    by_cases hvs : v ∈ s.vars
    · exact if_pos hvs
    · rw [hf v hvs, ← hθ v ⟨hv, hvs⟩]
      exact if_neg hvs

/-- A closed scheme offers its instances under every map. -/
theorem Closed.offers (hs : s.Closed) (ht : t.Exact p) (hexact : ∀ v, (θ v).Exact p)
    (h : s.Instance t) : s.Offers p θ t := by
  obtain ⟨f, -, rfl⟩ := h
  refine ⟨fun v => if v ∈ s.vars ∧ v ∈ s.body.leaves then f v else θ v, fun v hv => ?_,
    fun v => ?_, ?_⟩
  · exact if_neg fun h => hv h.1
  · show (if v ∈ s.vars ∧ v ∈ s.body.leaves then f v else θ v).Exact p
    split
    next h => exact ht.leaf h.2
    next => exact hexact v
  · rw [Ty.subst_congr (g := f) fun v hv => ?_]
    · exact .refl _
    · exact if_pos ⟨by_contra fun hvs => hs v ⟨hv, hvs⟩, hv⟩

namespace Covers

theorem congr (h : s.Covers p θ s') (hexact : ∀ v, (θ' v).Exact p)
    (hθ : ∀ v, s.Free v → θ' v = θ v) : s.Covers p θ' s' :=
  ⟨h.exact, fun t ht hi => (h.offers t ht hi).congr hexact hθ⟩

/-- A closed scheme covers itself. -/
theorem closed (hs : s.Closed) (he : s.body.Exact p) (hexact : ∀ v, (θ v).Exact p) :
    s.Covers p θ s := ⟨he, fun _ ht hi => hs.offers ht hexact hi⟩

theorem mono (hexact : ∀ v, (θ v).Exact p) (ht : Blurs p (t.subst θ) u) (hu : u.Exact p) :
    (Scheme.mono t).Covers p θ (.mono u) := by
  refine ⟨hu, ?_⟩
  rintro _ - ⟨f, hf, rfl⟩
  have hvar : f = .var := funext fun v => hf v (by simp [Scheme.mono])
  refine ⟨θ, fun v _ => rfl, hexact, ?_⟩
  rw [hvar, Ty.subst_var]
  exact ht

/-- What is lost altogether covers everything. -/
theorem lost (hp : p) (hexact : ∀ v, (θ v).Exact p) (he : s'.body.Exact p) :
    (Scheme.mono .error).Covers p θ s' :=
  ⟨he, fun t _ _ => ⟨θ, fun _ _ => rfl, hexact, .lost hp t⟩⟩

/-- To cover a scheme is to have nothing free but what is free in it: its
quantified variables could all be replaced by a type without variables. -/
theorem free (h : s.Covers p θ s') (hv : s.Free v) (hw : w ∈ (θ v).leaves) : s'.Free w := by
  let ground : TyVar → Ty := fun q => if q ∈ s'.vars then .unit else .var q
  have hground : (s'.body.subst ground).Exact p := h.exact.subst fun q _ => by
    show (if q ∈ s'.vars then Ty.unit else .var q).Exact p
    split
    · exact .prim _
    · exact .var q
  obtain ⟨f, hf, -, hb⟩ := h.offers _ hground ⟨ground, fun q hq => if_neg hq, rfl⟩
  have hmem : w ∈ (s'.body.subst ground).leaves :=
    hb.leaves (Ty.mem_leaves_subst.mpr ⟨v, hv.1, by rwa [hf v hv.2]⟩)
  obtain ⟨q, hq, hwq⟩ := Ty.mem_leaves_subst.mp hmem
  by_cases hqs : q ∈ s'.vars
  · rw [show ground q = .unit from if_pos hqs] at hwq
    simp at hwq
  · rw [show ground q = .var q from if_neg hqs, Ty.leaves_var, List.mem_singleton] at hwq
    exact hwq ▸ ⟨hq, hqs⟩

end Covers
end Scheme

/-! ## Contexts -/

namespace Context.Covers

variable {Γ Δ : Context} {σ : Subst} {bs bs' : List (String × Scheme)}

/-- A closed context covers itself. -/
theorem closed (hΓ : Γ.Closed) (he : Γ.All fun s => s.body.Exact p)
    (hexact : ∀ v, (θ v).Exact p) : Γ.Covers p θ Γ := by
  intro x
  cases hx : Γ.get? x with
  | none => exact .none
  | some s => exact .some (.closed (hΓ x s hx) (he x s hx) hexact)

/-- What a name has in a derivation is covered. -/
theorem of_right (h : Γ.Covers p θ Δ) {x : String} (hx : Δ.get? x = some s') :
    ∃ s, Γ.get? x = some s ∧ s.Covers p θ s' := by
  have hr := h x
  rw [hx] at hr
  generalize hg : Γ.get? x = o at hr
  cases hr with
  | some hs => exact ⟨_, rfl, hs⟩

/-- What a name has in inference covers something. -/
theorem of_left (h : Γ.Covers p θ Δ) {x : String} (hx : Γ.get? x = some s) :
    ∃ s', Δ.get? x = some s' ∧ s.Covers p θ s' := by
  have hr := h x
  rw [hx] at hr
  generalize hg : Δ.get? x = o at hr
  cases hr with
  | some hs => exact ⟨_, rfl, hs⟩

/-- The names are the same. -/
theorem unbound (h : Γ.Covers p θ Δ) {x : String} (hx : Δ.get? x = none) : Γ.get? x = none := by
  have hr := h x
  rw [hx] at hr
  generalize hg : Γ.get? x = o at hr
  cases hr
  rfl

theorem congr (h : Γ.Covers p θ Δ) (hexact : ∀ v, (θ' v).Exact p)
    (hθ : ∀ v, Γ.Free v → θ' v = θ v) : Γ.Covers p θ' Δ := by
  intro x
  have hx := h x
  cases hg : Γ.get? x with
  | none =>
    rw [hg] at hx
    cases hd : Δ.get? x with
    | none => exact .none
    | some s' =>
      rw [hd] at hx
      cases hx
  | some s =>
    obtain ⟨s', hd, hs⟩ := h.of_left hg
    rw [hd]
    exact .some (hs.congr hexact fun v hv => hθ v ⟨x, s, hg, hv⟩)

theorem insert (h : Γ.Covers p θ Δ) (hs : s.Covers p θ s') (x : String) :
    Context.Covers p θ (Γ.insert x s) (Δ.insert x s') := by
  intro y
  rw [FinMap.get?_insert, FinMap.get?_insert]
  by_cases hy : y = x
  · rw [if_pos hy, if_pos hy]
    exact .some hs
  · rw [if_neg hy, if_neg hy]
    exact h y

theorem bindName (h : Γ.Covers p θ Δ) (hs : s.Covers p θ s') (n : Option Name) :
    Context.Covers p θ (Infer.bindName Γ n s) (Infer.bindName Δ n s') := by
  cases n with
  | none => exact h
  | some n => exact h.insert hs n.text

theorem extend (h : Γ.Covers p θ Δ)
    (hbs : List.Forall₂ (fun b b' => b.1 = b'.1 ∧ b.2.Covers p θ b'.2) bs bs') :
    (Γ.extend bs).Covers p θ (Δ.extend bs') := by
  induction hbs generalizing Γ Δ with
  | nil => exact h
  | @cons b b' bs bs' hb _ ih =>
    obtain ⟨x, s⟩ := b
    obtain ⟨y, s'⟩ := b'
    obtain ⟨rfl, hs⟩ := hb
    exact ih (h.insert hs x)

/-- What is free for inference has only types over what is free in the
derivation. -/
theorem free (h : Γ.Covers p θ Δ) (hσ : σ.Idempotent) (hθ : σ.BlurredBy p θ) (hv : v ∈ Γ.free σ)
    (hw : w ∈ (θ v).leaves) : Δ.Free w := by
  obtain ⟨x, s, b, hx, hb, hvb, -⟩ := (Context.free_resolved hσ).mp (Context.mem_free_iff.mp hv)
  obtain ⟨s', hx', hs⟩ := h.of_left hx
  have hwb : w ∈ (θ b).leaves := (hθ (.var b)).leaves (Ty.mem_leaves_subst.mpr ⟨v, hvb, hw⟩)
  exact ⟨x, s', hx', hs.free hb hwb⟩

end Context.Covers

/-- Generalization is as general as it can be: the variables that it leaves
out belong to the derivation's context, whatever they are there. -/
theorem covers_generalize {Γ Δ : Context} {c c' : Checker} (h : Γ.Covers p θ Δ)
    (hc : c.subst.Idempotent) (hexact : ∀ v, (θ v).Exact p) (hθ : c.subst.BlurredBy p θ)
    (hrun : Runs (Infer.generalize Γ t) c s c') (ht : Blurs p (t.subst θ) u) (hu : u.Exact p)
    (hgen : Generalizes Δ u s') : s.Covers p θ s' := by
  obtain ⟨-, hbody, hvars⟩ := Infer.runs_generalize hrun
  have hblur : Blurs p (s.body.subst θ) u := hbody ▸ (hθ t).trans ht
  refine ⟨hgen.body ▸ hu, ?_⟩
  rintro _ hinst ⟨f, hf, rfl⟩
  rw [hgen.body] at hinst ⊢
  refine ⟨fun v => if v ∈ s.vars then (θ v).subst f else θ v, fun v hv => if_neg hv, fun v => ?_, ?_⟩
  · show (if v ∈ s.vars then (θ v).subst f else θ v).Exact p
    split
    next hv =>
      refine (hexact v).subst fun w hw => hinst.leaf (hblur.leaves ?_)
      exact Ty.mem_leaves_subst.mpr ⟨v, hbody ▸ ((hvars v).mp hv).1, hw⟩
    next => exact hexact v
  · have hmap : s.body.subst (fun v => if v ∈ s.vars then (θ v).subst f else θ v) =
        (s.body.subst θ).subst f := by
      rw [Ty.subst_subst]
      refine Ty.subst_congr fun v hv => ?_
      by_cases hvs : v ∈ s.vars
      · exact if_pos hvs
      · have hfree : v ∈ Γ.free c.subst := by
          by_contra hn
          exact hvs ((hvars v).mpr ⟨hbody ▸ hv, hn⟩)
        -- the derivation cannot choose for what is free in its context
        have hfix : (θ v).subst f = θ v := Ty.subst_eq_self fun w hw =>
          hf w fun hws => ((hgen.vars w).mp hws).2 (h.free hc hθ hfree hw)
        exact (if_neg hvs).trans hfix.symm
    rw [hmap]
    exact hblur.subst fun _ _ => .refl _

end MiniML
