import MiniML.Proofs.Typing.Resolve

/-!
# Quantified variables stay quantified

A scheme in a context is the type of a value that was inferred before, and
some variables of that type are quantified while others still belong to the
enclosing function. The latter may be bound later, but never to a type with
one of the former in it: inference that goes on has no way to get at a
quantified variable. This is what `Tracked A Γ c` adds to a scope: the set
`A` of variables that later steps may touch has none that a scheme with free
variables quantifies.

A part of a tree that is done yields its set, or less, to the parts behind it
(`Yields`). It becomes less where a type is generalized
(`Yields.generalize`), because a variable that is not live in the context at
that point is not to be seen anywhere outside the value. So what is then
generalized is so in the final context too (`generalizes_resolved`).
-/
namespace MiniML

/-- What later steps in `A` make of a scheme is as its quantifiers say. -/
structure Scheme.Tracked (A : TyVar → Prop) (c : Checker) (s : Scheme) : Prop where
  seen : s.Seen A c
  apart : ∀ v, s.Free v → ∀ q ∈ s.vars, ¬ A q
  errorFree : s.body.errorFree = true

/-- What a run in a context needs to be sound: it may touch `A`, and there
are no errors so far. -/
structure Tracked (A : TyVar → Prop) (Γ : Context) (c : Checker) : Prop where
  sane : c.Sane
  errorFree : c.subst.ErrorFree
  supply : ∀ v, c.next ≤ v → A v
  table : c.builtins = Builtins.context
  context : Γ.All (Scheme.Tracked A c)

/-- A run from `c` to `c'` in `A` leaves `B` to later steps, and in it all
that could be seen before. -/
structure Yields (A B : TyVar → Prop) (c c' : Checker) : Prop where
  sub : ∀ v, B v → A v
  supply : ∀ v, c'.next ≤ v → B v
  visible : ∀ t, Seen A c t → Seen B c' t
  reach : Reach A c c'

namespace Builtins

theorem mem_table {x : String} {s : Scheme} (h : context.get? x = some s) : (x, s) ∈ table := by
  rw [context, FinMap.ofList, FinMap.get?_insertMany, FinMap.get?_empty, Option.or_none] at h
  exact List.mem_reverse.mp (FinMap.look_eq_some h)

theorem context_closed : context.Closed := by
  have h : ∀ b ∈ table, ∀ v ∈ b.2.body.leaves, v ∈ b.2.vars := by decide
  exact fun x s hx v hv => hv.2 (h _ (mem_table hx) v hv.1)

theorem context_errorFree : context.ErrorFree := by
  have h : ∀ b ∈ table, b.2.body.errorFree = true := by decide
  exact fun x s hx => h _ (mem_table hx)

end Builtins

variable {A B C : TyVar → Prop} {Γ Δ : Context} {c c' d f : Checker} {t : Ty} {s : Scheme}

theorem Scheme.tracked_mono (hs : c.Sane) (ht : MiniML.Seen A c t) (he : t.errorFree = true) :
    (Scheme.mono t).Tracked A c :=
  ⟨Scheme.seen_mono hs ht, by simp [Scheme.mono], he⟩

/-- A closed scheme has nothing to track. -/
theorem Scheme.Closed.tracked (hs : s.Closed) (he : s.body.errorFree = true) : s.Tracked A c :=
  ⟨fun v hv => absurd hv (hs v), fun v hv => absurd hv (hs v), he⟩

namespace Yields

theorem of_reach (hs : c.Sane) (hsupply : ∀ v, c.next ≤ v → A v) (r : Reach A c c') :
    Yields A A c c' :=
  ⟨fun _ h => h, fun v hv => hsupply v (Nat.le_trans r.next_le hv), fun _ ht => r.seen hs ht, r⟩

theorem trans (h : Yields A B c d) (h' : Yields B C d c') : Yields A C c c' :=
  ⟨fun v hv => h.sub v (h'.sub v hv), h'.supply, fun t ht => h'.visible t (h.visible t ht),
    h.reach.trans (h'.reach.mono h.sub)⟩

end Yields

theorem Scheme.Tracked.step (h : s.Tracked A c) (y : Yields A B c c') : s.Tracked B c' :=
  ⟨fun v hv => y.visible _ (h.seen v hv), fun v hv q hq hB => h.apart v hv q hq (y.sub q hB),
    h.errorFree⟩

namespace Tracked

theorem toScoped (h : Tracked A Γ c) : Scoped A Γ c :=
  ⟨h.sane, h.supply, h.table ▸ Builtins.context_closed, fun x s hx => (h.context x s hx).seen⟩

theorem step (h : Tracked A Γ c) (y : Yields A B c c') (he : c'.subst.ErrorFree) :
    Tracked B Γ c' where
  sane := y.reach.sane
  errorFree := he
  supply := y.supply
  table := y.reach.builtins.trans h.table
  context x s hx := (h.context x s hx).step y

theorem inside (h : Tracked A Γ c) (hΔ : Δ.All (Scheme.Tracked A c)) : Tracked A Δ c :=
  { h with context := hΔ }

end Tracked

/-! ## Instances -/

/-- Whatever a closed scheme's variables are replaced by is an instance. -/
theorem Scheme.Closed.instance_subst (hs : s.Closed) (g : TyVar → Ty) :
    s.Instance (s.body.subst g) := by
  refine ⟨fun v => if v ∈ s.vars then g v else .var v, fun v hv => if_neg hv, ?_⟩
  exact Ty.subst_congr fun v hv => (if_pos (by_contra fun hvs => hs v ⟨hv, hvs⟩)).symm

/-- An instance is one in the final context too: no free variable of the
scheme has come to mention a quantified one. -/
theorem instance_resolved (hs : s.Tracked A c) (hc : c.Sane) (h : Infer.Instantiated s c t c')
    (r : Reach A c f) : (f.subst.applyScheme s).Instance (f.subst.apply t) := by
  obtain ⟨-, g, hg, rfl⟩ := h
  have hi := r.sane.idem
  refine ⟨fun v => if v ∈ s.vars then f.subst.apply (g v) else .var v, fun v hv => if_neg hv, ?_⟩
  rw [Subst.applyScheme_body hi, Subst.apply_eq_subst hi, Ty.subst_subst, Ty.subst_subst]
  refine Ty.subst_congr fun v hv => ?_
  by_cases hvs : v ∈ s.vars
  · rw [if_pos hvs, ← Subst.apply_eq_subst hi]
    exact (if_pos hvs).symm
  · rw [if_neg hvs, hg.outside v hvs]
    refine (Ty.subst_eq_self fun w hw => if_neg fun hws => ?_).symm
    have hseen := r.seen hc (hs.seen v ⟨hv, hvs⟩)
    rw [Seen, Subst.apply_var hi] at hseen
    exact hs.apart v ⟨hv, hvs⟩ w hws (hseen w hw).1

/-! ## Generalization -/

/-- `w` is in what is known of a free variable of the context. -/
def Context.Live (Γ : Context) (c : Checker) (w : TyVar) : Prop :=
  ∃ x s v, Γ.get? x = some s ∧ s.Free v ∧ w ∈ (c.subst.apply (.var v)).leaves

/-- No quantifier catches a live variable. -/
theorem live_iff (hΓ : Γ.All (Scheme.Tracked A c)) (hc : c.Sane) {w : TyVar} :
    Γ.Live c w ↔ w ∈ Γ.free c.subst := by
  have huncaptured : Γ.Uncaptured c.subst :=
    Context.All.uncaptured (fun x s hx => (hΓ x s hx).seen) fun x s hx => (hΓ x s hx).apart
  exact (huncaptured.mem_free hc.idem).symm

/-- What is quantified once cannot be seen outside the value any more: `d` is
reached from `c` by inferring the value, of type `t`. -/
theorem Yields.generalize (h : Tracked A Γ c) (y : Yields A B c d) (he : d.subst.ErrorFree)
    (hstays : ∀ A', Scoped A' Γ c → Reach A' c d ∧ Seen A' d t)
    (hgen : Runs (Infer.generalize Γ t) d s d) :
    Yields A (fun v => B v ∧ v ∉ s.vars) c d := by
  obtain ⟨-, -, hvars⟩ := Infer.runs_generalize hgen
  have hscoped : Scoped (fun v => c.next ≤ v ∨ Γ.Live c v) Γ c :=
    ⟨h.sane, fun v hv => .inl hv, h.toScoped.builtins, fun x s hx v hv w hw =>
      ⟨.inr ⟨x, s, v, hx, hv, hw⟩, ((h.context x s hx).seen v hv w hw).2⟩⟩
  obtain ⟨r, hseen⟩ := hstays _ hscoped
  have hd := (h.step y he).context
  refine ⟨fun v hv => y.sub v hv.1, fun v hv => ⟨y.supply v hv, fun hvs => ?_⟩, fun u hu w hw => ?_,
    y.reach⟩
  · exact Nat.not_lt_of_ge hv (hseen v ((hvars v).mp hvs).1).2
  · obtain ⟨hB, hlt⟩ := y.visible u hu w hw
    refine ⟨⟨hB, fun hws => ?_⟩, hlt⟩
    obtain ⟨hwt, hwfree⟩ := (hvars w).mp hws
    rw [← live_iff hd y.reach.sane] at hwfree
    -- `w` stands in what has become of a variable `v` that was drawn before
    rw [← r.refines.apply r.sane.idem] at hw
    obtain ⟨v, hv, hw⟩ := (Subst.mem_leaves_apply r.sane.idem).mp hw
    by_cases hlive : c.next ≤ v ∨ Γ.Live c v
    · rcases hlive with hge | ⟨x, s', b, hx, hb, hvb⟩
      · exact Nat.not_lt_of_ge hge (hu v hv).2
      · refine hwfree ⟨x, s', b, hx, hb, ?_⟩
        rw [← r.refines.apply r.sane.idem]
        exact (Subst.mem_leaves_apply r.sane.idem).mpr ⟨v, hvb, hw⟩
    · rw [r.sane.apply_unbound (r.outside v hlive (h.sane.unbound hv)), Ty.leaves_var,
        List.mem_singleton] at hw
      exact hlive (hw ▸ (hseen w hwt).1)

/-- A scheme that was made by generalization is a generalization in the
final context too. -/
theorem generalizes_resolved (hc : c.Sane) (hΓ : Γ.All (Scheme.Tracked A c))
    (hgen : Runs (Infer.generalize Γ t) c s c) (hq : ∀ q ∈ s.vars, ¬ A q)
    (r : Reach A c f) :
    Generalizes (Γ.resolved f.subst) (f.subst.apply t) (f.subst.applyScheme s) := by
  obtain ⟨-, hbody, hvars⟩ := Infer.runs_generalize hgen
  have hi := r.sane.idem
  have hfix : ∀ q ∈ s.vars, f.subst.get? q = none := fun q hqs =>
    r.outside q (hq q hqs) (hc.unbound ((hvars q).mp hqs).1)
  have hseen : ∀ x s' v, Γ.get? x = some s' → s'.Free v → Seen A f (.var v) := fun x s' v hx hv =>
    r.seen hc ((hΓ x s' hx).seen v hv)
  refine ⟨?_, fun v => ?_⟩
  · rw [Subst.applyScheme_body hi, ← r.refines.apply hi, ← hbody, Subst.apply_eq_subst hi]
    refine Ty.subst_congr fun v _ => ?_
    split
    next hv => rw [Subst.image_of_none (hfix v hv)]
    next => rfl
  · rw [Subst.applyScheme_vars, Context.free_resolved hi, ← r.refines.apply hi,
      Subst.mem_leaves_apply hi]
    constructor
    · intro hv
      refine ⟨⟨v, ((hvars v).mp hv).1, by rw [r.sane.apply_unbound (hfix v hv)]; simp⟩, ?_⟩
      rintro ⟨x, s', b, hx, hb, hvb, -⟩
      exact hq v hv (hseen x s' b hx hb v hvb).1
    · rintro ⟨⟨w, hw, hvw⟩, hnot⟩
      by_contra hv
      have hws : w ∉ s.vars := by
        intro hws
        rw [r.sane.apply_unbound (hfix w hws), Ty.leaves_var, List.mem_singleton] at hvw
        exact hv (hvw ▸ hws)
      have hfree : w ∈ Γ.free c.subst := by
        by_contra hfree
        exact hws ((hvars w).mpr ⟨hw, hfree⟩)
      obtain ⟨x, s', b, hx, hb, hwb⟩ := (live_iff hΓ hc).mpr hfree
      have hvb : v ∈ (f.subst.apply (.var b)).leaves := by
        rw [← r.refines.apply hi]
        exact (Subst.mem_leaves_apply hi).mpr ⟨w, hwb, hvw⟩
      exact hnot ⟨x, s', b, hx, hb, hvb, fun hvs' =>
        (hΓ x s' hx).apart b hb v hvs' (hseen x s' b hx hb v hvb).1⟩

end MiniML
