import MiniML.Proofs.Typing.Tracked

/-!
# Runs without errors are derivations

`Sound A B Γ c es c'` says what is true of trees `es` that were inferred
without an error, from `c` to `c'`: at every later state `f` that is reached
in `B`, and so at the end, their slots as resolved there are derivations in
the context as resolved there. The induction over trees (`expr_sound`) goes
from part to part, each with the set that the one before it left.
-/
namespace MiniML

namespace Subst

variable {σ : Subst}

@[simp] theorem apply_prim (σ : Subst) (p : Prim) : σ.apply (.prim p) = .prim p := by
  unfold apply
  cases σ.size <;> rfl

theorem apply_tuple (hσ : σ.Idempotent) (ts : List Ty) :
    σ.apply (.tuple ts) = .tuple (ts.map σ.apply) := by
  simp only [apply_eq_subst hσ, Ty.subst_tuple, funext (apply_eq_subst hσ)]

end Subst

/-- What is equal stays equal. -/
theorem Reach.eq {B : TyVar → Prop} {c f : Checker} {t u : Ty} (r : Reach B c f)
    (h : c.subst.apply t = c.subst.apply u) : f.subst.apply t = f.subst.apply u := by
  rw [← r.refines.apply r.sane.idem, h, r.refines.apply r.sane.idem]

namespace Infer

variable {A B C : TyVar → Prop} {Γ : Context} {c c' d : Checker} {t u : Ty}

/-! ## Steps without errors -/

theorem Equated.quiet {ok : Bool} (h : Equated t u c ok c') (hq : c'.errors = c.errors)
    (hs : c.Sane) (he : c.subst.ErrorFree) (ht : t.errorFree = true) (hu : u.errorFree = true) :
    ok = true ∧ c'.subst.ErrorFree ∧ c'.subst.apply t = c'.subst.apply u := by
  cases h with
  | solved h =>
    have hi := (unify_grows hs.idem h).1
    have he' := unify_errorFree hs.idem h he ht hu
    exact ⟨rfl, he', (unify_agree hs.idem h).eq (Subst.errorFree_apply hi he' ht)
      (Subst.errorFree_apply hi he' hu)⟩
  | refused h hds =>
    rw [Checker.errors_noting] at hq
    change c.errors + _ = c.errors at hq
    omega

theorem Refused.errors_lt {r : Ty} (h : Refused c r c') : c.errors < c'.errors := by
  obtain ⟨-, ds, hds, rfl⟩ := h
  rw [Checker.errors_noting]
  omega

theorem Equated.idem {ok : Bool} (h : Equated t u c ok c') (hs : c.Sane) :
    c'.subst.Idempotent := by
  cases h with
  | solved h => exact (unify_grows hs.idem h).1
  | refused h _ => exact (unify_grows hs.idem h).1

theorem Equated.frame {ok : Bool} (h : Equated t u c ok c') : Frame c c' := by
  cases h with
  | solved h => exact .knowing _ _
  | refused h _ => exact (Frame.knowing _ _).trans (.noting _ _)

theorem Applied.frame {args : List Ty} {r : Ty} (h : Applied t args c r c') : Frame c c' := by
  obtain ⟨-, ok, heq, -⟩ := h
  exact (Frame.drew c.drew_succ).trans heq.frame

theorem checkDistinct_quiet {ps : List Pattern} {r : Unit} (h : Runs (checkDistinct ps) c r c')
    (hq : c'.errors = c.errors) : (ps.flatMap Pattern.names).Nodup ∧ c' = c := by
  rcases runs_checkDistinct h with h | ⟨-, ds, hds, rfl⟩
  · exact h
  · rw [Checker.errors_noting] at hq
    omega

theorem bindHead_frame {h : Option Hint} {v v' : Expr} {span : Span}
    (hrun : BindHead Γ h v span c v' c') : Frame c c' := by
  obtain ⟨c₁, hrun, ha⟩ := hrun
  exact ((framed_expr Γ v).frame hrun).trans ((framed_annotate _ _ _).frame ha)

theorem lamHead_frame {n : Option Name} {ps ps' : List Pattern} {h : Option Hint} {b b' : Expr}
    {span : Span} (hrun : LamHead Γ n ps h b span c ps' b' c') : Frame c c' := by
  obtain ⟨c₁, bs, c₂, c₃, ok, c₄, -, hd, hp, hrun, he, ha⟩ := hrun
  exact (Frame.drew c.drew_succ).trans (((framed_checkDistinct ps).frame hd).trans
    (((framed_patterns fun p _ => framed_pattern p).frame hp).trans
    (((framed_expr _ b).frame hrun).trans (he.frame.trans ((framed_annotate _ _ _).frame ha)))))

theorem Instantiated.errorFree {s : Scheme} (h : Instantiated s c t c')
    (hs : s.body.errorFree = true) : t.errorFree = true := by
  obtain ⟨-, f, hf, rfl⟩ := h
  refine Ty.errorFree_subst.mpr ⟨hs, fun v _ => ?_⟩
  by_cases hv : v ∈ s.vars
  · obtain ⟨w, hw, -⟩ := hf.inside v hv
    rw [hw, Ty.errorFree_var]
  · rw [hf.outside v hv, Ty.errorFree_var]

/-- A step that only draws variables keeps what is bound. -/
theorem errorFree_of_drew (h : c.Drew c') (he : c.subst.ErrorFree) : c'.subst.ErrorFree := by
  rw [h.rest]
  exact he

theorem Applied.quiet {args : List Ty} {r : Ty} (h : Applied t args c r c')
    (hq : c'.errors = c.errors) (hs : c.Sane) (he : c.subst.ErrorFree) (ht : t.errorFree = true)
    (hargs : ∀ u ∈ args, u.errorFree = true) :
    c'.subst.ErrorFree ∧ r.errorFree = true ∧ ∀ {A f}, Reach A c' f →
      f.subst.apply t = .curried (args.map f.subst.apply) (f.subst.apply r) := by
  obtain ⟨-, ok, heq, rfl⟩ := h
  have hs₁ := (Reach.drew (A := fun _ => True) c.drew_succ hs).sane
  have hi := heq.idem hs₁
  obtain ⟨rfl, he', heq⟩ := heq.quiet hq hs₁ he ht (Ty.errorFree_curried.mpr ⟨hargs, rfl⟩)
  refine ⟨he', Subst.errorFree_apply hi he' rfl, fun {A f} rf => ?_⟩
  have hr := rf.refines.apply rf.sane.idem (.var c.next)
  rw [rf.eq heq, Subst.apply_curried rf.sane.idem, settled, if_pos rfl, hr]

/-- The type of an operator is an instance of its scheme in the table. -/
theorem applyOperator_quiet {name symbol : String} {args : List Ty} {span : Span} {r : Ty}
    {x : Except TypeError Ty} (hx : Runs (applyOperator name symbol args span) c x d)
    (hr : Runs (settle x) d r c') (htable : c.builtins = Builtins.context) (hs : c.Sane)
    (he : c.subst.ErrorFree) (hq : c'.errors = c.errors) (hargs : ∀ u ∈ args, u.errorFree = true) :
    c'.subst.ErrorFree ∧ r.errorFree = true ∧
      ∀ {A f}, Reach A c' f → Operates name (args.map f.subst.apply) (f.subst.apply r) := by
  rcases runs_applyOperator hx hr with ⟨-, h⟩ | ⟨s, u, c₁, hget, hi, h⟩
  · have := h.errors_lt
    omega
  rw [htable] at hget
  have hs₁ := (Reach.drew (A := fun _ => True) hi.1 hs).sane
  rw [← hi.1.errors] at hq
  rcases h with ⟨-, h⟩ | ⟨-, h⟩
  · have := h.errors_lt
    omega
  obtain ⟨he', hr', heq⟩ := h.quiet hq hs₁ (errorFree_of_drew hi.1 he)
    (hi.errorFree (Builtins.context_errorFree name s hget)) hargs
  refine ⟨he', hr', fun {A f} rf => ⟨s, hget, ?_⟩⟩
  obtain ⟨-, g, -, rfl⟩ := hi
  have hf := rf.sane.idem
  rw [← heq rf, Subst.apply_eq_subst hf, Ty.subst_subst]
  exact (Builtins.context_closed name s hget).instance_subst _

theorem annotate_quiet {h : Option Hint} {span : Span} {r : Unit}
    (hrun : Runs (annotate h t span) c r c') (hs : c.Sane) (he : c.subst.ErrorFree)
    (hq : c'.errors = c.errors) (ht : t.errorFree = true) :
    c'.subst.ErrorFree ∧ ∀ {A f}, Reach A c' f → Annotated h (f.subst.apply t) := by
  cases h with
  | none =>
    obtain ⟨-, rfl⟩ := runs_pure.mp hrun
    exact ⟨he, fun _ => by simp [Annotated]⟩
  | some h =>
    obtain ⟨u, named, d, ok, hu, heq⟩ := runs_annotate hrun
    have hread := runs_hintType (Nat.le_refl _) (fun x t hx => by simp at hx) hu
    have hs₁ := (Reach.drew (A := fun _ => True) hread.drew hs).sane
    have hq₁ := hread.drew.errors
    obtain ⟨-, he', heq⟩ := heq.quiet (hq.trans hq₁.symm) hs₁ (errorFree_of_drew hread.drew he)
      (hread.types u (by simp)).2 ht
    refine ⟨he', fun {A f} rf g hg => ?_⟩
    cases hg
    refine ⟨fun x => ((named.get? x).getD .error).subst f.subst.image, ?_⟩
    have hmeans : Means f.subst.image named fun x =>
        ((named.get? x).getD .error).subst f.subst.image := fun x v hx => by
      simp only [hx, Option.getD_some]
    obtain ⟨_, hsing, hfit⟩ := fitItems_singleton.mp (hread.fits f.subst.image _ hmeans)
    rw [← rf.eq heq, Subst.apply_eq_subst rf.sane.idem, List.singleton_injective hsing]
    exact hfit

/-! ## Parts -/

/-- The trees `es` were inferred without an error from `c` to `c'`, and are
derivations in every state that is reached from there in `B`. -/
structure Sound (A B : TyVar → Prop) (Γ : Context) (c : Checker) (es : List Expr)
    (c' : Checker) : Prop where
  yields : Yields A B c c'
  errorFree : c'.subst.ErrorFree
  seen : ∀ e ∈ es, Seen B c' e.ty
  clean : ∀ e ∈ es, e.Clean
  typed : ∀ f, Reach B c' f → ∀ e ∈ es, Typed (Γ.resolved f.subst) (e.mapTypes f.subst.apply)

namespace Sound

variable {es es' : List Expr} {e : Expr}

theorem nil (h : Tracked A Γ c) : Sound A A Γ c [] c :=
  ⟨.of_reach h.sane h.supply (.refl h.sane), h.errorFree, by simp, by simp, by simp⟩

theorem append (h : Sound A B Γ c es d) (h' : Sound B C Γ d es' c') :
    Sound A C Γ c (es ++ es') c' where
  yields := h.yields.trans h'.yields
  errorFree := h'.errorFree
  seen e he := (List.mem_append.mp he).elim (fun he => h'.yields.visible _ (h.seen e he))
    (h'.seen e)
  clean e he := (List.mem_append.mp he).elim (h.clean e) (h'.clean e)
  typed f rf e he := (List.mem_append.mp he).elim
    (h.typed f (h'.yields.reach.trans (rf.mono h'.yields.sub)) e) (h'.typed f rf e)

/-- A step that types no tree. -/
theorem step (h : Sound A B Γ c es d) (r : Reach B d c') (he : c'.subst.ErrorFree) :
    Sound A B Γ c es c' := by
  have y : Yields B B d c' := .of_reach h.yields.reach.sane h.yields.supply r
  have := h.append (⟨y, he, by simp, by simp, by simp⟩ : Sound B B Γ d [] c')
  rwa [List.append_nil] at this

theorem tracked (h : Sound A B Γ c es d) (ht : Tracked A Γ c) : Tracked B Γ d :=
  ht.step h.yields h.errorFree

/-- A single tree. -/
theorem single (y : Yields A B c c') (he : c'.subst.ErrorFree) (hseen : Seen B c' e.ty)
    (hclean : e.Clean)
    (htyped : ∀ f, Reach B c' f → Typed (Γ.resolved f.subst) (e.mapTypes f.subst.apply)) :
    Sound A B Γ c [e] c' :=
  ⟨y, he, List.forall_mem_singleton.mpr hseen, List.forall_mem_singleton.mpr hclean,
    fun f rf => List.forall_mem_singleton.mpr (htyped f rf)⟩

/-- The parts of a tree, and what its rule says of them. -/
theorem node (h : Sound A B Γ c es c') (hseen : Seen B c' e.ty) (hclean : e.Clean)
    (htyped : ∀ f, Reach B c' f →
      (∀ a ∈ es, Typed (Γ.resolved f.subst) (a.mapTypes f.subst.apply)) →
      Typed (Γ.resolved f.subst) (e.mapTypes f.subst.apply)) :
    Sound A B Γ c [e] c' :=
  .single h.yields h.errorFree hseen hclean fun f rf => htyped f rf (h.typed f rf)

end Sound

/-- Every run on `e` without an error is a derivation. -/
def Derives (e : Expr) : Prop :=
  ∀ {A : TyVar → Prop} {Γ : Context} {c : Checker} {e' : Expr} {c' : Checker},
    Tracked A Γ c → Runs (expr Γ e) c e' c' → c'.errors = c.errors → ∃ B, Sound A B Γ c [e'] c'

theorem exprs_sound {es es' : List Expr} (h : ∀ e ∈ es, Derives e) (ht : Tracked A Γ c)
    (hrun : Runs (exprs Γ es) c es' c') (hq : c'.errors = c.errors) :
    ∃ B, Sound A B Γ c es' c' := by
  induction es generalizing A c es' with
  | nil =>
    obtain ⟨rfl, rfl⟩ := runs_pure.mp hrun
    exact ⟨A, .nil ht⟩
  | cons e es ih =>
    obtain ⟨a, c₁, as, ha, has, rfl⟩ := runs_exprs_cons hrun
    have hf := (framed_exprs (fun e _ Γ => framed_expr Γ e) Γ).frame has
    obtain ⟨hq₁, hq₂⟩ := ((framed_expr Γ e).frame ha).quiet hf hq
    obtain ⟨B, s₁⟩ := h e (by simp) ht ha hq₁
    obtain ⟨C, s₂⟩ := ih (fun d hd => h d (by simp [hd])) (s₁.tracked ht) has hq₂
    exact ⟨C, s₁.append s₂⟩

theorem optional_sound {o o' : Option Expr} (h : ∀ e ∈ o, Derives e) (ht : Tracked A Γ c)
    (hrun : Runs (optional Γ o) c o' c') (hq : c'.errors = c.errors) :
    ∃ B, Sound A B Γ c o'.toList c' := by
  cases o with
  | none =>
    obtain ⟨rfl, rfl⟩ := runs_pure.mp hrun
    exact ⟨A, .nil ht⟩
  | some e =>
    obtain ⟨a, ha, rfl⟩ := runs_optional_some hrun
    exact h e rfl ht ha hq

/-! ## Scopes -/

theorem PatternsRun.tracked {ps ps' : List Pattern} {bs : Bindings}
    (h : PatternsRun ps c ps' bs c') (ht : Tracked A Γ c) : ∀ b ∈ bs, b.2.Tracked A c' := by
  have r : Reach A c c' := .drew h.drew ht.sane
  intro b hb
  rw [h.bindings, List.mem_flatMap] at hb
  obtain ⟨p, hp, hb⟩ := hb
  obtain ⟨t, htp, hb⟩ := Pattern.mem_bindings hb
  rw [hb]
  exact Scheme.tracked_mono r.sane (.drew h.drew ht.sane ht.supply (h.between p hp t htp))
    (h.clean p hp t htp)

theorem typed_resolved {f : Checker} (hf : f.subst.Idempotent) {p : Pattern} (h : p.Typed) :
    (p.mapTypes f.subst.apply).Typed :=
  h.mapTypes (Subst.apply_prim _) (Subst.apply_tuple hf)

/-- Alternatives that were inferred without an error from `c` to `c'`. -/
structure ArmsSound (A B : TyVar → Prop) (Γ : Context) (c : Checker) (scrutinee result : Ty)
    (as : List Arm) (c' : Checker) : Prop where
  yields : Yields A B c c'
  errorFree : c'.subst.ErrorFree
  clean : ∀ a ∈ as, a.pattern.Clean ∧ a.body.Clean
  typed : ∀ f, Reach B c' f → ∀ a ∈ as,
    ArmOf (a.mapTypes f.subst.apply) (f.subst.apply scrutinee) (f.subst.apply result) ∧
      Typed ((Γ.resolved f.subst).extend (a.mapTypes f.subst.apply).pattern.bindings)
        (a.mapTypes f.subst.apply).body

theorem arms_sound {as as' : List Arm} {scrutinee result : Ty} {reachable : Bool}
    (h : ∀ a ∈ as, Derives a.body) (ht : Tracked A Γ c) (hs : scrutinee.errorFree = true)
    (hr : result.errorFree = true) (hsseen : Seen A c scrutinee) (hrseen : Seen A c result)
    (hrun : Runs (arms Γ scrutinee result reachable as) c as' c') (hq : c'.errors = c.errors) :
    ∃ B, ArmsSound A B Γ c scrutinee result as' c' := by
  induction as generalizing A c as' reachable with
  | nil =>
    obtain ⟨rfl, rfl⟩ := runs_pure.mp hrun
    exact ⟨A, .of_reach ht.sane ht.supply (.refl ht.sane), ht.errorFree, by simp, by simp⟩
  | cons a as ih =>
    obtain ⟨p, e, span⟩ := a
    obtain ⟨ds, c₁, p', bs, c₂, ok, c₃, b, c₄, ok', c₅, rest, hds, hd, hp, he, hb, he', hrest, rfl⟩ :=
      runs_arms_cons hrun
    have hpat := (runs_pattern hp).singleton
    have l₁ := (Frame.noting c ds).errors_le
    have l₂ := ((framed_checkDistinct [p]).frame hd).errors_le
    have l₃ := hpat.drew.errors
    have l₄ := he.frame.errors_le
    have l₅ := ((framed_expr _ e).frame hb).errors_le
    have l₆ := he'.frame.errors_le
    have l₇ := ((framed_arms (fun _ _ Γ => framed_expr Γ _) _ _ _ _).frame hrest).errors_le
    obtain ⟨hnd, rfl⟩ := checkDistinct_quiet hd (by omega)
    -- the pattern, in the scope of the whole
    have r₁ : Reach A c (c.noting ds) := .noting ht.sane ds
    have y₁ := Yields.of_reach ht.sane ht.supply r₁
    have ht₁ := ht.step y₁ ht.errorFree
    have e₂ : Reach A (c.noting ds) c₂ := .drew hpat.drew r₁.sane
    have r₂ := r₁.trans e₂
    have hpseen := (hpat.seen ht₁.toScoped).1 p' (by simp) _ p'.ty_mem_slots
    have hperr : p'.ty.errorFree = true := (hpat.clean p' (by simp)).ty
    have e₃ := he.reach r₂.sane (r₂.seen ht.sane hsseen) hpseen
    obtain ⟨-, he₃, heq⟩ := he.quiet (by omega) r₂.sane (errorFree_of_drew hpat.drew ht.errorFree)
      hs hperr
    have y₂ : Yields A A c₂ c₃ :=
      .of_reach r₂.sane (fun v hv => ht.supply v (Nat.le_trans r₂.next_le hv)) e₃
    have y₃ := Yields.of_reach ht.sane ht.supply (r₂.trans e₃)
    have ht₃ := ht.step y₃ he₃
    -- the body, in its own
    obtain ⟨B, s₄⟩ := h (.mk p e span) (by simp)
      (ht₃.inside (ht₃.context.extend fun b hb => (hpat.tracked ht₁ b hb).step y₂)) hb (by omega)
    have hbseen := s₄.seen b (by simp)
    have hberr := (s₄.clean b (by simp)).ty
    have e₅ := he'.reach s₄.yields.reach.sane (s₄.yields.visible _ (y₃.visible _ hrseen)) hbseen
    obtain ⟨-, he₅, heq'⟩ := he'.quiet (by omega) s₄.yields.reach.sane s₄.errorFree hr hberr
    have s₅ := s₄.step e₅ he₅
    have y₅ := y₃.trans s₅.yields
    -- the other alternatives, in what is left
    obtain ⟨C, s₆⟩ := ih (fun a ha => h a (by simp [ha])) (ht.step y₅ he₅) (y₅.visible _ hsseen)
      (y₅.visible _ hrseen) hrest (by omega)
    refine ⟨C, y₅.trans s₆.yields, s₆.errorFree, ?_, fun f rf => ?_⟩
    · rw [List.forall_mem_cons]
      exact ⟨⟨hpat.clean p' (by simp), s₅.clean b (by simp)⟩, s₆.clean⟩
    · have rf₅ : Reach B c₅ f := s₆.yields.reach.trans (rf.mono s₆.yields.sub)
      have rf₃ : Reach A c₃ f := s₅.yields.reach.trans (rf₅.mono s₅.yields.sub)
      rw [List.forall_mem_cons]
      refine ⟨⟨⟨?_, ?_, ?_, ?_⟩, ?_⟩, s₆.typed f rf⟩
      · exact typed_resolved rf.sane.idem (hpat.typed p' (by simp))
      · have hnames := hpat.names ▸ hnd
        simpa [Arm.mapTypes, Arm.pattern] using hnames
      · exact (Pattern.mapTypes_ty _ _).trans (rf₃.eq heq).symm
      · exact (Expr.mapTypes_ty _ _).trans (rf₅.eq heq').symm
      · have htyped := s₅.typed f rf₅ b (by simp)
        rw [hpat.bindings, Context.resolved_extend] at htyped
        simpa [Arm.mapTypes, Arm.pattern, Arm.body] using htyped

/-- The annotation of a value says nothing that is not true of its type. -/
theorem bindHead_sound {h : Option Hint} {v v' : Expr} {span : Span} (hv : Derives v)
    (ht : Tracked A Γ c) (hrun : BindHead Γ h v span c v' c') (hq : c'.errors = c.errors) :
    ∃ B, Sound A B Γ c [v'] c' ∧ ∀ {A f}, Reach A c' f → Annotated h (f.subst.apply v'.ty) := by
  obtain ⟨c₁, hrun, ha⟩ := hrun
  obtain ⟨hq₁, hq₂⟩ :=
    ((framed_expr Γ v).frame hrun).quiet ((framed_annotate _ _ _).frame ha) hq
  obtain ⟨B, s⟩ := hv ht hrun hq₁
  have r := annotate_reach ha (s.tracked ht).toScoped (s.seen v' (by simp))
  obtain ⟨he, hann⟩ := annotate_quiet ha s.yields.reach.sane s.errorFree hq₂
    (s.clean v' (by simp)).ty
  exact ⟨B, s.step r he, hann⟩

/-- What a function is once its body was inferred without an error. -/
structure LamSound (A B : TyVar → Prop) (Γ : Context) (c : Checker) (n : Option Name)
    (ps : List Pattern) (h : Option Hint) (b : Expr) (t : Ty) (c' : Checker) : Prop where
  yields : Yields A B c c'
  errorFree : c'.subst.ErrorFree
  seen : Seen B c' t
  params : ∀ p ∈ ps, p.Clean
  body : b.Clean
  type : t.errorFree = true
  typed : ∀ f, Reach B c' f → ∀ n' : Option Name, n'.map Name.text = n.map Name.text →
    (∀ x ∈ n', x.mark.ty = f.subst.apply t) →
    FunctionOf n' (ps.map (Pattern.mapTypes f.subst.apply)) h (b.mapTypes f.subst.apply)
        (f.subst.apply t) ∧
      Typed (insideFunction (Γ.resolved f.subst) n' (ps.map (Pattern.mapTypes f.subst.apply))
        (f.subst.apply t)) (b.mapTypes f.subst.apply)

theorem bindName_congr {n n' : Option Name} (h : n'.map Name.text = n.map Name.text)
    (Γ : Context) (s : Scheme) : bindName Γ n' s = bindName Γ n s := by
  cases n <;> cases n' <;> simp_all [bindName]

theorem lamHead_sound {n : Option Name} {ps ps' : List Pattern} {h : Option Hint} {b b' : Expr}
    {span : Span} (hb : Derives b) (ht : Tracked A Γ c)
    (hrun : LamHead Γ n ps h b span c ps' b' c') (hq : c'.errors = c.errors) :
    ∃ B, LamSound A B Γ c n ps' h b' (.curried (ps'.map Pattern.ty) b'.ty) c' := by
  obtain ⟨c₁, bs, c₂, c₃, ok, c₄, -, hd, hp, hrun, he, ha⟩ := hrun
  have hpat := runs_patterns (fun p _ => runs_pattern) hp
  have l₁ := c.drew_succ.errors
  have l₂ := ((framed_checkDistinct ps).frame hd).errors_le
  have l₃ := hpat.drew.errors
  have l₄ := ((framed_expr _ b).frame hrun).errors_le
  have l₅ := he.frame.errors_le
  have l₆ := ((framed_annotate _ _ _).frame ha).errors_le
  obtain ⟨hnd, rfl⟩ := checkDistinct_quiet hd (by omega)
  -- the function's own type, and its parameters
  obtain ⟨r₁, hself⟩ := ht.toScoped.fresh
  have ht₁ := ht.step (.of_reach ht.sane ht.supply r₁) ht.errorFree
  have e₂ : Reach A { c with next := c.next + 1 } c₂ := .drew hpat.drew r₁.sane
  have r₂ := r₁.trans e₂
  have y₂ := Yields.of_reach ht.sane ht.supply r₂
  have ht₂ := ht.step y₂ (errorFree_of_drew hpat.drew ht.errorFree)
  have hself₂ := e₂.seen r₁.sane hself
  have htys := (hpat.seen ht₁.toScoped).1
  -- the body, in their scope
  obtain ⟨B, s₃⟩ := hb (ht₂.inside ((ht₂.context.bindName
    (Scheme.tracked_mono r₂.sane hself₂ rfl)).extend (hpat.tracked ht₁))) hrun (by omega)
  have hs₃ := s₃.yields.reach.sane
  have hty : Seen B c₃ (.curried (ps'.map Pattern.ty) b'.ty) := by
    refine .curried hs₃ (fun t ht => s₃.yields.visible _ ?_) (s₃.seen b' (by simp))
    obtain ⟨p, hp, rfl⟩ := List.mem_map.mp ht
    exact htys p hp _ p.ty_mem_slots
  have hterr : (Ty.curried (ps'.map Pattern.ty) b'.ty).errorFree = true := by
    refine Ty.errorFree_curried.mpr ⟨fun t ht => ?_, (s₃.clean b' (by simp)).ty⟩
    obtain ⟨p, hp, rfl⟩ := List.mem_map.mp ht
    exact (hpat.clean p hp).ty
  have e₄ := he.reach hs₃ (s₃.yields.visible _ hself₂) hty
  obtain ⟨-, he₄, heq⟩ := he.quiet (by omega) hs₃ s₃.errorFree rfl hterr
  have s₄ := s₃.step e₄ he₄
  have hty₄ := e₄.seen hs₃ hty
  have hsc₄ := ((ht₂.step s₄.yields he₄)).toScoped
  have e₅ := annotate_reach ha hsc₄ hty₄
  obtain ⟨he₅, hann⟩ := annotate_quiet ha e₄.sane he₄ (by omega) hterr
  have s₅ := s₄.step e₅ he₅
  refine ⟨B, y₂.trans s₅.yields, he₅, e₅.seen e₄.sane hty₄, hpat.clean,
    s₅.clean b' (by simp), hterr, fun f rf n' hn hname => ⟨⟨?_, ?_, ?_, hname, hann rf⟩, ?_⟩⟩
  · intro p hp
    obtain ⟨q, hq, rfl⟩ := List.mem_map.mp hp
    exact typed_resolved rf.sane.idem (hpat.typed q hq)
  · simpa only [List.flatMap_map, Pattern.mapTypes_names, hpat.names] using hnd
  · rw [Subst.apply_curried rf.sane.idem, Expr.mapTypes_ty, List.map_map, List.map_map]
    congr 1
    exact List.map_congr_left fun p _ => (Pattern.mapTypes_ty _ p).symm
  · have htyped := s₅.typed f rf b' (by simp)
    rwa [hpat.bindings, Context.resolved_extend, Context.resolved_bindName,
      Subst.applyScheme_mono, (e₅.trans rf).eq heq, ← bindName_congr hn] at htyped

/-- What comes behind a value that was generalized. -/
theorem generalize_sound {s : Scheme} (ht : Tracked A Γ c) (y : Yields A B c d)
    (he : d.subst.ErrorFree) (hterr : t.errorFree = true)
    (hstays : ∀ A', Scoped A' Γ c → Reach A' c d ∧ Seen A' d t)
    (hgen : Runs (generalize Γ t) d s d) :
    ∃ B', (∀ v, B' v → B v) ∧ Yields A B' c d ∧ Tracked B' Γ d ∧ s.Tracked B' d ∧
      ∀ f, Reach B' d f →
        Generalizes (Γ.resolved f.subst) (f.subst.apply t) (f.subst.applyScheme s) := by
  have y' := Yields.generalize ht y he hstays hgen
  have ht' := ht.step y' he
  obtain ⟨-, hbody, hvars⟩ := runs_generalize hgen
  have hq : ∀ q ∈ s.vars, ¬ (B q ∧ q ∉ s.vars) := fun q hq hB => hB.2 hq
  refine ⟨_, fun v hv => hv.1, y', ht', ⟨fun v hv => ?_, fun _ _ => hq, ?_⟩, fun f rf =>
    generalizes_resolved ht'.sane ht'.context hgen hq rf⟩
  · -- a variable that is not quantified is live, and was seen before
    have hlive : v ∈ Γ.free d.subst := by
      by_contra hn
      exact hv.2 ((hvars v).mpr ⟨hbody ▸ hv.1, hn⟩)
    obtain ⟨x, s', b, hx, hb, hvb⟩ := (live_iff ht'.context ht'.sane).mpr hlive
    exact (Seen.iff_leaves ht'.sane).mp (((ht'.context x s' hx).seen b hb).apply ht'.sane) v hvb
  · rw [hbody]
    exact Subst.errorFree_apply ht'.sane.idem he hterr

/-! ## Trees -/

theorem elseTy_mapTypes {g : Ty → Ty} (hg : ∀ p, g (.prim p) = .prim p) (n : Option Expr) :
    elseTy (n.map (Expr.mapTypes g)) = g (elseTy n) := by
  cases n with
  | none => exact (hg _).symm
  | some e => exact Expr.mapTypes_ty g e

/-- The name of a function resolves with its type. -/
theorem lam_name {f : Checker} {n : Option Name} {t : Ty} (r : Reach B c' f) :
    (((n.map (Name.typed · (c'.subst.apply t))).map fun n =>
        n.typed (f.subst.apply n.mark.ty)).map Name.text = n.map Name.text) ∧
      ∀ x ∈ (n.map (Name.typed · (c'.subst.apply t))).map fun n =>
        n.typed (f.subst.apply n.mark.ty), x.mark.ty = f.subst.apply t := by
  cases n with
  | none => exact ⟨rfl, by simp⟩
  | some n => exact ⟨rfl, by simp [r.refines.apply r.sane.idem]⟩

theorem lam_name_errorFree {n : Option Name} (ht : t.errorFree = true) :
    ∀ x ∈ n.map (Name.typed · t), x.mark.ty.errorFree = true := by
  intro x hx
  obtain ⟨y, -, rfl⟩ := Option.map_eq_some_iff.mp hx
  exact ht

/-! Every rule leads from derivations of the parts to one of the whole. -/

theorem const_sound (l : Literal) (m : Mark) : Derives (.const l m) := by
  intro A Γ c e' c' ht hrun hq
  obtain ⟨rfl, rfl⟩ := runs_const hrun
  exact ⟨A, (Sound.nil ht).node (.prim _) (Expr.all_const.mpr rfl) fun f rf _ =>
    .const (Subst.apply_prim _ _)⟩

theorem ident_sound (n : Name) : Derives (.ident n) := by
  intro A Γ c e' c' ht hrun hq
  obtain ⟨t, rfl, ⟨-, h⟩ | ⟨s, hget, h⟩⟩ := runs_ident hrun
  · have := h.errors_lt
    omega
  · have hs := ht.context n.text s hget
    obtain ⟨r, hseen⟩ := h.reach ht.toScoped hs.seen
    have s' := (Sound.nil ht).step r (errorFree_of_drew h.1 ht.errorFree)
    refine ⟨A, s'.node hseen (Expr.all_ident.mpr (h.errorFree hs.errorFree)) fun f rf _ =>
      .ident ?_ (instance_resolved hs ht.sane h (r.trans rf))⟩
    rw [Context.get?_resolved]
    exact congrArg (Option.map _) hget

theorem tuple_sound {es : List Expr} {m : Mark} (ih : ∀ e ∈ es, Derives e) :
    Derives (.tuple es m) := by
  intro A Γ c e' c' ht hrun hq
  obtain ⟨es', hes, rfl⟩ := runs_tuple hrun
  obtain ⟨B, s⟩ := exprs_sound ih ht hes hq
  have hty : (Ty.tuple (es'.map Expr.ty)).errorFree = true :=
    Ty.errorFree_tuple.mpr (by simpa using fun e he => (s.clean e he).ty)
  refine ⟨B, s.node (.tuple s.yields.reach.sane (by simpa using s.seen))
    (Expr.all_tuple.mpr ⟨hty, s.clean⟩) fun f rf h => ?_⟩
  rw [Expr.mapTypes, Expr.mapTypesAll_eq]
  refine .tuple (by simpa using h) ?_
  simp [Subst.apply_tuple rf.sane.idem, Function.comp_def]

theorem unary_sound {op : UnaryOp} {e : Expr} {m : Mark} (ih : Derives e) :
    Derives (.unary op e m) := by
  intro A Γ c e' c' ht hrun hq
  obtain ⟨a, c₁, x, d, t, ha, hx, htt, rfl⟩ := runs_unary hrun
  have hf := ((framed_applyOperator _ _ _ _).frame hx).trans ((framed_settle _).frame htt)
  obtain ⟨hq₁, hq₂⟩ := ((framed_expr Γ e).frame ha).quiet hf hq
  obtain ⟨B, s⟩ := ih ht ha hq₁
  have ht₁ := s.tracked ht
  have hclean := s.clean a (by simp)
  obtain ⟨r, hseen⟩ := applyOperator_reach hx htt ht₁.toScoped (by simpa using s.seen)
  obtain ⟨he, hterr, hop⟩ := applyOperator_quiet hx htt ht₁.table ht₁.sane s.errorFree hq₂
    (by simpa using hclean.ty)
  refine ⟨B, (s.step r he).node hseen (Expr.all_unary.mpr ⟨hterr, hclean⟩) fun f rf h =>
    .unary (h a (by simp)) ?_⟩
  simpa using hop rf

theorem binary_sound {op : BinaryOp} {l r : Expr} {m : Mark} (hl : Derives l) (hr : Derives r) :
    Derives (.binary op l r m) := by
  intro A Γ c e' c' ht hrun hq
  obtain ⟨a, c₁, b, c₂, x, d, t, ha, hb, hx, htt, rfl⟩ := runs_binary hrun
  have hf := ((framed_applyOperator _ _ _ _).frame hx).trans ((framed_settle _).frame htt)
  have hfb := (framed_expr Γ r).frame hb
  obtain ⟨hq₁, hq₂⟩ := ((framed_expr Γ l).frame ha).quiet (hfb.trans hf) hq
  obtain ⟨hq₂, hq₃⟩ := hfb.quiet hf hq₂
  obtain ⟨B, s₁⟩ := hl ht ha hq₁
  obtain ⟨C, s₂⟩ := hr (s₁.tracked ht) hb hq₂
  have s := s₁.append s₂
  have ht₂ := s.tracked ht
  have hca := s.clean a (by simp)
  have hcb := s.clean b (by simp)
  obtain ⟨r, hseen⟩ := applyOperator_reach hx htt ht₂.toScoped (by simpa using s.seen)
  obtain ⟨he, hterr, hop⟩ := applyOperator_quiet hx htt ht₂.table ht₂.sane s.errorFree hq₃
    (by simpa using ⟨hca.ty, hcb.ty⟩)
  refine ⟨C, (s.step r he).node hseen (Expr.all_binary.mpr ⟨hterr, hca, hcb⟩) fun f rf h =>
    .binary (h a (by simp)) (h b (by simp)) ?_⟩
  simpa using hop rf

theorem app_sound {g : Expr} {es : List Expr} {m : Mark} (hg : Derives g)
    (ih : ∀ e ∈ es, Derives e) : Derives (.app g es m) := by
  intro A Γ c e' c' ht hrun hq
  obtain ⟨a, c₁, es', c₂, t, ha, hes, rfl, h⟩ := runs_app hrun
  have l₁ := ((framed_expr Γ g).frame ha).errors_le
  have l₂ := ((framed_exprs (fun e _ Γ => framed_expr Γ e) Γ).frame hes).errors_le
  rcases h with ⟨-, h⟩ | ⟨hnf, h⟩
  · have l₃ := h.errors_lt
    omega
  have l₃ := h.frame.errors_le
  obtain ⟨B, s₁⟩ := hg ht ha (by omega)
  obtain ⟨C, s₂⟩ := exprs_sound ih (s₁.tracked ht) hes (by omega)
  have s := s₁.append s₂
  have hca := s.clean a (by simp)
  obtain ⟨r, hseen⟩ := h.reach (s.tracked ht).toScoped (s.seen a (by simp))
    (by simpa using s₂.seen)
  obtain ⟨he, hterr, heq⟩ := h.quiet (by omega) s.yields.reach.sane s.errorFree hca.ty
    (by simpa using fun e he => (s₂.clean e he).ty)
  refine ⟨C, (s.step r he).node hseen (Expr.all_app.mpr ⟨hterr, hca, s₂.clean⟩)
    fun f rf h => ?_⟩
  rw [Expr.mapTypes, Expr.mapTypesAll_eq]
  refine .app (h a (by simp)) (by simpa using fun e he => h e (by simp [he])) ?_ fun _ => ?_
  · simpa [Function.comp_def] using heq rf
  · rw [neverFunction_mapTypes, hnf]

theorem cond_sound {e y : Expr} {n : Option Expr} {m : Mark} (he : Derives e) (hy : Derives y)
    (hn : ∀ e ∈ n, Derives e) : Derives (.cond e y n m) := by
  intro A Γ c e' c' ht hrun hq
  obtain ⟨a, c₁, ok, c₂, b, c₃, n', c₄, ok', ha, hc, hb, hn', hj, rfl⟩ := runs_cond hrun
  have l₁ := ((framed_expr Γ e).frame ha).errors_le
  have l₂ := hc.frame.errors_le
  have l₃ := ((framed_expr Γ y).frame hb).errors_le
  have l₄ := ((framed_optional (fun e _ Γ => framed_expr Γ e) Γ).frame hn').errors_le
  have l₅ := hj.frame.errors_le
  obtain ⟨B, s₁⟩ := he ht ha (by omega)
  have hs₁ := s₁.yields.reach.sane
  have hca := s₁.clean a (by simp)
  have e₂ := hc.reach hs₁ (.prim _) (s₁.seen a (by simp))
  obtain ⟨-, he₂, heq⟩ := hc.quiet (by omega) hs₁ s₁.errorFree rfl hca.ty
  have s₂ := s₁.step e₂ he₂
  obtain ⟨C, s₃⟩ := hy (s₂.tracked ht) hb (by omega)
  obtain ⟨D, s₄⟩ := optional_sound hn ((s₂.append s₃).tracked ht) hn' (by omega)
  have s₃₄ := s₃.append s₄
  have s := s₂.append s₃₄
  have hs := s.yields.reach.sane
  have hcb := s.clean b (by simp)
  have hbseen := s.seen b (by simp)
  have helse : Seen D c₄ (elseTy n') ∧ (elseTy n').errorFree = true := by
    cases n' with
    | none => exact ⟨.prim _, rfl⟩
    | some d => exact ⟨s.seen d (by simp), (s.clean d (by simp)).ty⟩
  have e₅ := hj.reach hs hbseen helse.1
  obtain ⟨rfl, he₅, heq'⟩ := hj.quiet (by omega) hs s.errorFree hcb.ty helse.2
  have hty : Seen D c' (c'.subst.apply b.ty) := (e₅.seen hs hbseen).apply e₅.sane
  have hterr : (c'.subst.apply b.ty).errorFree = true :=
    Subst.errorFree_apply e₅.sane.idem he₅ hcb.ty
  refine ⟨D, (s.step e₅ he₅).node hty (Expr.all_cond.mpr ⟨hterr, hca, hcb, fun d hd =>
    s₄.clean d (Option.mem_toList.mpr hd)⟩) fun f rf h => ?_⟩
  have hfix := rf.refines.apply rf.sane.idem b.ty
  have rf₂ : Reach B c₂ f := s₃₄.yields.reach.trans ((e₅.trans rf).mono s₃₄.yields.sub)
  rw [Expr.mapTypes, Expr.mapTypesOption_eq]
  refine .cond (h a (by simp)) ?_ (h b (by simp)) (fun d hd => ?_) ?_ ?_
  · rw [Expr.mapTypes_ty, ← rf₂.eq heq, Subst.apply_prim]
  · obtain ⟨d', hd', rfl⟩ := Option.map_eq_some_iff.mp hd
    exact h d' (by simp [Option.mem_toList.mpr hd'])
  · rw [Expr.mapTypes_ty]
    exact hfix.symm
  · rw [elseTy_mapTypes (Subst.apply_prim _), ← rf.eq heq']
    exact hfix.symm

theorem cases_sound {e : Expr} {as : List Arm} {m : Mark} (he : Derives e)
    (has : ∀ a ∈ as, Derives a.body) : Derives (.cases e as m) := by
  intro A Γ c e' c' ht hrun hq
  obtain ⟨a, c₁, as', ha, -, has', rfl⟩ := runs_cases hrun
  have l₁ := ((framed_expr Γ e).frame ha).errors_le
  have l₂ := c₁.drew_succ.errors
  have l₃ := ((framed_arms (fun _ _ Γ => framed_expr Γ _) _ _ _ _).frame has').errors_le
  obtain ⟨B, s₁⟩ := he ht ha (by omega)
  have ht₁ := s₁.tracked ht
  obtain ⟨e₂, hnew⟩ := ht₁.toScoped.fresh
  have s₂ := s₁.step e₂ s₁.errorFree
  have hca := s₂.clean a (by simp)
  obtain ⟨C, s₃⟩ := arms_sound has (s₂.tracked ht) hca.ty rfl (s₂.seen a (by simp)) hnew has'
    (by omega)
  have hs₃ := s₃.yields.reach.sane
  have s := s₂.append
    (⟨s₃.yields, s₃.errorFree, by simp, by simp, by simp⟩ : Sound B C Γ _ [] c')
  have hterr : (c'.subst.apply (.var c₁.next)).errorFree = true :=
    Subst.errorFree_apply hs₃.idem s₃.errorFree rfl
  refine ⟨C, s.node ((s₃.yields.visible _ hnew).apply hs₃)
    (Expr.all_cases.mpr ⟨hterr, hca, s₃.clean⟩) fun f rf h => ?_⟩
  have hfix := rf.refines.apply rf.sane.idem (.var c₁.next)
  rw [Expr.mapTypes, Expr.mapTypesArms_eq]
  refine .cases (h a (by simp)) (fun d hd => ?_) (fun d hd => ?_)
  · obtain ⟨d', hd', rfl⟩ := List.mem_map.mp hd
    rw [Expr.mapTypes_ty, Mark.typed_ty, Mark.typed_ty, hfix]
    exact (s₃.typed f rf d' hd').1
  · obtain ⟨d', hd', rfl⟩ := List.mem_map.mp hd
    exact (s₃.typed f rf d' hd').2

theorem declare_sound {n : Name} {h : Option Hint} {v : Expr} {m : Mark} (hv : Derives v) :
    Derives (.bind n h v none m) := by
  intro A Γ c e' c' ht hrun hq
  obtain ⟨v', hhead, rfl⟩ := runs_declare hrun
  obtain ⟨B, s, hann⟩ := bindHead_sound hv ht hhead hq
  have hs := s.yields.reach.sane
  have hcv := s.clean v' (by simp)
  have hterr := Subst.errorFree_apply hs.idem s.errorFree hcv.ty
  refine ⟨B, s.node ((s.seen v' (by simp)).apply hs)
    (Expr.all_bind.mpr ⟨hterr, hterr, hcv, by simp⟩) fun f rf h => ?_⟩
  have hfix := rf.refines.apply rf.sane.idem v'.ty
  have hty : (v'.mapTypes f.subst.apply).ty = f.subst.apply v'.ty := Expr.mapTypes_ty _ v'
  exact .declare (h v' (by simp)) (hfix.trans hty.symm) (hty ▸ hann rf) (hfix.trans hty.symm)

theorem let_sound {n : Name} {h : Option Hint} {v b : Expr} {m : Mark} (hv : Derives v)
    (hb : Derives b) : Derives (.bind n h v (some b) m) := by
  intro A Γ c e' c' ht hrun hq
  obtain ⟨v', c₁, s, b', hhead, hgen, hb', rfl⟩ := runs_let hrun
  have hfb := (framed_expr _ b).frame hb'
  obtain ⟨hq₁, hq₂⟩ := (bindHead_frame hhead).quiet hfb hq
  obtain ⟨B, s₁, hann⟩ := bindHead_sound hv ht hhead hq₁
  have hs₁ := s₁.yields.reach.sane
  have hcv := s₁.clean v' (by simp)
  have hterr := Subst.errorFree_apply hs₁.idem s₁.errorFree hcv.ty
  obtain ⟨B', hsub, y, ht', hs, hgen⟩ := generalize_sound ht s₁.yields s₁.errorFree hterr
    (fun A' hsc => by
      obtain ⟨r, hseen⟩ := bindHead_reach (fun {_ _ _ _ _} => expr_reach v) hsc hhead
      exact ⟨r, hseen.ty.apply r.sane⟩) hgen
  obtain ⟨C, s₂⟩ := hb (ht'.inside (ht'.context.insert hs)) hb' hq₂
  have hcb := s₂.clean b' (by simp)
  refine ⟨C, .single (y.trans s₂.yields) s₂.errorFree (s₂.seen b' (by simp))
    (Expr.all_bind.mpr ⟨hcb.ty, hterr, hcv, fun d hd => by cases hd; exact hcb⟩) fun f rf => ?_⟩
  have rf' : Reach B' c₁ f := s₂.yields.reach.trans (rf.mono s₂.yields.sub)
  have rf₁ := rf'.mono hsub
  have hfix := rf₁.refines.apply rf₁.sane.idem v'.ty
  have hty : (v'.mapTypes f.subst.apply).ty = f.subst.apply v'.ty := Expr.mapTypes_ty _ v'
  have htyped := s₂.typed f rf b' (by simp)
  rw [Context.resolved_insert] at htyped
  refine .bind (s₁.typed f rf₁ v' (by simp)) (hfix.trans hty.symm) (hty ▸ hann rf₁) ?_ htyped
    (Expr.mapTypes_ty _ b').symm
  rw [hty, ← hfix]
  exact hgen f rf'

theorem lam_sound {n : Option Name} {ps : List Pattern} {h : Option Hint} {b : Expr} {m : Mark}
    (hb : Derives b) : Derives (.lam n ps h b none m) := by
  intro A Γ c e' c' ht hrun hq
  obtain ⟨ps', b', t, hhead, rfl, rfl⟩ := runs_lam hrun
  obtain ⟨B, s⟩ := lamHead_sound hb ht hhead hq
  have hs := s.yields.reach.sane
  have hterr := Subst.errorFree_apply hs.idem s.errorFree s.type
  refine ⟨B, .single s.yields s.errorFree (s.seen.apply hs)
    (Expr.all_lam.mpr ⟨hterr, lam_name_errorFree hterr, s.params, s.body, by simp⟩)
    fun f rf => ?_⟩
  obtain ⟨hname, hty⟩ := lam_name rf
  obtain ⟨hfun, htyped⟩ := s.typed f rf _ hname hty
  have hfix := rf.refines.apply rf.sane.idem (.curried (ps'.map Pattern.ty) b'.ty)
  rw [← hfix] at hfun htyped
  rw [Expr.mapTypes, Pattern.mapTypesItems_eq]
  exact .lam hfun htyped

theorem fun_sound {n : Option Name} {ps : List Pattern} {h : Option Hint} {b r : Expr} {m : Mark}
    (hb : Derives b) (hr : Derives r) : Derives (.lam n ps h b (some r) m) := by
  intro A Γ c e' c' ht hrun hq
  obtain ⟨ps', b', t, c₁, s, r', hhead, rfl, hgen, hr', rfl⟩ := runs_fun hrun
  have hfr := (framed_expr _ r).frame hr'
  obtain ⟨hq₁, hq₂⟩ := (lamHead_frame hhead).quiet hfr hq
  obtain ⟨B, s₁⟩ := lamHead_sound hb ht hhead hq₁
  have hs₁ := s₁.yields.reach.sane
  have hterr := Subst.errorFree_apply hs₁.idem s₁.errorFree s₁.type
  obtain ⟨B', hsub, y, ht', hs, hgen⟩ := generalize_sound ht s₁.yields s₁.errorFree hterr
    (fun A' hsc => by
      obtain ⟨r, hseen, -⟩ := lamHead_reach (fun {_ _ _ _ _} => expr_reach b) hsc hhead
      exact ⟨r, hseen.apply r.sane⟩) hgen
  obtain ⟨C, s₂⟩ := hr (ht'.inside (ht'.context.bindName hs)) hr' hq₂
  have hcr := s₂.clean r' (by simp)
  refine ⟨C, .single (y.trans s₂.yields) s₂.errorFree (s₂.seen r' (by simp))
    (Expr.all_lam.mpr ⟨hcr.ty, lam_name_errorFree hterr, s₁.params, s₁.body,
      fun d hd => by cases hd; exact hcr⟩) fun f rf => ?_⟩
  have rf' : Reach B' c₁ f := s₂.yields.reach.trans (rf.mono s₂.yields.sub)
  have rf₁ := rf'.mono hsub
  obtain ⟨hname, hty⟩ := lam_name rf₁
  obtain ⟨hfun, htyped⟩ := s₁.typed f rf₁ _ hname hty
  have hrest := s₂.typed f rf r' (by simp)
  rw [Context.resolved_bindName, ← bindName_congr hname] at hrest
  rw [Expr.mapTypes, Pattern.mapTypesItems_eq]
  refine .bindFun hfun htyped ?_ hrest (Expr.mapTypes_ty _ r').symm
  rw [← rf₁.refines.apply rf₁.sane.idem (.curried (ps'.map Pattern.ty) b'.ty)]
  exact hgen f rf'

/-- A tree that was inferred without an error is a derivation. -/
theorem expr_sound (e : Expr) : Derives e := by
  induction e with
  | const l m => exact const_sound l m
  | ident n => exact ident_sound n
  | tuple es m ih => exact tuple_sound ih
  | unary op e m ih => exact unary_sound ih
  | binary op l r m hl hr => exact binary_sound hl hr
  | app g es m hg ih => exact app_sound hg ih
  | cond e y n m he hy hn => exact cond_sound he hy hn
  | cases e as m he has => exact cases_sound he has
  | bind n h v b m hv hb =>
    cases b with
    | none => exact declare_sound hv
    | some b => exact let_sound hv (hb b rfl)
  | lam n ps h b r m hb hr =>
    cases r with
    | none => exact lam_sound hb
    | some r => exact fun_sound hb (hr r rfl)

end Infer
end MiniML
