import MiniML.Proofs.Tree.FreeNames
import MiniML.Proofs.Typing.Program
import MiniML.Proofs.Typing.Soundness

/-!
# Only the free names of a tree matter

Inference looks names up, and it asks which variables are free in the context.
A closed scheme adds nothing to the second question, so a name that a tree
does not use may have any closed scheme or none. Two contexts that differ in
such names only are `Context.Alike`; local bindings are the same on both
sides, and shadow what differs.

Results:
* `Context.Alike.free`: alike contexts have the same free variables.
* `Infer.expr_alike`: inference is the same step in alike contexts.
* `Check.declaration_local`: so is checking, which binds the same scheme.
-/
namespace MiniML

/-! ## Alike contexts -/

namespace Context

/-- The names in `P` mean the same in both contexts, and what means something
else has closed schemes. -/
def Alike (P : String → Prop) (Γ Δ : Context) : Prop :=
  ∀ x, Γ.get? x = Δ.get? x ∨
    ¬ P x ∧ (∀ s, Γ.get? x = some s → s.Closed) ∧ ∀ s, Δ.get? x = some s → s.Closed

namespace Alike

variable {P Q : String → Prop} {Γ Δ : Context} {x : String} {s : Scheme}

/-- Closed contexts are alike where they agree. -/
theorem closed (hΓ : Γ.Closed) (hΔ : Δ.Closed) (h : ∀ x, P x → Γ.get? x = Δ.get? x) :
    Γ.Alike P Δ := fun x =>
  (Classical.em (P x)).imp (h x) fun hx => ⟨hx, hΓ x, hΔ x⟩

theorem symm (h : Γ.Alike P Δ) : Δ.Alike P Γ := fun x =>
  (h x).imp Eq.symm fun ⟨hx, hs, ht⟩ => ⟨hx, ht, hs⟩

theorem mono (h : Γ.Alike P Δ) (hQ : ∀ x, Q x → P x) : Γ.Alike Q Δ := fun x =>
  (h x).imp id fun ⟨hx, hs⟩ => ⟨fun hq => hx (hQ x hq), hs⟩

theorem get? (h : Γ.Alike P Δ) (hx : P x) : Γ.get? x = Δ.get? x :=
  (h x).resolve_right fun h => h.1 hx

theorem insert (h : Γ.Alike (fun y => P y ∧ y ≠ x) Δ) (s : Scheme) :
    Context.Alike P (Γ.insert x s) (Δ.insert x s) := by
  intro y
  rw [FinMap.get?_insert, FinMap.get?_insert]
  by_cases hy : y = x
  · exact .inl (by rw [if_pos hy, if_pos hy])
  · rw [if_neg hy, if_neg hy]
    exact (h y).imp id fun ⟨hP, hs⟩ => ⟨fun hPy => hP ⟨hPy, hy⟩, hs⟩

theorem bindName {n : Option Name} (h : Γ.Alike (fun y => P y ∧ y ∉ n.toList.map Name.text) Δ)
    (s : Scheme) : Context.Alike P (Infer.bindName Γ n s) (Infer.bindName Δ n s) := by
  cases n with
  | none => exact h.mono fun y hy => ⟨hy, by simp⟩
  | some n => exact insert (h.mono fun y hy => ⟨hy.1, by simpa using hy.2⟩) s

theorem extend {bs : List (String × Scheme)}
    (h : Γ.Alike (fun y => P y ∧ y ∉ bs.map Prod.fst) Δ) : (Γ.extend bs).Alike P (Δ.extend bs) := by
  induction bs generalizing Γ Δ with
  | nil => exact h.mono fun y hy => ⟨hy, by simp⟩
  | cons b bs ih =>
    refine ih (insert (h.mono fun y hy => ⟨hy.1.1, ?_⟩) b.2)
    rw [List.map_cons, List.mem_cons, not_or]
    exact ⟨hy.2, hy.1.2⟩

/-- Only names outside closed schemes bring in free variables. -/
theorem free (h : Γ.Alike P Δ) {v : TyVar} (hv : Γ.Free v) : Δ.Free v := by
  obtain ⟨x, s, hx, hs⟩ := hv
  rcases h x with heq | ⟨-, hclosed, -⟩
  · exact ⟨x, s, heq ▸ hx, hs⟩
  · exact absurd hs (hclosed s hx v)

theorem free_iff (h : Γ.Alike P Δ) {v : TyVar} : Γ.Free v ↔ Δ.Free v := ⟨h.free, h.symm.free⟩

theorem generalizes (h : Γ.Alike P Δ) {t : Ty} (hs : Generalizes Γ t s) : Generalizes Δ t s :=
  ⟨hs.body, fun v => by rw [hs.vars, h.free_iff]⟩

/-- No substitution changes what is closed. -/
theorem resolved (h : Γ.Alike P Δ) (σ : Subst) : (Γ.resolved σ).Alike P (Δ.resolved σ) := by
  have hstay {o : Option Scheme} (ho : ∀ s, o = some s → s.Closed) (s : Scheme)
      (hs : o.map σ.applyScheme = some s) : s.Closed := by
    obtain ⟨s', rfl, rfl⟩ := Option.map_eq_some_iff.mp hs
    rw [Subst.applyScheme_closed (ho s' rfl)]
    exact ho s' rfl
  intro x
  rw [get?_resolved, get?_resolved]
  exact (h x).imp (congrArg _) fun ⟨hx, hs, ht⟩ => ⟨hx, hstay hs, hstay ht⟩

/-- The free variables are listed alike. -/
theorem free_eq (h : Γ.Alike P Δ) (σ : Subst) : Γ.free σ = Δ.free σ := by
  have hmem (v : TyVar) : v ∈ Γ.free σ ↔ v ∈ Δ.free σ := by
    rw [mem_free_iff, mem_free_iff, (h.resolved σ).free_iff]
  refine List.Perm.eq_of_pairwise (fun a b _ _ hab hba => absurd hba (Nat.lt_asymm hab))
    (pairwise_ascending _) (pairwise_ascending _) ?_
  exact (List.perm_ext_iff_of_nodup (nodup_ascending _) (nodup_ascending _)).mpr hmem

end Alike
end Context

/-! ## Inference -/

/-- What follows a step matters only at the step's own result. -/
theorem bind_congr_runs {σ α β : Type} {x : EStateM Exhausted σ α} {f g : α → EStateM Exhausted σ β}
    (h : ∀ a c d, Runs x c a d → f a = g a) : x >>= f = x >>= g := by
  funext c
  show EStateM.bind x f c = EStateM.bind x g c
  unfold EStateM.bind
  cases hx : x c with
  | ok a d => exact congrFun (h a c d hx) d
  | error e d => rfl

namespace Infer

variable {Γ Δ : Context}

-- the names of a node are those of its parts
attribute [local simp] Expr.freeNames Expr.mem_freeNamesAll Expr.mem_freeNamesOption
  Expr.mem_freeNamesArms Expr.mem_removeAll boundNames

theorem generalize_alike {P : String → Prop} (h : Γ.Alike P Δ) (t : Ty) :
    generalize Γ t = generalize Δ t := by
  simp only [generalize, h.free_eq]

/-- The contexts of the body of an alternative are alike. -/
theorem PatternsRun.alike {P : String → Prop} {ps ps' : List Pattern} {bs : Bindings}
    {c c' : Checker} (hp : PatternsRun ps c ps' bs c')
    (h : Γ.Alike (fun y => P y ∧ y ∉ ps.flatMap Pattern.names) Δ) :
    (Γ.extend bs).Alike P (Δ.extend bs) := by
  have hnames : bs.map Prod.fst = ps.flatMap Pattern.names := by
    rw [hp.bindings, Pattern.flatMap_bindings_names, hp.names]
  exact .extend (h.mono fun y hy => ⟨hy.1, hnames ▸ hy.2⟩)

theorem exprs_alike {es : List Expr}
    (ih : ∀ e ∈ es, ∀ {Γ Δ : Context}, Γ.Alike (· ∈ e.freeNames) Δ → expr Γ e = expr Δ e)
    (h : Γ.Alike (fun x => ∃ e ∈ es, x ∈ e.freeNames) Δ) : exprs Γ es = exprs Δ es := by
  induction es with
  | nil => rfl
  | cons e es ihs =>
    rw [exprs, exprs, ih e (by simp) (h.mono fun x hx => ⟨e, by simp, hx⟩),
      ihs (fun d hd => ih d (by simp [hd])) (h.mono fun x => List.exists_mem_cons_of_exists)]

theorem optional_alike {o : Option Expr}
    (ih : ∀ e ∈ o, ∀ {Γ Δ : Context}, Γ.Alike (· ∈ e.freeNames) Δ → expr Γ e = expr Δ e)
    (h : Γ.Alike (fun x => ∃ e ∈ o, x ∈ e.freeNames) Δ) : optional Γ o = optional Δ o := by
  cases o with
  | none => rfl
  | some e => rw [optional, optional, ih e rfl (h.mono fun x hx => ⟨e, rfl, hx⟩)]

theorem arms_alike {as : List Arm}
    (ih : ∀ a ∈ as, ∀ {Γ Δ : Context}, Γ.Alike (· ∈ a.body.freeNames) Δ →
      expr Γ a.body = expr Δ a.body)
    (h : Γ.Alike (fun x => ∃ a ∈ as, x ∈ a.body.freeNames ∧ x ∉ a.pattern.names) Δ) (s r : Ty)
    (reachable : Bool) : arms Γ s r reachable as = arms Δ s r reachable as := by
  induction as generalizing reachable with
  | nil => rfl
  | cons a as ihs =>
    obtain ⟨p, e, span⟩ := a
    have hrest (b : Bool) := ihs (fun b hb => ih b (by simp [hb]))
      (h.mono fun x => List.exists_mem_cons_of_exists) b
    rw [arms, arms]
    refine bind_congr fun _ => bind_congr fun _ => bind_congr_runs ?_
    rintro ⟨p', bs⟩ c d hp
    have hbody : expr (Γ.extend bs) e = expr (Δ.extend bs) e := by
      refine ih (.mk p e span) (by simp) ((runs_pattern hp).singleton.alike (h.mono fun x hx => ?_))
      exact ⟨.mk p e span, by simp, hx.1, by simpa [Arm.pattern] using hx.2⟩
    simp only [hbody, hrest]

/-- Inference of a tree is the same step in contexts that mean the same by its
free names, if what they do not share is closed. -/
theorem expr_alike (e : Expr) (h : Γ.Alike (· ∈ e.freeNames) Δ) : expr Γ e = expr Δ e := by
  induction e generalizing Γ Δ with
  | const l m => rfl
  | ident n => simp only [expr, lookup, h.get? (x := n.text) (by simp)]
  | tuple es m ih => rw [expr, expr, exprs_alike ih (h.mono (by simp))]
  | unary op e m ih => rw [expr, expr, ih (h.mono (by simp))]
  | binary op l r m hl hr =>
    rw [expr, expr, hl (h.mono (by simp +contextual)), hr (h.mono (by simp +contextual))]
  | app f es m hf ih =>
    rw [expr, expr, hf (h.mono (by simp +contextual)),
      exprs_alike ih (h.mono fun x hx => by simp [hx])]
  | cond t y n m ht hy hn =>
    rw [expr, expr, ht (h.mono (by simp +contextual)), hy (h.mono (by simp +contextual)),
      optional_alike hn (h.mono fun x hx => by simpa using .inr (.inr hx))]
  | cases e as m he has =>
    have harms := arms_alike has (h.mono fun x hx => by simp [hx])
    rw [expr, expr, he (h.mono (by simp +contextual))]
    simp only [harms]
  | bind n k v b m hv hb =>
    rw [expr, expr, hv (h.mono (by simp +contextual))]
    cases b with
    | none => rfl
    | some b =>
      have hbody (s : Scheme) : expr (Γ.insert n.text s) b = expr (Δ.insert n.text s) b :=
        hb b rfl (.insert (h.mono fun x hx => by simp [hx]) s)
      simp only [generalize_alike h, hbody]
  | lam n ps k b r m hb hr =>
    rw [expr, expr]
    refine bind_congr fun self => bind_congr fun _ => bind_congr_runs ?_
    rintro ⟨ps', bs⟩ c d hp
    have hp := runs_patterns (fun p _ => runs_pattern) hp
    have hbody : expr ((bindName Γ n (.mono self)).extend bs) b =
        expr ((bindName Δ n (.mono self)).extend bs) b :=
      hb (hp.alike (.bindName (h.mono fun x hx => by simp_all) _))
    have hrest (s : Scheme) (e : Expr) (he : r = some e) :
        expr (bindName Γ n s) e = expr (bindName Δ n s) e :=
      hr e he (.bindName (h.mono fun x hx => by simp_all) s)
    cases r with
    | none => simp only [hbody]
    | some r => simp only [hbody, generalize_alike h, hrest _ r rfl]

theorem declaration_alike {d : Expr} (h : Γ.Alike (· ∈ d.freeNames) Δ) :
    Infer.declaration Γ d = Infer.declaration Δ d := by
  simp only [Infer.declaration, expr_alike d h]

end Infer

/-! ## Declarations -/

namespace Check

open Infer (bindName)

variable {Γ Δ : Context} {c c' : Checker} {d d' : Expr} {passed : Bool} {s : Scheme}

theorem inferring_of_runs {α : Type} {step : Context → Infer α} {a : α}
    (h : Runs (step Γ) c a c') : Runs (inferring step) ⟨c, Γ⟩ a ⟨c', Γ⟩ := by
  unfold Runs inferring
  rw [h]

/-- Behind inference nothing is asked of the context but how it generalizes the
type that was found, so the checker ends in one state for all contexts that
generalize it alike. -/
theorem exists_runs_declaration (d d' : Expr) (passed : Bool) (s : Scheme) (c c' : Checker) :
    ∃ c'', ∀ Γ : Context, Runs (Infer.declaration Γ d) c (passed, d') c' →
      Runs (Infer.generalize Γ d'.ty) c' s c' →
      Runs (declaration d) ⟨c, Γ⟩ (passed, d')
        ⟨c'', bindName Γ d'.declared? (if passed then s else .mono .error)⟩ := by
  have hreport (name type : String) (span : Span) :
      ∃ c'', Runs (Infer.reportType name type span) c' () c'' := by
    simp only [Infer.reportType, runs_bind, runs_get]
    by_cases hc : c'.config.reportTypes
    · exact ⟨_, c', c', ⟨rfl, rfl⟩, by rw [if_pos hc]; exact Infer.runs_push.mpr rfl⟩
    · exact ⟨_, c', c', ⟨rfl, rfl⟩, by rw [if_neg hc]; exact runs_pure.mpr ⟨rfl, rfl⟩⟩
  simp only [Check.declaration, runs_bind]
  cases hn : d'.declared? with
  | none =>
    cases passed with
    | true =>
      obtain ⟨c'', hr⟩ := hreport "-" d'.ty.normalized d'.span
      refine ⟨c'', fun Γ hd _ => ⟨_, _, inferring_of_runs hd, ?_⟩⟩
      simp only [hn, if_true, runs_bind]
      exact ⟨_, _, inferring_of_runs hr, runs_pure.mpr ⟨rfl, rfl⟩⟩
    | false =>
      refine ⟨c', fun Γ hd _ => ⟨_, _, inferring_of_runs hd, ?_⟩⟩
      simp only [hn]
      exact runs_pure.mpr ⟨rfl, rfl⟩
  | some n =>
    cases passed with
    | true =>
      obtain ⟨c'', hr⟩ := hreport n.text s.text n.mark.span
      refine ⟨c'', fun Γ hd hs => ⟨_, _, inferring_of_runs hd, ?_⟩⟩
      simp only [hn, if_true, runs_bind]
      have hgen : Runs (inferring fun Γ => do
          let s ← Infer.generalize Γ d'.ty
          Infer.reportType n.text s.text n.mark.span
          return s) ⟨c', Γ⟩ s ⟨c'', Γ⟩ :=
        inferring_of_runs (runs_bind.mpr ⟨s, c', hs, runs_bind.mpr
          ⟨(), c'', hr, runs_pure.mpr ⟨rfl, rfl⟩⟩⟩)
      exact ⟨s, _, hgen, (), _, runs_modify.mpr rfl, runs_pure.mpr ⟨rfl, rfl⟩⟩
    | false =>
      refine ⟨c', fun Γ hd _ => ⟨_, _, inferring_of_runs hd, ?_⟩⟩
      simp only [hn, Bool.false_eq_true, if_false, runs_bind]
      exact ⟨(), _, runs_modify.mpr rfl, runs_pure.mpr ⟨rfl, rfl⟩⟩

theorem declaration_of_error {e : Exhausted} (h : Infer.declaration Γ d c = .error e c') :
    declaration d ⟨c, Γ⟩ = .error e ⟨c', Γ⟩ := by
  refine error_bind.mpr (.inl ?_)
  simp only [inferring, h]

/-- Only the free names of a declaration matter. In two closed contexts that
bind them identically, one checker comes to the same end: to the same verdict,
tree, diagnostics, substitution and supply, and to the same scheme for the
declared name, next to which each context keeps all its other bindings; or it
runs out of variables on both sides, where none is left to draw. The name of an operator is not among the
free names of its node, so a closed scheme under that name changes nothing. -/
theorem declaration_local (hΓ : Γ.Closed) (hΔ : Δ.Closed)
    (h : ∀ x ∈ d.freeNames, Γ.get? x = Δ.get? x) :
    ((∃ r c' s, declaration d ⟨c, Γ⟩ = .ok r ⟨c', bindName Γ d.declared? s⟩ ∧
        declaration d ⟨c, Δ⟩ = .ok r ⟨c', bindName Δ d.declared? s⟩) ∨
      ∃ c', declaration d ⟨c, Γ⟩ = .error .typeVariables ⟨c', Γ⟩ ∧
        declaration d ⟨c, Δ⟩ = .error .typeVariables ⟨c', Δ⟩ ∧ lastVar ≤ c'.next) ∧
    (∀ (op : UnaryOp) e m (s : Scheme), s.Closed → op.builtin ∉ e.freeNames →
      Infer.expr (Γ.insert op.builtin s) (.unary op e m) = Infer.expr Γ (.unary op e m)) ∧
    ∀ (op : BinaryOp) l r m (s : Scheme), s.Closed → op.symbol ∉ l.freeNames ++ r.freeNames →
      Infer.expr (Γ.insert op.symbol s) (.binary op l r m) = Infer.expr Γ (.binary op l r m) := by
  have halike : Γ.Alike (· ∈ d.freeNames) Δ := .closed hΓ hΔ h
  have hshadow {x : String} {s : Scheme} {e : Expr} (hs : s.Closed) (hx : x ∉ e.freeNames) :
      Infer.expr (Γ.insert x s) e = Infer.expr Γ e :=
    Infer.expr_alike e (.closed (hΓ.insert hs) hΓ fun y hy => by
      rw [FinMap.get?_insert, if_neg fun hxy : y = x => hx (hxy ▸ hy)])
  refine ⟨?_, fun op e m s hs hx => hshadow hs hx, fun op l r m s hs hx => hshadow hs hx⟩
  have hsame := Infer.declaration_alike halike
  cases hrun : Infer.declaration Γ d c with
  | error e c' =>
    cases e
    have hΓrun := declaration_of_error hrun
    exact .inr ⟨c', hΓrun, declaration_of_error (hsame ▸ hrun), (stops_declaration d).spent hΓrun⟩
  | ok r c' =>
    obtain ⟨passed, d'⟩ := r
    obtain ⟨c'', hboth⟩ := exists_runs_declaration d d' passed
      ⟨(c'.subst.apply d'.ty).free.filter (!(Γ.free c'.subst).contains ·), c'.subst.apply d'.ty⟩ c c'
    have hname (Γ : Context) (s : Scheme) : bindName Γ d'.declared? s = bindName Γ d.declared? s :=
      Infer.bindName_of_blank (Infer.declaration_blank hrun) Γ s
    simp only [hname] at hboth
    refine .inl ⟨_, c'', _, hboth Γ hrun rfl, hboth Δ (hsame ▸ hrun) ?_⟩
    rw [← Infer.generalize_alike halike]
    rfl

/-- `let g = fun x -> id x + 1`, once where only `id` is bound and once where
strings are bound to `g` and to the name of the operator as well. -/
theorem declaration_local_plus :
    let Γ : Context := .singleton "id" ⟨[3], .fn (.var 3) (.var 3)⟩
    let Δ : Context := (Γ.insert "+" (.mono (.prim .string))).insert "g" (.mono (.prim .string))
    let name (x : String) : Name := ⟨x, {}⟩
    let d : Expr := .bind (name "g") none
      (.lam none [.ident (name "x")] none
        (.binary .add (.app (.ident (name "id")) [.ident (name "x")] {}) (.const (.int 1) {}) {})
        none {})
      none {}
    Γ.Closed ∧ Δ.Closed ∧ (∀ x ∈ d.freeNames, Γ.get? x = Δ.get? x) ∧
      ∃ d' c' s, d'.ty = .fn (.prim .int) (.prim .int) ∧
        declaration d ⟨.root {}, Γ⟩ = .ok (true, d') ⟨c', Γ.insert "g" s⟩ ∧
        declaration d ⟨.root {}, Δ⟩ = .ok (true, d') ⟨c', Δ.insert "g" s⟩ := by
  intro Γ Δ name d
  have hstring : (Scheme.mono (.prim .string)).Closed := fun v hv => by
    simpa [Scheme.mono, Ty.leaves] using hv.1
  have hΓ : Γ.Closed := .singleton fun v hv => hv.2 (by simpa [Ty.leaves] using hv.1)
  have hΔ : Δ.Closed := (hΓ.insert hstring).insert hstring
  have hfree : ∀ x ∈ d.freeNames, Γ.get? x = Δ.get? x := by decide
  have htype : type? d ⟨.root {}, Γ⟩ = some (.fn (.prim .int) (.prim .int)) := by decide +kernel
  obtain ⟨d₁, w₁, hrun, hty⟩ := exists_of_type? htype
  refine ⟨hΓ, hΔ, hfree, ?_⟩
  rcases (declaration_local (c := .root {}) hΓ hΔ hfree).1 with
    ⟨r, c', s, h₁, h₂⟩ | ⟨c', h₁, -⟩
  · cases hrun.symm.trans h₁
    exact ⟨d₁, c', s, hty, h₁, h₂⟩
  · cases hrun.symm.trans h₁

end Check
end MiniML
