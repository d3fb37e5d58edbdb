import MiniML.Proofs.Tree.FreeNames
import MiniML.Proofs.Ty.Rename
import MiniML.Proofs.Typing.HasType
import MiniML.Proofs.Typing.Tracked

/-!
# Derivations in other contexts

The variables of a derivation may be given types, and the derivation may be
moved to a context that means at least as much by the free names of the tree
(`HasType.carry`). In the new context other variables may be free, and the new
types may mention variables that are quantified on the way, so what a `let`
quantifies has to be renamed: `Generalizes.carry` finds variables that are new
to both.

Results:
* `HasType.carry`: a type of a tree, with its variables replaced, is a type of
  the tree in every context that carries its free names.
* `HasType.weaken`: the types of a tree stay where names mean more.
* `HasType.congr`: only the free names of a tree matter for its types.
-/
namespace MiniML

variable {θ θ' : TyVar → Ty} {s s' : Scheme} {t : Ty} {Γ Δ : Context} {P Q : String → Prop}

/-! ## Schemes -/

namespace Scheme

/-- `s'` can be used wherever `s` can, if its free variables are replaced. -/
def Carries (θ : TyVar → Ty) (s s' : Scheme) : Prop := ∀ t, s.InstanceAt θ t → s'.Instance t

theorem InstanceAt.congr (h : s.InstanceAt θ t) (hθ : ∀ v, s.Free v → θ' v = θ v) :
    s.InstanceAt θ' t := by
  obtain ⟨f, hf, rfl⟩ := h
  refine ⟨fun v => if v ∈ s.vars then f v else θ' v, fun v hv => if_neg hv, ?_⟩
  refine Ty.subst_congr fun v hv => ?_
  by_cases hvs : v ∈ s.vars
  · exact (if_pos hvs).symm
  · rw [hf v hvs, ← hθ v ⟨hv, hvs⟩]
    exact (if_neg hvs).symm

/-- Instances become instances. -/
theorem Instance.subst (h : s.Instance t) (θ : TyVar → Ty) : s.InstanceAt θ (t.subst θ) := by
  obtain ⟨f, hf, rfl⟩ := h
  refine ⟨fun v => (f v).subst θ, fun v hv => ?_, Ty.subst_subst _ _ _⟩
  exact congrArg (Ty.subst θ) (hf v hv)

/-- A closed scheme has all instances of its instances. -/
theorem Closed.instance_of_instance (hs : s.Closed) (h : s.Instance t) (θ : TyVar → Ty) :
    s.Instance (t.subst θ) :=
  (h.subst θ).congr fun v hv => absurd hv (hs v)

namespace Carries

theorem congr (h : s.Carries θ s') (hθ : ∀ v, s.Free v → θ' v = θ v) : s.Carries θ' s' :=
  fun t ht => h t (ht.congr fun v hv => (hθ v hv).symm)

theorem refl (s : Scheme) : s.Carries .var s := fun _ h => h

theorem closed (hs : s.Closed) : s.Carries θ s :=
  (refl s).congr fun v hv => absurd hv (hs v)

theorem mono (t : Ty) : (Scheme.mono t).Carries θ (.mono (t.subst θ)) := by
  rintro _ ⟨f, hf, rfl⟩
  refine ⟨.var, fun _ _ => rfl, ?_⟩
  rw [Ty.subst_var]
  exact Ty.subst_congr fun v _ => hf v (by simp [Scheme.mono])

end Carries
end Scheme

/-! ## Contexts -/

namespace Context

/-- What `Γ` means by the names in `P`, `Δ` carries. -/
def Carries (θ : TyVar → Ty) (P : String → Prop) (Γ Δ : Context) : Prop :=
  ∀ x, P x → ∀ s, Γ.get? x = some s → ∃ s', Δ.get? x = some s' ∧ s.Carries θ s'

/-- Variables above a bound are not free in a context. -/
theorem exists_free_lt (Γ : Context) : ∃ n, ∀ v, Γ.Free v → v < n := by
  obtain ⟨n, hn⟩ := exists_above (Γ.values.flatMap (·.body.leaves))
  refine ⟨n, fun v ⟨x, s, hx, hv⟩ => hn v ?_⟩
  exact List.mem_flatMap.mpr ⟨s, FinMap.mem_values.mpr ⟨x, hx⟩, hv.1⟩

namespace Carries

theorem mono (h : Γ.Carries θ P Δ) (hQ : ∀ x, Q x → P x) : Γ.Carries θ Q Δ :=
  fun x hx => h x (hQ x hx)

theorem refl (Γ : Context) (P : String → Prop) : Γ.Carries .var P Γ :=
  fun _ _ s hs => ⟨s, hs, .refl s⟩

theorem congr (h : Γ.Carries θ P Δ) (hθ : ∀ v, Γ.Free v → θ' v = θ v) : Γ.Carries θ' P Δ := by
  intro x hx s hs
  obtain ⟨s', hs', hc⟩ := h x hx s hs
  exact ⟨s', hs', hc.congr fun v hv => hθ v ⟨x, s, hs, hv⟩⟩

/-- A closed context carries itself whatever becomes of variables. -/
theorem closed (hΓ : Γ.Closed) (θ : TyVar → Ty) (P : String → Prop) : Γ.Carries θ P Γ :=
  fun x _ s hs => ⟨s, hs, .closed (hΓ x s hs)⟩

theorem insert {x : String} (h : Γ.Carries θ (fun y => P y ∧ y ≠ x) Δ) (hs : s.Carries θ s') :
    Context.Carries θ P (Γ.insert x s) (Δ.insert x s') := by
  intro y hP u hu
  rw [FinMap.get?_insert] at hu ⊢
  by_cases hy : y = x
  · rw [if_pos hy] at hu ⊢
    cases hu
    exact ⟨s', rfl, hs⟩
  · rw [if_neg hy] at hu ⊢
    exact h y ⟨hP, hy⟩ u hu

theorem bindName {n : Option Name}
    (h : Γ.Carries θ (fun y => P y ∧ y ∉ n.toList.map Name.text) Δ) (hs : s.Carries θ s') :
    Context.Carries θ P (Infer.bindName Γ n s) (Infer.bindName Δ n s') := by
  cases n with
  | none => exact h.mono fun y hy => ⟨hy, by simp⟩
  | some n => exact insert (h.mono fun y hy => ⟨hy.1, by simpa using hy.2⟩) hs

theorem extend {bs bs' : List (String × Scheme)}
    (hbs : List.Forall₂ (fun b b' => b.1 = b'.1 ∧ b.2.Carries θ b'.2) bs bs')
    (h : Γ.Carries θ (fun y => P y ∧ y ∉ bs.map Prod.fst) Δ) :
    (Γ.extend bs).Carries θ P (Δ.extend bs') := by
  induction hbs generalizing Γ Δ with
  | nil => exact h.mono fun y hy => ⟨hy, by simp⟩
  | @cons b b' bs bs' hb _ ih =>
    obtain ⟨x, s⟩ := b
    obtain ⟨_, s'⟩ := b'
    obtain ⟨rfl, hs⟩ := hb
    refine ih (insert (h.mono fun y hy => ⟨hy.1.1, ?_⟩) hs)
    rw [List.map_cons, List.mem_cons, not_or]
    exact ⟨hy.2, hy.1.2⟩

/-- The names of patterns have one type each, and keep it. -/
theorem patterns {ps : List Pattern}
    (h : Γ.Carries θ (fun y => P y ∧ y ∉ ps.flatMap Pattern.names) Δ) :
    (Γ.extend (ps.flatMap Pattern.bindings)).Carries θ P
      (Δ.extend ((ps.map (Pattern.mapTypes (·.subst θ))).flatMap Pattern.bindings)) := by
  have hmap : (ps.map (Pattern.mapTypes (·.subst θ))).flatMap Pattern.bindings =
      (ps.flatMap Pattern.bindings).map fun b => (b.1, { b.2 with body := b.2.body.subst θ }) := by
    simp only [List.flatMap_map, List.map_flatMap, Pattern.mapTypes_bindings]
  rw [hmap]
  refine extend (List.forall₂_map_right_iff.mpr (List.forall₂_same.mpr fun b hb => ⟨rfl, ?_⟩))
    (h.mono fun y hy => ⟨hy.1, Pattern.flatMap_bindings_names ps ▸ hy.2⟩)
  obtain ⟨p, -, hb⟩ := List.mem_flatMap.mp hb
  obtain ⟨t, -, ht⟩ := Pattern.mem_bindings hb
  rw [ht]
  exact .mono t

end Carries
end Context

/-! ## Generalization -/

/-- A type can be generalized in every context. -/
theorem exists_generalizes (Γ : Context) (t : Ty) : ∃ s, Generalizes Γ t s := by
  classical
  exact ⟨⟨t.leaves.filter fun v => ¬ Γ.Free v, t⟩, rfl, by simp⟩

theorem Generalizes.closed (hgen : Generalizes Γ t s) (hΓ : Γ.Closed) : s.Closed := fun v hv =>
  hv.2 ((hgen.vars v).mpr ⟨hgen.body ▸ hv.1, fun ⟨x, u, hx, hu⟩ => hΓ x u hx v hu⟩)

/-- What is quantified is renamed apart from the new context and from the new
types; then it is quantified there too, and nothing is lost. -/
theorem Generalizes.carry (hgen : Generalizes Γ t s) (Δ : Context) (θ : TyVar → Ty) :
    ∃ θ' s', (∀ v, Γ.Free v → θ' v = θ v) ∧ Generalizes Δ (t.subst θ') s' ∧ s.Carries θ s' := by
  obtain ⟨n, hΔ⟩ := Δ.exists_free_lt
  obtain ⟨k, hθ⟩ := exists_above (t.leaves.flatMap fun v => (θ v).leaves)
  have hvar {v : TyVar} (hv : v ∈ t.leaves) {w : TyVar} (hw : w ∈ (θ v).leaves) : w < n + k :=
    Nat.lt_of_lt_of_le (hθ w (List.mem_flatMap.mpr ⟨v, hv, hw⟩)) (Nat.le_add_left k n)
  let θ' : TyVar → Ty := fun v => if v ∈ s.vars then .var (n + k + v) else θ v
  obtain ⟨s', hgen'⟩ := exists_generalizes Δ (t.subst θ')
  have hquantified (v : TyVar) (hv : v ∈ s.vars) : n + k + v ∈ s'.vars := by
    have hleaf := ((hgen.vars v).mp hv).1
    refine (hgen'.vars _).mpr ⟨Ty.mem_leaves_subst.mpr ⟨v, hleaf, ?_⟩, fun h => ?_⟩
    · rw [show θ' v = .var (n + k + v) from if_pos hv, Ty.leaves_var, List.mem_singleton]
    · exact Nat.not_lt_of_ge (Nat.le_add_right_of_le (Nat.le_add_right n k)) (hΔ _ h)
  refine ⟨θ', s', fun v hv => if_neg fun hvs => ((hgen.vars v).mp hvs).2 hv, hgen', ?_⟩
  -- an instance takes for a renamed variable what it took for the variable itself
  rintro _ ⟨f, hf, rfl⟩
  refine ⟨fun w => if n + k ≤ w ∧ w - (n + k) ∈ s.vars then f (w - (n + k)) else .var w, ?_, ?_⟩
  · refine fun w hw => if_neg fun ⟨hle, hv⟩ => hw ?_
    rw [← Nat.add_sub_of_le hle]
    exact hquantified _ hv
  · rw [hgen'.body, hgen.body, Ty.subst_subst]
    refine Ty.subst_congr fun v hv => ?_
    by_cases hvs : v ∈ s.vars
    · rw [show θ' v = .var (n + k + v) from if_pos hvs, Ty.subst, Nat.add_sub_cancel_left]
      exact (if_pos ⟨Nat.le_add_right _ _, hvs⟩).symm
    · rw [show θ' v = θ v from if_neg hvs, hf v hvs]
      refine (Ty.subst_eq_self fun w hw => if_neg fun h => ?_).symm
      exact Nat.not_lt_of_ge h.1 (hvar hv hw)

/-! ## Annotations and operators -/

theorem Hint.Fits.subst {names : String → Ty} {h : Hint} (hf : h.Fits names t) (θ : TyVar → Ty) :
    h.Fits (fun x => (names x).subst θ) (t.subst θ) := by
  induction h generalizing t with
  | prim p =>
    obtain rfl := hf
    rfl
  | var x =>
    obtain rfl := hf
    rfl
  | wildcard => trivial
  | fn a b ha hb =>
    obtain ⟨u, v, rfl, hu, hv⟩ := hf
    exact ⟨_, _, rfl, ha hu, hb hv⟩
  | tuple hs ih =>
    obtain ⟨ts, rfl, hts⟩ := hf
    refine ⟨_, Ty.subst_tuple _ _, ?_⟩
    induction hs generalizing ts with
    | nil =>
      obtain rfl := hts
      rfl
    | cons h hs ihs =>
      obtain ⟨u, us, rfl, hu, hus⟩ := hts
      exact ⟨_, _, rfl, ih h (by simp) hu, ihs (fun g hg => ih g (by simp [hg])) us hus⟩

theorem Annotated.subst {h : Option Hint} (ha : Annotated h t) (θ : TyVar → Ty) :
    Annotated h (t.subst θ) := by
  intro g hg
  obtain ⟨names, hf⟩ := ha g hg
  exact ⟨_, hf.subst θ⟩

theorem Operates.subst {name : String} {args : List Ty} (h : Operates name args t)
    (θ : TyVar → Ty) : Operates name (args.map (Ty.subst θ)) (t.subst θ) := by
  obtain ⟨s, hs, hi⟩ := h
  refine ⟨s, hs, ?_⟩
  rw [← Ty.subst_curried]
  exact (Builtins.context_closed name s hs).instance_of_instance hi θ

/-! ## Trees -/

namespace HasType

variable {T : Ty} {e : Expr}

-- the names of a node are those of its parts
attribute [local simp] Expr.freeNames Expr.mem_freeNamesAll Expr.mem_freeNamesOption
  Expr.mem_freeNamesArms Expr.mem_removeAll boundNames

/-- What `HasType.carry` says of a tree. -/
def Carried (e : Expr) : Prop := ∀ ⦃θ : TyVar → Ty⦄ ⦃Γ Δ : Context⦄ ⦃T : Ty⦄, HasType Γ e T →
  Γ.Carries θ (· ∈ e.freeNames) Δ → HasType Δ e (T.subst θ)

theorem carry_all {es : List Expr} {ts : List Ty} (ih : ∀ e ∈ es, Carried e)
    (h : List.Forall₂ (HasType Γ) es ts) (hc : Γ.Carries θ (fun x => ∃ e ∈ es, x ∈ e.freeNames) Δ) :
    List.Forall₂ (HasType Δ) es (ts.map (Ty.subst θ)) := by
  induction h with
  | nil => exact .nil
  | @cons e t es ts he _ ihs =>
    refine .cons (ih e (by simp) he (hc.mono fun x hx => ⟨e, by simp, hx⟩)) ?_
    exact ihs (fun d hd => ih d (by simp [hd])) (hc.mono fun x => List.exists_mem_cons_of_exists)

theorem carry_arm {a : Arm} {S R : Ty} (ih : Carried a.body) (h : ArmHasType Γ S R a)
    (hc : Γ.Carries θ (fun x => x ∈ a.body.freeNames ∧ x ∉ a.pattern.names) Δ) :
    ArmHasType Δ (S.subst θ) (R.subst θ) a := by
  obtain ⟨hnd, q, hbq, hq, rfl, hb⟩ := h
  have hnames := Pattern.names_of_blank hbq
  have hin : (Γ.extend q.bindings).Carries θ (· ∈ a.body.freeNames)
      (Δ.extend (q.mapTypes (·.subst θ)).bindings) := by
    have hq : Γ.Carries θ (fun x => x ∈ a.body.freeNames ∧ x ∉ [q].flatMap Pattern.names) Δ :=
      hc.mono fun x hx => by simpa [hnames] using hx
    simpa using Context.Carries.patterns hq
  refine ⟨hnd, q.mapTypes (·.subst θ), ?_, hq.mapTypes (fun _ => rfl) (Ty.subst_tuple θ),
    Pattern.mapTypes_ty _ q, ih hb hin⟩
  exact (Pattern.mapTypes_mapTypes _ _ q).trans hbq

theorem carry_function {n : Option Name} {ps : List Pattern} {h : Option Hint} {b : Expr}
    (ih : Carried b) (hf : FunctionHasType Γ n ps h b t)
    (hc : Γ.Carries θ (fun x => x ∈ b.freeNames ∧ x ∉ boundNames n ps) Δ) :
    FunctionHasType Δ n ps h b (t.subst θ) := by
  obtain ⟨hnd, hann, qs, u, hbq, hq, rfl, hb⟩ := hf
  have hnames := Pattern.flatMap_names_of_blank hbq
  refine ⟨hnd, hann.subst θ, qs.map (Pattern.mapTypes (·.subst θ)), u.subst θ, ?_, ?_, ?_, ih hb ?_⟩
  · rw [← hbq, List.map_map]
    exact List.map_congr_left fun q _ => Pattern.mapTypes_mapTypes _ _ q
  · rintro _ hq'
    obtain ⟨q, hmem, rfl⟩ := List.mem_map.mp hq'
    exact (hq q hmem).mapTypes (fun _ => rfl) (Ty.subst_tuple θ)
  · rw [Ty.subst_curried, List.map_map, List.map_map]
    congr 1
    exact List.map_congr_left fun q _ => (Pattern.mapTypes_ty _ q).symm
  · refine .patterns (.bindName (hc.mono fun x hx => ?_) (.mono _))
    simp_all

/-- A type of a tree, with its variables replaced, is a type of the tree where
its free names can be used as before. -/
theorem carry (h : HasType Γ e T) (hc : Γ.Carries θ (· ∈ e.freeNames) Δ) :
    HasType Δ e (T.subst θ) := by
  suffices Carried e from this h hc
  clear h hc
  induction e with
  | const l m =>
    intro θ Γ Δ T h _
    rw [const] at h ⊢
    rw [h]
    rfl
  | ident n =>
    intro θ Γ Δ T h hc
    obtain ⟨s, hs, hi⟩ := ident.mp h
    obtain ⟨s', hs', hcarry⟩ := hc n.text (by simp) s hs
    exact ident.mpr ⟨s', hs', hcarry _ (hi.subst θ)⟩
  | tuple es m ih =>
    intro θ Γ Δ T h hc
    obtain ⟨ts, hes, rfl⟩ := tuple.mp h
    exact tuple.mpr ⟨_, carry_all ih hes (hc.mono (by simp)), Ty.subst_tuple θ ts⟩
  | unary op e m ih =>
    intro θ Γ Δ T h hc
    obtain ⟨S, he, hop⟩ := unary.mp h
    exact unary.mpr ⟨_, ih he (hc.mono (by simp)), hop.subst θ⟩
  | binary op l r m hl hr =>
    intro θ Γ Δ T h hc
    obtain ⟨S, U, hS, hU, hop⟩ := binary.mp h
    exact binary.mpr ⟨_, _, hl hS (hc.mono (by simp +contextual)),
      hr hU (hc.mono (by simp +contextual)), hop.subst θ⟩
  | app f es m hf ih =>
    intro θ Γ Δ T h hc
    obtain ⟨ts, hty, hes, hnil⟩ := app.mp h
    refine app.mpr ⟨_, ?_, carry_all ih hes (hc.mono fun x hx => by simp [hx]), hnil⟩
    rw [← Ty.subst_curried]
    exact hf hty (hc.mono (by simp +contextual))
  | cond t y n m ht hy hn =>
    intro θ Γ Δ T h hc
    obtain ⟨hbool, hyes, hno, hnone⟩ := cond.mp h
    refine cond.mpr ⟨ht hbool (hc.mono (by simp +contextual)),
      hy hyes (hc.mono (by simp +contextual)),
      fun e he => hn e he (hno e he) (hc.mono fun x hx => ?_), fun h => ?_⟩
    · simpa using .inr (.inr ⟨e, he, hx⟩)
    · rw [hnone h]
      rfl
  | cases e as m he has =>
    intro θ Γ Δ T h hc
    obtain ⟨S, hS, harms⟩ := cases.mp h
    refine cases.mpr ⟨_, he hS (hc.mono (by simp +contextual)), fun a ha => ?_⟩
    refine carry_arm (has a ha) (harms a ha) (hc.mono fun x hx => ?_)
    simpa using .inr ⟨a, ha, hx⟩
  | bind n h v b m hv hb =>
    intro θ Γ Δ T h hc
    cases b with
    | none =>
      obtain ⟨hT, hann⟩ := declare.mp h
      exact declare.mpr ⟨hv hT (hc.mono (by simp +contextual)), hann.subst θ⟩
    | some b =>
      obtain ⟨S, s, hS, hann, hgen, hbody⟩ := bind.mp h
      obtain ⟨θ', s', hθ, hgen', hs⟩ := hgen.carry Δ θ
      refine bind.mpr ⟨_, s', hv hS ((hc.mono (by simp +contextual)).congr hθ), hann.subst θ',
        hgen', hb b rfl hbody (.insert (hc.mono fun x hx => ?_) hs)⟩
      simp [hx]
  | lam n ps h b r m hb hr =>
    intro θ Γ Δ T h hc
    cases r with
    | none =>
      refine lam.mpr (carry_function hb (lam.mp h) (hc.mono fun x hx => ?_))
      simp_all
    | some r =>
      obtain ⟨t, s, hf, hgen, hrest⟩ := bindFun.mp h
      obtain ⟨θ', s', hθ, hgen', hs⟩ := hgen.carry Δ θ
      refine bindFun.mpr ⟨_, s', carry_function hb hf ((hc.mono fun x hx => ?_).congr hθ), hgen',
        hr r rfl hrest (.bindName (hc.mono fun x hx => ?_) hs)⟩
      · simp_all
      · simp_all

/-- In particular the types stay where names mean more. -/
theorem weaken (h : HasType Γ e T) (hc : Γ.Carries .var (· ∈ e.freeNames) Δ) : HasType Δ e T := by
  rw [← Ty.subst_var T]
  exact h.carry hc

/-- Only what the free names of a tree mean matters for its types. -/
theorem congr (h : ∀ x ∈ e.freeNames, Γ.get? x = Δ.get? x) : HasType Γ e T ↔ HasType Δ e T := by
  have hmove {Γ Δ : Context} (h : ∀ x ∈ e.freeNames, Γ.get? x = Δ.get? x) (ht : HasType Γ e T) :
      HasType Δ e T :=
    ht.weaken fun x hx s hs => ⟨s, (h x hx).symm.trans hs, .refl s⟩
  exact ⟨hmove h, hmove fun x hx => (h x hx).symm⟩

end HasType
end MiniML
