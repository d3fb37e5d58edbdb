import MiniML.Proofs.Typing.Sound

/-!
# The types of a tree

`HasType Γ e T` says that some derivation of the tree `e` ends in the type `T`.
A derivation is a tree of its own, which may differ from `e` in its slots. For
every form of expression one lemma says what its types are by those of the
parts, so that what is proved by induction on `e` has no slots in it.
-/
namespace MiniML

/-- A derivation of the tree gives it this type. -/
def HasType (Γ : Context) (e : Expr) (T : Ty) : Prop :=
  ∃ a : Expr, a.blank = e.blank ∧ Typed Γ a ∧ a.ty = T

/-- A function with this body has this type: so have its name in the body, and
its annotation. -/
def FunctionHasType (Γ : Context) (n : Option Name) (ps : List Pattern) (h : Option Hint) (b : Expr)
    (t : Ty) : Prop :=
  (ps.flatMap Pattern.names).Nodup ∧ Annotated h t ∧
    ∃ qs u, qs.map Pattern.blank = ps.map Pattern.blank ∧ (∀ q ∈ qs, q.Typed) ∧
      t = .curried (qs.map Pattern.ty) u ∧ HasType (insideFunction Γ n qs t) b u

/-- An alternative takes a scrutinee of type `S` to a result of type `R`. -/
def ArmHasType (Γ : Context) (S R : Ty) (a : Arm) : Prop :=
  a.pattern.names.Nodup ∧ ∃ q : Pattern, q.blank = a.pattern.blank ∧ q.Typed ∧ q.ty = S ∧
    HasType (Γ.extend q.bindings) a.body R

theorem Pattern.names_of_blank {p q : Pattern} (h : p.blank = q.blank) : p.names = q.names := by
  rw [← mapTypes_names (fun _ => .error) p, ← mapTypes_names (fun _ => .error) q]
  exact congrArg names h

theorem Pattern.flatMap_names_of_blank {ps qs : List Pattern}
    (h : ps.map Pattern.blank = qs.map Pattern.blank) :
    ps.flatMap Pattern.names = qs.flatMap Pattern.names := by
  have hnames (ps : List Pattern) : (ps.map Pattern.blank).flatMap Pattern.names =
      ps.flatMap Pattern.names := by
    rw [List.flatMap_map]
    exact List.flatMap_congr fun p _ => p.mapTypes_names _
  rw [← hnames ps, ← hnames qs, h]

namespace Infer

theorem neverFunction_of_blank {d e : Expr} (h : d.blank = e.blank) :
    neverFunction d = neverFunction e := by
  have hmap (e : Expr) : neverFunction e.blank = neverFunction e := by cases e <;> rfl
  rw [← hmap d, ← hmap e, h]

end Infer

namespace HasType

variable {Γ : Context} {T : Ty} {e f l r t v y : Expr} {n : Name} {h : Option Hint}
  {es : List Expr} {as : List Arm} {m : Mark}

theorem all_iff {ts : List Ty} : List.Forall₂ (HasType Γ) es ts ↔
    ∃ ds : List Expr, ds.map Expr.blank = es.map Expr.blank ∧ (∀ d ∈ ds, Typed Γ d) ∧
      ds.map Expr.ty = ts := by
  constructor
  · intro h
    induction h with
    | nil => exact ⟨[], rfl, by simp, rfl⟩
    | cons he _ ih =>
      obtain ⟨d, hb, ht, rfl⟩ := he
      obtain ⟨ds, hbs, hts, rfl⟩ := ih
      exact ⟨d :: ds, congrArg₂ List.cons hb hbs, List.forall_mem_cons.mpr ⟨ht, hts⟩, rfl⟩
  · rintro ⟨ds, hb, ht, rfl⟩
    induction ds generalizing es with
    | nil =>
      obtain rfl := List.map_eq_nil_iff.mp hb.symm
      exact .nil
    | cons d ds ih =>
      obtain ⟨e, es, rfl, hbe, hbs⟩ := List.map_eq_cons_iff.mp hb.symm
      obtain ⟨hd, hds⟩ := List.forall_mem_cons.mp ht
      exact .cons ⟨d, hbe.symm, hd, rfl⟩ (ih hbs.symm hds)

/-! ## Expressions without scopes -/

theorem const {l : Literal} : HasType Γ (.const l m) T ↔ T = .prim l.prim := by
  constructor
  · rintro ⟨a, hb, ht, rfl⟩
    cases ht with
    | const hm =>
      obtain ⟨rfl, -⟩ := Expr.const.inj hb
      exact hm
    | _ => cases hb
  · rintro rfl
    exact ⟨.const l (m.typed (.prim l.prim)), rfl, .const rfl, rfl⟩

theorem ident : HasType Γ (.ident n) T ↔ ∃ s, Γ.get? n.text = some s ∧ s.Instance T := by
  constructor
  · rintro ⟨a, hb, ht, rfl⟩
    cases ht with
    | ident hs hi =>
      have hn := congrArg Name.text (Expr.ident.inj hb)
      exact ⟨_, hn ▸ hs, hi⟩
    | _ => cases hb
  · rintro ⟨s, hs, hi⟩
    exact ⟨.ident (n.typed T), rfl, .ident hs hi, rfl⟩

theorem tuple :
    HasType Γ (.tuple es m) T ↔ ∃ ts, List.Forall₂ (HasType Γ) es ts ∧ T = .tuple ts := by
  constructor
  · rintro ⟨a, hb, ht, rfl⟩
    cases ht with
    | tuple hds hm =>
      obtain ⟨hbs, -⟩ := Expr.tuple.inj hb
      rw [Expr.mapTypesAll_eq, Expr.mapTypesAll_eq] at hbs
      exact ⟨_, all_iff.mpr ⟨_, hbs, hds, rfl⟩, hm⟩
    | _ => cases hb
  · rintro ⟨ts, hes, rfl⟩
    obtain ⟨ds, hbs, hds, rfl⟩ := all_iff.mp hes
    refine ⟨.tuple ds (m.typed (.tuple (ds.map Expr.ty))), ?_, .tuple hds rfl, rfl⟩
    simp only [Expr.blank, Expr.mapTypes, Expr.mapTypesAll_eq]
    exact congrArg (Expr.tuple · _) hbs

theorem unary {op : UnaryOp} :
    HasType Γ (.unary op e m) T ↔ ∃ S, HasType Γ e S ∧ Operates op.builtin [S] T := by
  constructor
  · rintro ⟨a, hb, ht, rfl⟩
    cases ht with
    | unary hd hop =>
      obtain ⟨rfl, hbe, -⟩ := Expr.unary.inj hb
      exact ⟨_, ⟨_, hbe, hd, rfl⟩, hop⟩
    | _ => cases hb
  · rintro ⟨_, ⟨d, hbe, hd, rfl⟩, hop⟩
    exact ⟨.unary op d (m.typed T), congrArg (Expr.unary op · _) hbe, .unary hd hop, rfl⟩

theorem binary {op : BinaryOp} :
    HasType Γ (.binary op l r m) T ↔
      ∃ S U, HasType Γ l S ∧ HasType Γ r U ∧ Operates op.symbol [S, U] T := by
  constructor
  · rintro ⟨a, hb, ht, rfl⟩
    cases ht with
    | binary hl hr hop =>
      obtain ⟨rfl, hbl, hbr, -⟩ := Expr.binary.inj hb
      exact ⟨_, _, ⟨_, hbl, hl, rfl⟩, ⟨_, hbr, hr, rfl⟩, hop⟩
    | _ => cases hb
  · rintro ⟨_, _, ⟨a, hba, ha, rfl⟩, ⟨b, hbb, hb, rfl⟩, hop⟩
    exact ⟨.binary op a b (m.typed T), congrArg₂ (Expr.binary op · · _) hba hbb,
      .binary ha hb hop, rfl⟩

theorem app :
    HasType Γ (.app f es m) T ↔ ∃ ts, HasType Γ f (.curried ts T) ∧
      List.Forall₂ (HasType Γ) es ts ∧ (es = [] → Infer.neverFunction f = false) := by
  constructor
  · rintro ⟨a, hb, ht, rfl⟩
    cases ht with
    | app hg hds hm hnil =>
      obtain ⟨hbf, hbs, -⟩ := Expr.app.inj hb
      rw [Expr.mapTypesAll_eq, Expr.mapTypesAll_eq] at hbs
      refine ⟨_, ⟨_, hbf, hg, hm⟩, all_iff.mpr ⟨_, hbs, hds, rfl⟩, fun hes => ?_⟩
      rw [← Infer.neverFunction_of_blank hbf]
      exact hnil (List.map_eq_nil_iff.mp (hbs.trans (by rw [hes]; rfl)))
    | _ => cases hb
  · rintro ⟨ts, ⟨g, hbf, hg, hty⟩, hes, hnil⟩
    obtain ⟨ds, hbs, hds, rfl⟩ := all_iff.mp hes
    refine ⟨.app g ds (m.typed T), ?_, .app hg hds hty fun h => ?_, rfl⟩
    · simp only [Expr.blank, Expr.mapTypes, Expr.mapTypesAll_eq]
      exact congrArg₂ (Expr.app · · _) hbf hbs
    · rw [Infer.neverFunction_of_blank hbf]
      exact hnil (List.map_eq_nil_iff.mp (hbs.symm.trans (by rw [h]; rfl)))

theorem cond {n : Option Expr} : HasType Γ (.cond t y n m) T ↔
    HasType Γ t (.prim .bool) ∧ HasType Γ y T ∧ (∀ e ∈ n, HasType Γ e T) ∧
      (n = none → T = .unit) := by
  constructor
  · rintro ⟨a, hb, ht, rfl⟩
    cases ht with
    | cond hd hbool hz hw hyes hno =>
      obtain ⟨hbt, hby, hbn, -⟩ := Expr.cond.inj hb
      rw [Expr.mapTypesOption_eq, Expr.mapTypesOption_eq] at hbn
      refine ⟨⟨_, hbt, hd, hbool⟩, ⟨_, hby, hz, hyes⟩, ?_, ?_⟩
      · rintro e rfl
        obtain ⟨w, rfl, hbw⟩ := Option.map_eq_some_iff.mp hbn
        exact ⟨w, hbw, hw w rfl, hno⟩
      · rintro rfl
        obtain rfl := Option.map_eq_none_iff.mp hbn
        exact hno.symm
    | _ => cases hb
  · rintro ⟨⟨d, hbt, hd, hbool⟩, ⟨z, hby, hz, hyes⟩, hw, hno⟩
    cases n with
    | none =>
      refine ⟨.cond d z none (m.typed T), congrArg₂ (Expr.cond · · none _) hbt hby,
        .cond hd hbool hz (by simp) hyes (hno rfl).symm, rfl⟩
    | some e =>
      obtain ⟨w, hbw, hw, hno⟩ := hw e rfl
      refine ⟨.cond d z (some w) (m.typed T), ?_, .cond hd hbool hz (by simpa using hw) hyes hno,
        rfl⟩
      show Expr.cond d.blank z.blank (some w.blank) _ = _
      rw [hbt, hby, hbw]
      rfl

/-! ## Scopes -/

theorem cases : HasType Γ (.cases e as m) T ↔
    ∃ S, HasType Γ e S ∧ ∀ a ∈ as, ArmHasType Γ S T a := by
  constructor
  · rintro ⟨a, hb, ht, rfl⟩
    cases ht with
    | @cases _ d bs m' hd harm hbody =>
      obtain ⟨hbe, hbs, -⟩ := Expr.cases.inj hb
      rw [Expr.mapTypesArms_eq, Expr.mapTypesArms_eq] at hbs
      refine ⟨_, ⟨_, hbe, hd, rfl⟩, fun a ha => ?_⟩
      obtain ⟨b, hmem, hba⟩ := List.mem_map.mp (hbs ▸ List.mem_map_of_mem ha)
      obtain ⟨hbp, hbb, -⟩ := Arm.mk.inj hba
      obtain ⟨hp, hnd, hS, hR⟩ := harm b hmem
      exact ⟨Pattern.names_of_blank hbp ▸ hnd, b.pattern, hbp, hp, hS,
        b.body, hbb, hbody b hmem, hR⟩
    | _ => cases hb
  · rintro ⟨_, ⟨d, hbe, hd, rfl⟩, has⟩
    obtain ⟨bs, hbs, harm, hbody⟩ : ∃ bs : List Arm,
        bs.map (Arm.mapTypes fun _ => .error) = as.map (Arm.mapTypes fun _ => .error) ∧
          (∀ b ∈ bs, ArmOf b d.ty T) ∧ ∀ b ∈ bs, Typed (Γ.extend b.pattern.bindings) b.body := by
      induction as with
      | nil => exact ⟨[], rfl, by simp, by simp⟩
      | cons a as ih =>
        obtain ⟨⟨hnd, q, hbq, hq, hS, b, hbb, hb, hR⟩, has⟩ := List.forall_mem_cons.mp has
        obtain ⟨bs, hbs, harm, hbody⟩ := ih has
        refine ⟨.mk q b a.span :: bs, congrArg₂ List.cons ?_ hbs,
          List.forall_mem_cons.mpr ⟨⟨hq, ?_, hS, hR⟩, harm⟩, List.forall_mem_cons.mpr ⟨hb, hbody⟩⟩
        · exact congrArg₂ (Arm.mk · · a.span) hbq hbb
        · exact Pattern.names_of_blank hbq ▸ hnd
    refine ⟨.cases d bs (m.typed T), ?_, .cases hd harm hbody, rfl⟩
    show Expr.cases d.blank (Expr.mapTypesArms _ bs) _ =
      Expr.cases e.blank (Expr.mapTypesArms _ as) _
    rw [Expr.mapTypesArms_eq, Expr.mapTypesArms_eq, hbe, hbs]
    rfl

theorem declare : HasType Γ (.bind n h v none m) T ↔ HasType Γ v T ∧ Annotated h T := by
  constructor
  · rintro ⟨a, hb, ht, rfl⟩
    cases ht with
    | @declare _ _ k _ m' hv _ hann hm =>
      obtain ⟨-, rfl, hbv, -⟩ := Expr.bind.inj hb
      exact ⟨⟨_, hbv, hv, hm.symm⟩, show Annotated k m'.ty from hm ▸ hann⟩
    | bind =>
      obtain ⟨-, -, -, hbb, -⟩ := Expr.bind.inj hb
      cases hbb
    | _ => cases hb
  · rintro ⟨⟨w, hbv, hw, rfl⟩, hann⟩
    exact ⟨.bind (n.typed w.ty) h w none (m.typed w.ty), congrArg (Expr.bind _ h · none _) hbv,
      .declare hw rfl hann rfl, rfl⟩

theorem bind {b : Expr} : HasType Γ (.bind n h v (some b) m) T ↔ ∃ S s, HasType Γ v S ∧
    Annotated h S ∧ Generalizes Γ S s ∧ HasType (Γ.insert n.text s) b T := by
  constructor
  · rintro ⟨a, hb, ht, rfl⟩
    cases ht with
    | bind hv _ hann hgen hc hm =>
      obtain ⟨hn, rfl, hbv, hbb, -⟩ := Expr.bind.inj hb
      have hn := congrArg Name.text hn
      exact ⟨_, _, ⟨_, hbv, hv, rfl⟩, hann, hgen, _, Option.some.inj hbb, hn ▸ hc, hm.symm⟩
    | declare =>
      obtain ⟨-, -, -, hbb, -⟩ := Expr.bind.inj hb
      cases hbb
    | _ => cases hb
  · rintro ⟨_, s, ⟨w, hbv, hw, rfl⟩, hann, hgen, c, hbb, hc, rfl⟩
    refine ⟨.bind (n.typed w.ty) h w (some c) (m.typed c.ty), ?_, .bind hw rfl hann hgen hc rfl,
      rfl⟩
    exact congrArg₂ (Expr.bind _ h · · _) hbv (congrArg some hbb)

section Functions

variable {n' : Option Name} {ps : List Pattern} {b : Expr} {n : Option Name}

/-- The names of two functions that differ in their slots bind alike. -/
theorem bindName_eq (hn : n'.map (Name.typed · .error) = n.map (Name.typed · .error)) (Γ : Context)
    (s : Scheme) : Infer.bindName Γ n' s = Infer.bindName Γ n s := by
  refine Infer.bindName_congr ?_ Γ s
  simpa [Function.comp_def] using congrArg (Option.map Name.text) hn

theorem map_typed (n : Option Name) (t u : Ty) :
    (n.map (Name.typed · t)).map (Name.typed · u) = n.map (Name.typed · u) := by
  cases n <;> rfl

theorem function_of_typed {qs : List Pattern} {c : Expr}
    (hn : n'.map (Name.typed · .error) = n.map (Name.typed · .error))
    (hbq : Pattern.mapTypesItems (fun _ => .error) qs = Pattern.mapTypesItems (fun _ => .error) ps)
    (hbc : c.blank = b.blank) (hfun : FunctionOf n' qs h c T)
    (hc : Typed (insideFunction Γ n' qs T) c) : FunctionHasType Γ n ps h b T := by
  rw [Pattern.mapTypesItems_eq, Pattern.mapTypesItems_eq] at hbq
  rw [insideFunction, bindName_eq hn] at hc
  exact ⟨Pattern.flatMap_names_of_blank hbq ▸ hfun.distinct, hfun.hint, qs, c.ty, hbq, hfun.params,
    hfun.ty, c, hbc, hc, rfl⟩

theorem exists_typed (hf : FunctionHasType Γ n ps h b T) : ∃ qs c,
    Pattern.mapTypesItems (fun _ => .error) qs = Pattern.mapTypesItems (fun _ => .error) ps ∧
      c.blank = b.blank ∧ FunctionOf (n.map (Name.typed · T)) qs h c T ∧
      Typed (insideFunction Γ (n.map (Name.typed · T)) qs T) c := by
  obtain ⟨hnd, hann, qs, _, hbq, hq, hT, c, hbc, hc, rfl⟩ := hf
  refine ⟨qs, c, ?_, hbc, ⟨hq, Pattern.flatMap_names_of_blank hbq ▸ hnd, hT, ?_, hann⟩, ?_⟩
  · rw [Pattern.mapTypesItems_eq, Pattern.mapTypesItems_eq]
    exact hbq
  · cases n <;> simp
  · rwa [insideFunction, bindName_eq (map_typed n T .error)]

theorem lam : HasType Γ (.lam n ps h b none m) T ↔ FunctionHasType Γ n ps h b T := by
  constructor
  · rintro ⟨a, hb, ht, rfl⟩
    cases ht with
    | lam hfun hc =>
      obtain ⟨hn, hbq, rfl, hbc, -⟩ := Expr.lam.inj hb
      exact function_of_typed hn hbq hbc hfun hc
    | bindFun =>
      obtain ⟨-, -, -, -, hbr, -⟩ := Expr.lam.inj hb
      cases hbr
    | _ => cases hb
  · intro hf
    obtain ⟨qs, c, hbq, hbc, hfun, hc⟩ := exists_typed hf
    refine ⟨.lam (n.map (Name.typed · T)) qs h c none (m.typed T), ?_, .lam hfun hc, rfl⟩
    show Expr.lam ((n.map (Name.typed · T)).map (Name.typed · .error)) (Pattern.mapTypesItems _ qs)
      h c.blank none _ = _
    rw [map_typed, hbq, hbc]
    rfl

theorem bindFun {r : Expr} : HasType Γ (.lam n ps h b (some r) m) T ↔ ∃ t s,
    FunctionHasType Γ n ps h b t ∧ Generalizes Γ t s ∧ HasType (Infer.bindName Γ n s) r T := by
  constructor
  · rintro ⟨a, hb, ht, rfl⟩
    cases ht with
    | bindFun hfun hc hgen hd hm =>
      obtain ⟨hn, hbq, rfl, hbc, hbr, -⟩ := Expr.lam.inj hb
      exact ⟨_, _, function_of_typed hn hbq hbc hfun hc, hgen, _, Option.some.inj hbr,
        bindName_eq hn _ _ ▸ hd, hm.symm⟩
    | lam =>
      obtain ⟨-, -, -, -, hbr, -⟩ := Expr.lam.inj hb
      cases hbr
    | _ => cases hb
  · rintro ⟨t, s, hf, hgen, d, hbr, hd, rfl⟩
    obtain ⟨qs, c, hbq, hbc, hfun, hc⟩ := exists_typed hf
    rw [← bindName_eq (map_typed n t .error)] at hd
    refine ⟨.lam (n.map (Name.typed · t)) qs h c (some d) (m.typed d.ty), ?_,
      .bindFun hfun hc hgen hd rfl, rfl⟩
    show Expr.lam ((n.map (Name.typed · t)).map (Name.typed · .error)) (Pattern.mapTypesItems _ qs)
      h c.blank (some d.blank) _ = _
    rw [map_typed, hbq, hbc, hbr]
    rfl

end Functions
end HasType
end MiniML
