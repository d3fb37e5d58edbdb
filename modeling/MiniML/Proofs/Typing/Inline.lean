import MiniML.Proofs.Tree.Inline
import MiniML.Proofs.Typing.Damage
import MiniML.Proofs.Typing.Locality
import MiniML.Proofs.Typing.Weaken

/-!
# A `let` and its value in place of the name

What a `let` binds can be used at every type of its value, and so it makes no
difference to the types of the body whether a name stands there or the value
itself (`StandsIn.inlines`). The value then stands in contexts that bind more
names, some of them to types with variables that are not quantified. As long as
none of these names is free in the value, its types there are the same.

Results:
* `HasType.not_unbound`: all free names of a tree that has a type are bound.
* `hasType_let`, `hasType_inline`: both trees have the types that the body has
  where the name means all types of the value.
* `Check.declaration_agree`: trees that have the same types are checked alike.
* `Check.declaration_inline`: so both pass, with one type, or neither does.
-/
namespace MiniML

variable {Γ Δ : Context} {x : String} {r e : Expr} {S T : Ty} {m : Mark}

-- the names of a node, and those around a name in it, come from its parts
attribute [local simp] Expr.freeNames Expr.mem_freeNamesAll Expr.mem_freeNamesOption
  Expr.mem_freeNamesArms Expr.mem_removeAll Expr.around Expr.mem_aroundAll Expr.mem_aroundOption
  Expr.mem_aroundArms boundNames

/-! ## Names in a scope -/

namespace Context

theorem bindName_eq_extend (Γ : Context) (n : Option Name) (s : Scheme) :
    Infer.bindName Γ n s = Γ.extend (n.toList.map fun n => (n.text, s)) := by
  cases n <;> rfl

theorem extend_extend (Γ : Context) (bs cs : List (String × Scheme)) :
    (Γ.extend bs).extend cs = Γ.extend (bs ++ cs) :=
  (List.foldl_append ..).symm

end Context

/-- A tree with a free name that nothing binds has no type. -/
theorem HasType.not_unbound (hx : x ∈ e.freeNames) (hΓ : Γ.get? x = none) : ¬ HasType Γ e T := by
  induction e generalizing Γ T with
  | const l m => simp at hx
  | ident n =>
    rw [HasType.ident]
    rintro ⟨s, hs, -⟩
    obtain rfl : x = n.text := by simpa using hx
    cases hΓ.symm.trans hs
  | tuple es m ih =>
    rw [HasType.tuple]
    rintro ⟨ts, hes, -⟩
    obtain ⟨e, he, hx⟩ := Expr.mem_freeNamesAll.mp hx
    obtain ⟨t, -, ht⟩ := exists_mem_of_forall₂ hes he
    exact ih e he hx hΓ ht
  | unary op e m ih =>
    rw [HasType.unary]
    rintro ⟨S, hS, -⟩
    exact ih (by simpa using hx) hΓ hS
  | binary op l r m hl hr =>
    rw [HasType.binary]
    rintro ⟨S, U, hS, hU, -⟩
    rcases List.mem_append.mp hx with hx | hx
    · exact hl hx hΓ hS
    · exact hr hx hΓ hU
  | app f es m hf ih =>
    rw [HasType.app]
    rintro ⟨ts, hty, hes, -⟩
    rcases List.mem_append.mp hx with hx | hx
    · exact hf hx hΓ hty
    · obtain ⟨e, he, hx⟩ := Expr.mem_freeNamesAll.mp hx
      obtain ⟨t, -, ht⟩ := exists_mem_of_forall₂ hes he
      exact ih e he hx hΓ ht
  | cond t y n m ht hy hn =>
    rw [HasType.cond]
    rintro ⟨hbool, hyes, hno, -⟩
    rcases List.mem_append.mp hx with hx | hx
    · rcases List.mem_append.mp hx with hx | hx
      · exact ht hx hΓ hbool
      · exact hy hx hΓ hyes
    · obtain ⟨e, he, hx⟩ := Expr.mem_freeNamesOption.mp hx
      exact hn e he hx hΓ (hno e he)
  | cases e as m he has =>
    rw [HasType.cases]
    rintro ⟨S, hS, harms⟩
    rcases List.mem_append.mp hx with hx | hx
    · exact he hx hΓ hS
    · obtain ⟨a, ha, hx, hp⟩ := Expr.mem_freeNamesArms.mp hx
      obtain ⟨-, q, hbq, -, -, hb⟩ := harms a ha
      refine has a ha hx ((Context.get?_extend ?_).trans hΓ) hb
      rwa [q.bindings_names, Pattern.names_of_blank hbq]
  | bind n h v b m hv hb =>
    cases b with
    | none =>
      rw [HasType.declare]
      rintro ⟨hT, -⟩
      exact hv (by simpa using hx) hΓ hT
    | some b =>
      rw [HasType.bind]
      rintro ⟨S, s, hS, -, -, hT⟩
      rcases List.mem_append.mp hx with hx | hx
      · exact hv hx hΓ hS
      · obtain ⟨hx, hn⟩ := Expr.mem_removeAll.mp hx
        exact hb b rfl hx (Context.unbound_insert hΓ (by simpa using hn)) hT
  | lam n ps h b r m hb hr =>
    have hbody {t : Ty} (hx : x ∈ b.freeNames.removeAll (boundNames n ps)) :
        ¬ FunctionHasType Γ n ps h b t := by
      rintro ⟨-, -, qs, u, hbq, -, -, hu⟩
      obtain ⟨hx, hnot⟩ := Expr.mem_removeAll.mp hx
      rw [boundNames, List.mem_append, not_or, ← Pattern.flatMap_names_of_blank hbq] at hnot
      exact hb hx (Context.unbound_extend (Context.unbound_bindName hΓ hnot.1) hnot.2) hu
    cases r with
    | none =>
      rw [HasType.lam]
      exact hbody (by simpa using hx)
    | some r =>
      rw [HasType.bindFun]
      rintro ⟨t, s, hf, -, hT⟩
      rcases List.mem_append.mp hx with hx | hx
      · exact hbody hx hf
      · obtain ⟨hx, hn⟩ := Expr.mem_removeAll.mp hx
        exact hr r rfl hx (Context.unbound_bindName hΓ hn) hT

/-! ## Replacing a name -/

/-- `r` in the context `Δ` may stand for `x` in `Γ` wherever `x` is free in `e`:
it has the same types, and no name of it is captured. All other names mean the
same in both contexts. -/
structure StandsIn (r : Expr) (x : String) (e : Expr) (Γ Δ : Context) : Prop where
  alike : Γ.Alike (· ≠ x) Δ
  types : x ∈ e.freeNames → ∀ t, HasType Δ r t ↔ ∃ s, Γ.get? x = some s ∧ s.Instance t
  apart : x ∈ e.freeNames → ∀ y ∈ r.freeNames, y ∉ e.around x

/-- A tree has the same types with `r` in place of `x`, wherever `r` may stand
for it. -/
def Inlines (x : String) (r e : Expr) : Prop := ∀ ⦃Γ Δ : Context⦄ ⦃T : Ty⦄,
  StandsIn r x e Γ Δ → (HasType Δ (.inline x r e) T ↔ HasType Γ e T)

namespace StandsIn

variable {d b : Expr} {es : List Expr} {a : Arm} {n : Option Name} {ps : List Pattern}
  {k : Option Hint} {s : Scheme} {t : Ty}

theorem part (h : StandsIn r x e Γ Δ) (hd : Expr.Within x [] d e) : StandsIn r x d Γ Δ where
  alike := h.alike
  types hx := h.types (hd hx List.not_mem_nil).1
  apart hx y hy hyd :=
    h.apart (hd hx List.not_mem_nil).1 y hy ((hd hx List.not_mem_nil).2 y hyd)

/-- In a scope where `x` is bound anew nothing is replaced. In any other one `r`
still has its types, as none of its names is bound there. -/
theorem under (h : StandsIn r x e Γ Δ) (ih : Inlines x r d) (bs : List (String × Scheme))
    (hd : Expr.Within x (bs.map Prod.fst) d e) :
    HasType (Δ.extend bs) (if x ∈ bs.map Prod.fst then d else .inline x r d) T ↔
      HasType (Γ.extend bs) d T := by
  by_cases hx : x ∈ bs.map Prod.fst
  · rw [if_pos hx]
    have halike : (Γ.extend bs).Alike (· ∈ d.freeNames) (Δ.extend bs) :=
      .extend (h.alike.mono fun y hy hyx => hy.2 (hyx ▸ hx))
    exact HasType.congr fun y hy => (halike.get? hy).symm
  · rw [if_neg hx]
    refine ih ⟨.extend (h.alike.mono fun y hy => hy.1), fun hxd t => ?_, fun hxd y hy hyd => ?_⟩
    · obtain ⟨hxe, haround⟩ := hd hxd hx
      rw [Context.get?_extend hx, ← h.types hxe t]
      refine HasType.congr fun y hy => Context.get?_extend fun hbs => ?_
      exact h.apart hxe y hy (haround y (List.mem_append_left _ hbs))
    · obtain ⟨hxe, haround⟩ := hd hxd hx
      exact h.apart hxe y hy (haround y (List.mem_append_right _ hyd))

theorem all (ih : ∀ e ∈ es, Inlines x r e) (h : ∀ e ∈ es, StandsIn r x e Γ Δ) (ts : List Ty) :
    List.Forall₂ (HasType Δ) (es.map (Expr.inline x r)) ts ↔ List.Forall₂ (HasType Γ) es ts := by
  induction es generalizing ts with
  | nil => simp
  | cons e es ihs =>
    simp only [List.map_cons, List.forall₂_cons_left_iff, ih e (by simp) (h e (by simp)),
      ihs (fun d hd => ih d (by simp [hd])) fun d hd => h d (by simp [hd])]

theorem arm (ih : Inlines x r a.body) (h : StandsIn r x e Γ Δ)
    (ha : Expr.Within x a.pattern.names a.body e) :
    ArmHasType Δ S T (.mk a.pattern
      (if x ∈ a.pattern.names then a.body else .inline x r a.body) a.span) ↔
      ArmHasType Γ S T a := by
  refine and_congr .rfl (exists_congr fun q => and_congr_right fun hbq => and_congr .rfl
    (and_congr .rfl ?_))
  have hnames : q.bindings.map Prod.fst = a.pattern.names :=
    q.bindings_names.trans (Pattern.names_of_blank hbq)
  rw [← hnames] at ha
  have hbody := h.under ih q.bindings ha (T := T)
  rwa [hnames] at hbody

theorem function (ih : Inlines x r b) (h : StandsIn r x e Γ Δ)
    (hb : Expr.Within x (boundNames n ps) b e) (t : Ty) :
    FunctionHasType Δ n ps k (if x ∈ boundNames n ps then b else .inline x r b) t ↔
      FunctionHasType Γ n ps k b t := by
  refine and_congr .rfl (and_congr .rfl (exists_congr fun qs => exists_congr fun u =>
    and_congr_right fun hbq => and_congr .rfl (and_congr .rfl ?_)))
  have hin (Γ : Context) : insideFunction Γ n qs t =
      Γ.extend (n.toList.map (fun n => (n.text, .mono t)) ++ qs.flatMap Pattern.bindings) := by
    rw [insideFunction, Context.bindName_eq_extend, Context.extend_extend]
  have hnames : (n.toList.map (fun n => (n.text, Scheme.mono t)) ++
      qs.flatMap Pattern.bindings).map Prod.fst = boundNames n ps := by
    rw [List.map_append, List.map_map, Pattern.flatMap_bindings_names,
      Pattern.flatMap_names_of_blank hbq]
    rfl
  rw [← hnames] at hb
  have hbody := h.under ih _ hb (T := u)
  rwa [hnames, ← hin, ← hin] at hbody

theorem rest (ih : Inlines x r b) (h : StandsIn r x e Γ Δ)
    (hb : Expr.Within x (n.toList.map Name.text) b e) (s : Scheme) :
    HasType (Infer.bindName Δ n s) (if x ∈ n.toList.map Name.text then b else .inline x r b) T ↔
      HasType (Infer.bindName Γ n s) b T := by
  have hnames : (n.toList.map fun n => (n.text, s)).map Prod.fst = n.toList.map Name.text := by
    rw [List.map_map]
    rfl
  rw [← hnames] at hb
  have hbody := h.under ih _ hb (T := T)
  rwa [hnames, ← Context.bindName_eq_extend, ← Context.bindName_eq_extend] at hbody

/-- What is free in the context does not depend on `x`, so a `let` quantifies
the same variables. -/
theorem generalizes (h : StandsIn r x e Γ Δ) : Generalizes Δ t s ↔ Generalizes Γ t s :=
  ⟨h.alike.symm.generalizes, h.alike.generalizes⟩

/-- A tree may stand for a name of the same types. An application to nothing
would do harm, since it may have a constant in the place of its name that it may
not have in the place of its callee. -/
theorem inlines (e : Expr) (hargs : e.callsHaveArgs = true) : Inlines x r e := by
  induction e with
  | const l m =>
    intro Γ Δ T h
    rw [Expr.inline, HasType.const, HasType.const]
  | ident n =>
    intro Γ Δ T h
    rw [Expr.inline, HasType.ident]
    by_cases hn : n.text = x
    · rw [if_pos hn, h.types (by simp [hn]), hn]
    · rw [if_neg hn, HasType.ident, h.alike.get? hn]
  | tuple es m ih =>
    intro Γ Δ T h
    rw [Expr.callsHaveArgs, Expr.callsHaveArgsAll_iff] at hargs
    have hes := all (fun e he => ih e he (hargs e he)) fun e he => h.part fun hx _ =>
      ⟨Expr.mem_freeNamesAll.mpr ⟨e, he, hx⟩, fun y hy => Expr.mem_aroundAll.mpr ⟨e, he, hy⟩⟩
    simp only [Expr.inline, Expr.inlineAll_eq, HasType.tuple, hes]
  | unary op e m ih =>
    intro Γ Δ T h
    simp only [Expr.inline, HasType.unary, ih hargs (h.part fun hx _ => ⟨hx, fun _ hy => hy⟩)]
  | binary op l r' m hl hr =>
    intro Γ Δ T h
    rw [Expr.callsHaveArgs, Bool.and_eq_true] at hargs
    have hleft := h.part (d := l) fun hx _ =>
      ⟨List.mem_append_left _ hx, fun _ hy => List.mem_append_left _ hy⟩
    have hright := h.part (d := r') fun hx _ =>
      ⟨List.mem_append_right _ hx, fun _ hy => List.mem_append_right _ hy⟩
    simp only [Expr.inline, HasType.binary, hl hargs.1 hleft, hr hargs.2 hright]
  | app f es m hf ih =>
    intro Γ Δ T h
    simp only [Expr.callsHaveArgs, Bool.and_eq_true, Expr.callsHaveArgsAll_iff] at hargs
    obtain ⟨hne, hfargs, hesargs⟩ := hargs
    have hnil : es ≠ [] := by simpa using hne
    have hcallee := h.part (d := f) fun hx _ =>
      ⟨List.mem_append_left _ hx, fun _ hy => List.mem_append_left _ hy⟩
    have hes := all (fun e he => ih e he (hesargs e he)) fun e he => h.part fun hx _ =>
      ⟨List.mem_append_right _ (Expr.mem_freeNamesAll.mpr ⟨e, he, hx⟩), fun y hy =>
        List.mem_append_right _ (Expr.mem_aroundAll.mpr ⟨e, he, hy⟩)⟩
    simp only [Expr.inline, Expr.inlineAll_eq, HasType.app, hes, hf hfargs hcallee,
      List.map_eq_nil_iff, hnil, false_imp_iff]
  | cond t y n m ht hy hn =>
    intro Γ Δ T h
    simp only [Expr.callsHaveArgs, Bool.and_eq_true, Expr.callsHaveArgsOption_iff] at hargs
    obtain ⟨htargs, hyargs, hnargs⟩ := hargs
    have htest := h.part (d := t) fun hx _ =>
      ⟨List.mem_append_left _ (List.mem_append_left _ hx), fun _ hy =>
        List.mem_append_left _ (List.mem_append_left _ hy)⟩
    have hyes := h.part (d := y) fun hx _ =>
      ⟨List.mem_append_left _ (List.mem_append_right _ hx), fun _ hy =>
        List.mem_append_left _ (List.mem_append_right _ hy)⟩
    have hno : (∀ e ∈ n.map (Expr.inline x r), HasType Δ e T) ↔ ∀ e ∈ n, HasType Γ e T := by
      rw [Option.forall_mem_map]
      refine forall₂_congr fun e he => hn e he (hnargs e he) (h.part fun hx _ => ?_)
      exact ⟨List.mem_append_right _ (Expr.mem_freeNamesOption.mpr ⟨e, he, hx⟩), fun y hy =>
        List.mem_append_right _ (Expr.mem_aroundOption.mpr ⟨e, he, hy⟩)⟩
    simp only [Expr.inline, Expr.inlineOption_eq, HasType.cond, hno, Option.map_eq_none_iff,
      ht htargs htest, hy hyargs hyes]
  | cases e as m he has =>
    intro Γ Δ T h
    simp only [Expr.callsHaveArgs, Bool.and_eq_true, Expr.callsHaveArgsArms_iff] at hargs
    have hscrutinee := h.part (d := e) fun hx _ =>
      ⟨List.mem_append_left _ hx, fun _ hy => List.mem_append_left _ hy⟩
    have harms (S : Ty) : (∀ a ∈ as.map fun a : Arm => Arm.mk a.pattern
          (if x ∈ a.pattern.names then a.body else .inline x r a.body) a.span,
        ArmHasType Δ S T a) ↔ ∀ a ∈ as, ArmHasType Γ S T a := by
      rw [List.forall_mem_map]
      refine forall₂_congr fun a ha => arm (has a ha (hargs.2 a ha)) h fun hx hp => ?_
      refine ⟨List.mem_append_right _ (Expr.mem_freeNamesArms.mpr ⟨a, ha, hx, hp⟩), fun y hy => ?_⟩
      exact List.mem_append_right _
        (Expr.mem_aroundArms.mpr ⟨a, ha, Expr.mem_removeAll.mpr ⟨hx, hp⟩, hy⟩)
    simp only [Expr.inline, Expr.inlineArms_eq, HasType.cases, harms, he hargs.1 hscrutinee]
  | bind n k v b m hv hb =>
    intro Γ Δ T h
    simp only [Expr.callsHaveArgs, Bool.and_eq_true, Expr.callsHaveArgsOption_iff] at hargs
    have hvalue := h.part (d := v) fun hx _ =>
      ⟨List.mem_append_left _ hx, fun _ hy => List.mem_append_left _ hy⟩
    cases b with
    | none =>
      simp only [Expr.inline, Expr.inlineOption, ite_self, HasType.declare, hv hargs.1 hvalue]
    | some b =>
      have hwithin : Expr.Within x ((some n).toList.map Name.text) b (.bind n k v (some b) m) := by
        intro hx hn
        have hfree := Expr.mem_removeAll.mpr ⟨hx, hn⟩
        exact ⟨List.mem_append_right _ hfree, fun y hy =>
          List.mem_append_right _ ((if_pos hfree).symm ▸ hy)⟩
      have hbody := rest (T := T) (hb b rfl (hargs.2 b rfl)) h hwithin
      have hin : (if x ∈ [n.text] then some b else some (.inline x r b)) =
          some (if x ∈ [n.text] then b else .inline x r b) := (apply_ite some _ _ _).symm
      simp only [Expr.inline, Expr.inlineOption, hin, HasType.bind, hv hargs.1 hvalue,
        h.generalizes]
      refine exists_congr fun S => exists_congr fun s => ?_
      exact and_congr_right fun _ => and_congr_right fun _ => and_congr_right fun _ => hbody s
  | lam n ps k b q m hb hq =>
    intro Γ Δ T h
    simp only [Expr.callsHaveArgs, Bool.and_eq_true, Expr.callsHaveArgsOption_iff] at hargs
    have hhead : Expr.Within x (boundNames n ps) b (.lam n ps k b q m) := by
      intro hx hn
      have hfree := Expr.mem_removeAll.mpr ⟨hx, hn⟩
      exact ⟨List.mem_append_left _ hfree, fun y hy =>
        List.mem_append_left _ ((if_pos hfree).symm ▸ hy)⟩
    have hfun := function (k := k) (hb hargs.1) h hhead
    cases q with
    | none => simp only [Expr.inline, Expr.inlineOption, ite_self, HasType.lam, hfun]
    | some q =>
      have htail : Expr.Within x (n.toList.map Name.text) q (.lam n ps k b (some q) m) := by
        intro hx hn
        have hfree := Expr.mem_removeAll.mpr ⟨hx, hn⟩
        exact ⟨List.mem_append_right _ hfree, fun y hy =>
          List.mem_append_right _ ((if_pos hfree).symm ▸ hy)⟩
      have hrest := rest (T := T) (hq q rfl (hargs.2 q rfl)) h htail
      have hin : (if x ∈ n.toList.map Name.text then some q else some (.inline x r q)) =
          some (if x ∈ n.toList.map Name.text then q else .inline x r q) :=
        (apply_ite some _ _ _).symm
      simp only [Expr.inline, Expr.inlineOption, hin, HasType.bindFun, hfun, h.generalizes, hrest]

end StandsIn

/-! ## Inlining a value -/

/-- The types of a tree are the instances of a closed scheme, if there is one, and
it has none otherwise. -/
structure Schematic (Γ : Context) (e : Expr) (o : Option Scheme) : Prop where
  closed : ∀ s ∈ o, s.Closed
  types : ∀ t, HasType Γ e t ↔ ∃ s ∈ o, s.Instance t

section Value

variable {n : Name} {v b : Expr} {o : Option Scheme}

/-- A `let` may as well bind its name to the scheme that has all types of its
value: whatever it binds it to has instances of those. -/
theorem hasType_let (hΓ : Γ.Closed) (hv : Schematic Γ v o) :
    HasType Γ (.bind n none v (some b) m) T ↔ ∃ s ∈ o, HasType (Γ.insert n.text s) b T := by
  rw [HasType.bind]
  constructor
  · rintro ⟨S, s₀, hS, -, hgen, hT⟩
    obtain ⟨s, hs, hi⟩ := (hv.types S).mp hS
    refine ⟨s, hs, hT.weaken (.insert (.refl Γ _) ?_)⟩
    rintro _ ⟨f, -, rfl⟩
    exact hgen.body ▸ (hv.closed s hs).instance_of_instance hi f
  · rintro ⟨s, hs, hT⟩
    have hbody : HasType Γ v s.body :=
      (hv.types _).mpr ⟨s, hs, .var, fun _ _ => rfl, (Ty.subst_var _).symm⟩
    obtain ⟨s', hgen⟩ := exists_generalizes Γ s.body
    refine ⟨s.body, s', hbody, nofun, hgen, hT.weaken (.insert (.refl Γ _) ?_)⟩
    rintro _ ⟨f, -, rfl⟩
    exact hgen.body ▸ (hgen.closed hΓ).instance_subst f

theorem hasType_inline (hΓ : Γ.Closed) (hv : Schematic Γ v o) (hfree : x ∈ b.freeNames)
    (hcapture : ∀ y ∈ v.freeNames, y ∉ b.around x) (hargs : b.callsHaveArgs = true) :
    HasType Γ (.inline x v b) T ↔ ∃ s ∈ o, HasType (Γ.insert x s) b T := by
  have hstands {Δ : Context} (hx : Δ.get? x = o) (hne : ∀ y, y ≠ x → Δ.get? y = Γ.get? y) :
      StandsIn v x b Δ Γ := by
    refine ⟨fun y => ?_, fun _ t => by rw [hv.types, hx]; simp, fun _ => hcapture⟩
    by_cases hy : y = x
    · exact .inr ⟨fun h => h hy, fun s hs => hv.closed s (hx ▸ hy ▸ hs), hΓ y⟩
    · exact .inl (hne y hy)
  cases o with
  | none =>
    have hx : (FinMap.erase Γ x).get? x = none := by rw [FinMap.get?_erase, if_pos rfl]
    rw [StandsIn.inlines b hargs (hstands hx fun y hy => by rw [FinMap.get?_erase, if_neg hy])]
    simpa using HasType.not_unbound hfree hx
  | some s =>
    have hx : FinMap.get? (Γ.insert x s) x = some s := by rw [FinMap.get?_insert, if_pos rfl]
    rw [StandsIn.inlines b hargs (hstands hx fun y hy => by rw [FinMap.get?_insert, if_neg hy])]
    simp

end Value

/-! ## Declarations -/

namespace Infer

variable {c c' : Checker} {d : Expr} {passed : Bool}

theorem declaration_of_expr {a : Expr} (h : Runs (expr Γ e) (c.knowing .empty) a c') :
    Runs (Infer.declaration Γ e) c
      (decide (c'.errors = c.errors), a.mapTypes c'.subst.apply) c' := by
  simp only [Infer.declaration, runs_bind, runs_modify, runs_get, runs_subst, runs_pure]
  exact ⟨(), _, rfl, _, _, ⟨rfl, rfl⟩, a, c', h, _, _, ⟨rfl, rfl⟩, _, _, ⟨rfl, rfl⟩, rfl, rfl⟩

/-- Inference finds all types of a tree, or that there is none. -/
theorem declaration_hasType (htable : c.builtins = Builtins.context) (hΓ : Γ.Closed)
    (herr : Γ.ErrorFree) (hrun : Runs (Infer.declaration Γ e) c (passed, d) c') :
    (passed = true → HasType Γ e d.ty) ∧
      ∀ t, HasType Γ e t → passed = true ∧ ∃ θ, d.ty.subst θ = t := by
  refine ⟨?_, ?_⟩
  · rintro rfl
    obtain ⟨-, hblank, htyped, -⟩ := declaration_derives htable hΓ herr hrun
    exact ⟨d, hblank, htyped, rfl⟩
  · rintro _ ⟨a, hblank, htyped, rfl⟩
    obtain ⟨hpass, θ, hθ⟩ := declaration_complete htable hΓ htyped hblank hrun
    exact ⟨hpass, θ, hθ.symm⟩

theorem declaration_schematic (htable : c.builtins = Builtins.context) (hΓ : Γ.Closed)
    (herr : Γ.ErrorFree) (hrun : Runs (Infer.declaration Γ e) c (passed, d) c') :
    ∃ o, Schematic Γ e o := by
  obtain ⟨hpass, hall⟩ := declaration_hasType htable hΓ herr hrun
  cases passed with
  | false =>
    exact ⟨none, nofun, fun t => ⟨fun ht => absurd (hall t ht).1 Bool.false_ne_true, nofun⟩⟩
  | true =>
    obtain ⟨s, hgen⟩ := exists_generalizes Γ d.ty
    have hs := hgen.closed hΓ
    refine ⟨some s, fun _ hs' => Option.some.inj hs' ▸ hs, fun t => ⟨fun ht => ?_, ?_⟩⟩
    · obtain ⟨-, θ, rfl⟩ := hall t ht
      exact ⟨s, rfl, hgen.body ▸ hs.instance_subst θ⟩
    · rintro ⟨_, hs', f, -, rfl⟩
      rw [← Option.some.inj hs', hgen.body]
      exact (hpass rfl).carry (.closed hΓ f _)

end Infer

namespace Check

variable {c₁ c₂ : Checker} {n : Name} {e₁ e₂ : Expr}

/-- Trees with the same types get the same verdict, and their types read the same, unless
the type variables run out. -/
theorem declaration_agree (ht₁ : c₁.builtins = Builtins.context)
    (ht₂ : c₂.builtins = Builtins.context) (hΓ : Γ.Closed) (herr : Γ.ErrorFree)
    (hsame : ∀ T, HasType Γ e₁ T ↔ HasType Γ e₂ T) :
    (∃ w, Check.declaration e₁ ⟨c₁, Γ⟩ = .error .typeVariables w ∧ lastVar ≤ w.checker.next) ∨
    (∃ w, Check.declaration e₂ ⟨c₂, Γ⟩ = .error .typeVariables w ∧ lastVar ≤ w.checker.next) ∨
    ∃ passed d₁ d₂ w₁ w₂,
      Check.declaration e₁ ⟨c₁, Γ⟩ = .ok (passed, d₁) w₁ ∧
      Check.declaration e₂ ⟨c₂, Γ⟩ = .ok (passed, d₂) w₂ ∧
      (passed = true → d₁.ty.normalized = d₂.ty.normalized) := by
  cases h₁ : Check.declaration e₁ ⟨c₁, Γ⟩ with
  | error x w =>
    cases x
    exact .inl ⟨w, rfl, (stops_declaration _).spent h₁⟩
  | ok r₁ w₁ =>
    cases h₂ : Check.declaration e₂ ⟨c₂, Γ⟩ with
    | error x w =>
      cases x
      exact .inr (.inl ⟨w, rfl, (stops_declaration _).spent h₂⟩)
    | ok r₂ w₂ =>
      obtain ⟨p₁, d₁⟩ := r₁
      obtain ⟨p₂, d₂⟩ := r₂
      obtain ⟨_, _, hrun₁, -⟩ := runs_declaration h₁
      obtain ⟨_, _, hrun₂, -⟩ := runs_declaration h₂
      obtain ⟨hpass₁, hall₁⟩ := Infer.declaration_hasType ht₁ hΓ herr hrun₁
      obtain ⟨hpass₂, hall₂⟩ := Infer.declaration_hasType ht₂ hΓ herr hrun₂
      -- each finds the type of the other one, as an instance of its own
      have hto (h : p₁ = true) := hall₂ _ ((hsame _).mp (hpass₁ h))
      have hfrom (h : p₂ = true) := hall₁ _ ((hsame _).mpr (hpass₂ h))
      obtain rfl : p₁ = p₂ := Bool.eq_iff_iff.mpr ⟨fun h => (hto h).1, fun h => (hfrom h).1⟩
      refine .inr (.inr ⟨p₁, d₁, d₂, w₁, w₂, rfl, rfl, fun h => ?_⟩)
      obtain ⟨-, θ, hθ⟩ := hto h
      obtain ⟨-, θ', hθ'⟩ := hfrom h
      exact Ty.normalized_eq_of_subst hθ hθ'

/-- A `let` without an annotation agrees with its body in which the value is in
place of the name: unless the type variables run out, both pass or neither, and
if they pass their types are written alike. It takes that the name is used, that
no binder around a use captures a free name of the value, and that applications
have arguments, as in all trees that are read from a text. -/
theorem declaration_inline (ht₁ : c₁.builtins = Builtins.context)
    (ht₂ : c₂.builtins = Builtins.context) (hΓ : Γ.Closed) (herr : Γ.ErrorFree)
    (hargs : e₂.callsHaveArgs = true) (hfree : n.text ∈ e₂.freeNames)
    (hcapture : ∀ y ∈ e₁.freeNames, y ∉ e₂.around n.text) :
    (∃ w, Check.declaration (.bind n none e₁ (some e₂) m) ⟨c₁, Γ⟩ = .error .typeVariables w ∧
        lastVar ≤ w.checker.next) ∨
    (∃ w, Check.declaration (.inline n.text e₁ e₂) ⟨c₂, Γ⟩ = .error .typeVariables w ∧
        lastVar ≤ w.checker.next) ∨
    ∃ passed d₁ d₂ w₁ w₂,
      Check.declaration (.bind n none e₁ (some e₂) m) ⟨c₁, Γ⟩ = .ok (passed, d₁) w₁ ∧
      Check.declaration (.inline n.text e₁ e₂) ⟨c₂, Γ⟩ = .ok (passed, d₂) w₂ ∧
      (passed = true → d₁.ty.normalized = d₂.ty.normalized) := by
  cases h₁ : Check.declaration (.bind n none e₁ (some e₂) m) ⟨c₁, Γ⟩ with
  | error x w =>
    cases x
    exact .inl ⟨w, rfl, (stops_declaration _).spent h₁⟩
  | ok r₁ w₁ =>
    -- the value has been inferred on the way, in the outer context
    obtain ⟨_, _, hrun, -⟩ := runs_declaration h₁
    obtain ⟨a, ha, -⟩ := Infer.runs_declaration hrun
    obtain ⟨v, _, _, _, ⟨_, hv, -⟩, -⟩ := Infer.runs_let ha
    obtain ⟨o, ho⟩ := Infer.declaration_schematic ht₁ hΓ herr (Infer.declaration_of_expr hv)
    have hsame (T : Ty) : HasType Γ (.bind n none e₁ (some e₂) m) T ↔
        HasType Γ (.inline n.text e₁ e₂) T := by
      rw [hasType_let hΓ ho, hasType_inline hΓ ho hfree hcapture hargs]
    rw [← h₁]
    exact declaration_agree ht₁ ht₂ hΓ herr hsame

/-- `let f = fun y -> id y in (f 1, fun z -> f z)`, where the variables of the
two types have different numbers. -/
theorem declaration_inline_pair :
    let Γ : Context := .singleton "id" ⟨[3], .fn (.var 3) (.var 3)⟩
    let c : Checker := .root {}
    let name (x : String) : Name := ⟨x, {}⟩
    let call (f x : String) : Expr := .app (.ident (name f)) [.ident (name x)] {}
    let e₁ : Expr := .lam none [.ident (name "y")] none (call "id" "y") none {}
    let e₂ : Expr := .tuple [.app (.ident (name "f")) [.const (.int 1) {}] {},
      .lam none [.ident (name "z")] none (call "f" "z") none {}] {}
    let whole : Expr := .bind (name "f") none e₁ (some e₂) {}
    Γ.Closed ∧ Γ.ErrorFree ∧ e₂.callsHaveArgs = true ∧ "f" ∈ e₂.freeNames ∧
      (∀ y ∈ e₁.freeNames, y ∉ e₂.around "f") ∧
      ∃ d₁ d₂ w₁ w₂, declaration whole ⟨c, Γ⟩ = .ok (true, d₁) w₁ ∧
        declaration (.inline "f" e₁ e₂) ⟨c, Γ⟩ = .ok (true, d₂) w₂ ∧ d₁.ty ≠ d₂.ty ∧
        d₁.ty.normalized = d₂.ty.normalized := by
  intro Γ c name call e₁ e₂ whole
  have ht : c.builtins = Builtins.context := rfl
  have hΓ : Γ.Closed := .singleton fun v hv => hv.2 (by simpa [Ty.leaves] using hv.1)
  have herr : Γ.ErrorFree := .singleton rfl
  have hcapture : ∀ y ∈ e₁.freeNames, y ∉ e₂.around "f" := by decide
  have htype₁ : type? whole ⟨c, Γ⟩ = some (.tuple [.prim .int, .fn (.var 10) (.var 10)]) := by
    decide +kernel
  have htype₂ : type? (.inline "f" e₁ e₂) ⟨c, Γ⟩ =
      some (.tuple [.prim .int, .fn (.var 12) (.var 12)]) := by decide +kernel
  obtain ⟨d₁, w₁, hrun₁, hty₁⟩ := exists_of_type? htype₁
  obtain ⟨d₂, w₂, hrun₂, hty₂⟩ := exists_of_type? htype₂
  refine ⟨hΓ, herr, rfl, by decide, hcapture, d₁, d₂, w₁, w₂, hrun₁, hrun₂, ?_, ?_⟩
  · rw [hty₁, hty₂]
    decide
  · rcases declaration_inline (n := name "f") (m := {}) ht ht hΓ herr rfl (by decide) hcapture with
      ⟨w, hstop, -⟩ | ⟨w, hstop, -⟩ | ⟨p, a, b, v, u, h₁, h₂, heq⟩
    · cases hrun₁.symm.trans hstop
    · cases hrun₂.symm.trans hstop
    · cases hrun₁.symm.trans h₁
      cases hrun₂.symm.trans h₂
      exact heq rfl

end Check
end MiniML
