import MiniML.Proofs.Typing.Follow
import MiniML.Proofs.Typing.Shape

/-!
# Typed trees are inferred without errors

If a tree is a derivation, inference of that tree reports no error, and the
type that it finds becomes the type of the derivation (`expr_complete`). The
induction is on the derivation: inference only reads the tree without its
slots, so it may as well run on the derivation itself.

The rules do not ask how their parts came to have these types
(`Complete p Δ k e T`): a part may be in place of one that has a derivation,
report errors of its own, and lose parts of the type. Its errors are then all
that the whole reports.

Two rules refuse a tree without an equation: an operator that takes too few
arguments, and an application of what is never a function. Over the table of
operators no such tree is typed, since every operator takes its operands to a
primitive type (`operates_prim`).
-/
namespace MiniML

/-! ## Operators -/

/-- Behind `n` arguments there is a primitive type. -/
def Ty.endsAfter : Nat → Ty → Bool
  | 0, .prim _ => true
  | n + 1, .fn _ b => b.endsAfter n
  | _, _ => false

namespace Ty

theorem le_arity_of_endsAfter {n : Nat} {t : Ty} (h : t.endsAfter n = true) : n ≤ t.arity := by
  induction n generalizing t with
  | zero => exact Nat.zero_le _
  | succ n ih =>
    cases t with
    | fn a b =>
      have := ih h
      show n + 1 ≤ 1 + b.arity
      omega
    | _ => cases h

theorem endsAfter_subst {n : Nat} {t : Ty} (f : TyVar → Ty) (h : t.endsAfter n = true) :
    (t.subst f).endsAfter n = true := by
  induction n generalizing t with
  | zero =>
    cases t with
    | prim p => rfl
    | _ => cases h
  | succ n ih =>
    cases t with
    | fn a b => exact ih h
    | _ => cases h

theorem prim_of_endsAfter {ts : List Ty} {t : Ty}
    (h : (curried ts t).endsAfter ts.length = true) : ∃ p, t = .prim p := by
  induction ts with
  | nil =>
    cases t with
    | prim p => exact ⟨p, rfl⟩
    | _ => cases h
  | cons u us ih => exact ih h

end Ty

namespace Builtins

/-- An operator of this name takes `n` arguments to a primitive type. -/
def Takes (name : String) (n : Nat) : Prop :=
  ∀ s, context.get? name = some s → s.body.endsAfter n = true

theorem takes_unary (op : UnaryOp) : Takes op.builtin 1 := by
  have h : ∀ b ∈ table, b.1 = op.builtin → b.2.body.endsAfter 1 = true := by
    cases op <;> decide
  exact fun s hs => h _ (mem_table hs) rfl

theorem takes_binary (op : BinaryOp) : Takes op.symbol 2 := by
  have h : ∀ b ∈ table, b.1 = op.symbol → b.2.body.endsAfter 2 = true := by
    cases op <;> decide
  exact fun s hs => h _ (mem_table hs) rfl

end Builtins

theorem operates_prim {name : String} {args : List Ty} {t : Ty} (h : Operates name args t)
    (htakes : Builtins.Takes name args.length) : ∃ p, t = .prim p := by
  obtain ⟨s, hget, f, -, heq⟩ := h
  exact Ty.prim_of_endsAfter (heq ▸ Ty.endsAfter_subst f (htakes s hget))

/-- What is never a function does not have the type of one. -/
theorem Typed.ty_ne_fn {Δ : Context} {e : Expr} (h : Typed Δ e)
    (he : Infer.neverFunction e = true) (s t : Ty) : e.ty ≠ .fn s t := by
  intro hfn
  cases h with
  | const hm => cases hm.symm.trans hfn
  | tuple _ hm => cases hm.symm.trans hfn
  | unary _ hop =>
    obtain ⟨p, hp⟩ := operates_prim hop (Builtins.takes_unary _)
    cases hp.symm.trans hfn
  | binary _ _ hop =>
    obtain ⟨p, hp⟩ := operates_prim hop (Builtins.takes_binary _)
    cases hp.symm.trans hfn
  | _ => cases he

/-- The type of a function is exact if those of its parts are. -/
theorem FunctionOf.exact {p : Prop} {n : Option Name} {ps : List Pattern} {h : Option Hint}
    {b : Expr} {t : Ty} (hf : FunctionOf n ps h b t) (hps : ∀ q ∈ ps, q.All (Ty.Exact p))
    (hb : b.ty.Exact p) : t.Exact p := by
  rw [hf.ty]
  refine fun hp => Ty.errorFree_curried.mpr ⟨fun u hu => ?_, hb hp⟩
  obtain ⟨q, hq, rfl⟩ := List.mem_map.mp hu
  exact hps q hq _ q.ty_mem_slots hp

/-- What is applied is no expression that is never a function. -/
theorem Typed.callee {Δ : Context} {f : Expr} {es : List Expr} {t : Ty} (h : Typed Δ f)
    (hty : f.ty = .curried (es.map Expr.ty) t) (hnil : es = [] → Infer.neverFunction f = false) :
    Infer.neverFunction f = false := by
  cases es with
  | nil => exact hnil rfl
  | cons e es =>
    exact Bool.eq_false_iff.mpr fun hf => h.ty_ne_fn hf e.ty (.curried (es.map Expr.ty) t) hty

namespace Infer

variable {p : Prop} {k k₁ k₂ k₃ : Diagnostics} {θ : TyVar → Ty} {Γ Δ : Context}
  {c c' d : Checker} {S T U : Ty} {Ts : List Ty}

theorem applyOperator_leads {name symbol : String} {args Args : List Ty} {span : Span} {r : Ty}
    {x : Except TypeError Ty} (hx : Runs (applyOperator name symbol args span) c x d)
    (hr : Runs (settle x) d r c') (hf : Follows p θ Γ Δ c)
    (hargs : List.Forall₂ (Becomes p θ c) args Args) (hop : Operates name Args T)
    (hT : T.Exact p) (htakes : Builtins.Takes name Args.length) :
    ∃ θ', Leads p [] θ c θ' c' ∧ Becomes p θ' c' r T := by
  obtain ⟨s, hget, hinst⟩ := hop
  have hclosed := Builtins.context_closed name s hget
  rcases runs_applyOperator hx hr with ⟨hnone, -⟩ | ⟨s', u, c₁, hget', hi, h⟩
  · rw [hf.table, hget] at hnone
    cases hnone
  rw [hf.table, hget] at hget'
  cases hget'
  have hexact : (Ty.curried Args T).Exact p := fun hp => Ty.errorFree_curried.mpr
    ⟨fun u hu => have ⟨_, _, hb⟩ := exists_mem_of_forall₂ hargs.flip hu; hb.exact hp, hT hp⟩
  obtain ⟨θ₁, l₁, hu⟩ := hi.leads hf.scope hf.suits (fun v hv => absurd hv (hclosed v)) hexact
    (hclosed.offers hexact hf.suits.exact hinst)
  rcases h with ⟨hlt, -⟩ | ⟨-, h⟩
  · obtain ⟨-, f, -, rfl⟩ := hi
    have hle := Ty.le_arity_of_endsAfter (Ty.endsAfter_subst f (htakes s hget))
    rw [hargs.length_eq] at hlt
    omega
  · obtain ⟨θ₂, l₂, hr⟩ := h.leads l₁.suits hu (Becomes.all_step hargs hf.suits.sane l₁)
    exact ⟨θ₂, l₁.quiet l₂, hr⟩

/-! ## Parts -/

/-- Inference of `e`, wherever it follows a derivation in `Δ`, reports the
errors `k` and finds a type that becomes `T`. -/
def Complete (p : Prop) (Δ : Context) (k : Diagnostics) (e : Expr) (T : Ty) : Prop :=
  ∀ ⦃θ : TyVar → Ty⦄ ⦃Γ : Context⦄ ⦃c : Checker⦄ ⦃e' : Expr⦄ ⦃c' : Checker⦄,
    Follows p θ Γ Δ c → Runs (expr Γ e) c e' c' →
      ∃ θ', Leads p k θ c θ' c' ∧ Becomes p θ' c' e'.ty T

/-- Inference does not read the slots. -/
theorem Complete.of_blank {d e : Expr} (h : Complete p Δ k e T) (hblank : e.blank = d.blank) :
    Complete p Δ k d T := by
  intro θ Γ c e' c' hf hrun
  rw [← expr_eq_of_blank hblank Γ] at hrun
  exact h hf hrun

/-- The same of a list of trees. -/
def CompleteAll (p : Prop) (Δ : Context) (k : Diagnostics) (es : List Expr) (Ts : List Ty) : Prop :=
  ∀ ⦃θ : TyVar → Ty⦄ ⦃Γ : Context⦄ ⦃c : Checker⦄ ⦃es' : List Expr⦄ ⦃c' : Checker⦄,
    Follows p θ Γ Δ c → Runs (exprs Γ es) c es' c' →
      ∃ θ', Leads p k θ c θ' c' ∧ List.Forall₂ (Becomes p θ' c') (es'.map Expr.ty) Ts

/-- The same of what is taken otherwise. -/
def CompleteElse (p : Prop) (Δ : Context) (k : Diagnostics) (o : Option Expr) (T : Ty) : Prop :=
  ∀ ⦃θ : TyVar → Ty⦄ ⦃Γ : Context⦄ ⦃c : Checker⦄ ⦃o' : Option Expr⦄ ⦃c' : Checker⦄,
    Follows p θ Γ Δ c → Runs (optional Γ o) c o' c' →
      ∃ θ', Leads p k θ c θ' c' ∧ Becomes p θ' c' (elseTy o') T

/-- The same of alternatives, for a scrutinee of type `S` and a result of type
`R`. -/
def CompleteArms (p : Prop) (Δ : Context) (k : Diagnostics) (as : List Arm) (S R : Ty) : Prop :=
  ∀ ⦃θ : TyVar → Ty⦄ ⦃Γ : Context⦄ ⦃c : Checker⦄ ⦃scrutinee result : Ty⦄ ⦃reachable : Bool⦄
    ⦃as' : List Arm⦄ ⦃c' : Checker⦄, Follows p θ Γ Δ c → Becomes p θ c scrutinee S →
      Becomes p θ c result R → Runs (arms Γ scrutinee result reachable as) c as' c' →
      ∃ θ', Leads p k θ c θ' c'

theorem exprs_nil : CompleteAll p Δ [] [] [] := by
  intro θ Γ c es' c' hf hrun
  obtain ⟨rfl, rfl⟩ := runs_pure.mp hrun
  exact ⟨θ, hf.refl, .nil⟩

theorem exprs_cons {e : Expr} {es : List Expr} (he : Complete p Δ k₁ e T)
    (hes : CompleteAll p Δ k₂ es Ts) : CompleteAll p Δ (k₁ ++ k₂) (e :: es) (T :: Ts) := by
  intro θ Γ c es' c' hf hrun
  obtain ⟨a, c₁, as, ha, has, rfl⟩ := runs_exprs_cons hrun
  obtain ⟨θ₁, l₁, hty⟩ := he hf ha
  obtain ⟨θ₂, l₂, htys⟩ := hes (hf.step l₁) has
  exact ⟨θ₂, l₁.trans l₂, .cons (hty.step l₁.suits.sane l₂) htys⟩

theorem optional_none : CompleteElse p Δ [] none .unit := by
  intro θ Γ c o' c' hf hrun
  obtain ⟨rfl, rfl⟩ := runs_pure.mp hrun
  exact ⟨θ, hf.refl, .prim _⟩

theorem optional_some {e : Expr} (he : Complete p Δ k e T) : CompleteElse p Δ k (some e) T := by
  intro θ Γ c o' c' hf hrun
  obtain ⟨a, ha, rfl⟩ := runs_optional_some hrun
  exact he hf ha

theorem arms_nil : CompleteArms p Δ [] [] S T := by
  intro θ Γ c scrutinee result reachable as' c' hf _ _ hrun
  obtain ⟨rfl, rfl⟩ := runs_pure.mp hrun
  exact ⟨θ, hf.refl⟩

theorem arms_cons {q : Pattern} {e : Expr} {span : Span} {as : List Arm} (hq : q.Typed)
    (hnd : q.names.Nodup) (hexact : q.All (Ty.Exact p)) (hS : q.ty = S)
    (he : Complete p (Δ.extend q.bindings) k₁ e T) (has : CompleteArms p Δ k₂ as S T) :
    CompleteArms p Δ (k₁ ++ k₂) (.mk q e span :: as) S T := by
  intro θ Γ c scrutinee result reachable as' c' hf hs hr hrun
  subst hS
  obtain ⟨ds, c₁, q', bs, c₂, ok, c₃, b, c₄, ok', c₅, rest, hds, hd, hpat, heq, hb, heq', hrest,
    rfl⟩ := runs_arms_cons hrun
  obtain rfl := checkDistinct_distinct hd (by simpa using hnd)
  have hsane := hf.suits.sane
  -- the pattern
  have l₁ : Leads p [] θ c θ (c.noting ds) := .noting hf.suits hds
  obtain ⟨θ₂, l₂, hin, hty⟩ := (runs_pattern hpat).singleton.leads (hf.step l₁)
    (List.forall_mem_singleton.mpr hq) (List.forall_mem_singleton.mpr hexact)
  rw [List.flatMap_singleton] at hin
  have l₂ := l₁.quiet l₂
  obtain ⟨-, e₃⟩ := heq.leads l₂.suits (hs.step hsane l₂) (List.forall₂_cons.mp hty).1
  have l₃ := l₂.quiet e₃
  -- the body
  obtain ⟨θ₄, l₄, hbty⟩ := he (hin.step e₃) hb
  have l₄ := l₃.trans l₄
  obtain ⟨-, e₅⟩ := heq'.leads l₄.suits (hr.step hsane l₄) hbty
  have l₅ := l₄.quiet e₅
  obtain ⟨θ₆, l₆⟩ := has (hf.step l₅) (hs.step hsane l₅) (hr.step hsane l₅) hrest
  exact ⟨θ₆, l₅.trans l₆⟩

/-- A value with its annotation. -/
theorem bindHead_complete {h : Option Hint} {v v' : Expr} {span : Span} (hv : Complete p Δ k v T)
    (hann : Annotated h T) (hf : Follows p θ Γ Δ c) (hrun : BindHead Γ h v span c v' c') :
    ∃ θ', Leads p k θ c θ' c' ∧ Becomes p θ' c' v'.ty T := by
  obtain ⟨c₁, hrun, ha⟩ := hrun
  obtain ⟨θ₁, l₁, hty⟩ := hv hf hrun
  obtain ⟨θ₂, l₂⟩ := annotate_leads ha l₁.suits hty hann
  exact ⟨θ₂, l₁.quiet l₂, hty.step l₁.suits.sane l₂⟩

/-- A function: the variable for itself becomes its type. The body `b` may be in
place of the one that the derivation has. -/
theorem lamHead_complete {n : Option Name} {ps ps' : List Pattern} {h : Option Hint}
    {b₀ b b' : Expr} {span : Span} (hfun : FunctionOf n ps h b₀ T) (hT : T.Exact p)
    (hexact : ∀ q ∈ ps, q.All (Ty.Exact p))
    (hb : Complete p (insideFunction Δ n ps T) k b b₀.ty) (hf : Follows p θ Γ Δ c)
    (hrun : LamHead Γ n ps h b span c ps' b' c') :
    ∃ θ', Leads p k θ c θ' c' ∧ Becomes p θ' c' (.curried (ps'.map Pattern.ty) b'.ty) T := by
  obtain ⟨c₁, bs, c₂, c₃, ok, c₄, -, hd, hp, hrun, he, ha⟩ := hrun
  obtain rfl := checkDistinct_distinct hd hfun.distinct
  -- the function itself, and its parameters
  obtain ⟨θ₁, l₁, hself⟩ := leads_fresh hf.suits hT
  obtain ⟨θ₂, l₂, hin, hps⟩ := (runs_patterns (fun p _ => runs_pattern) hp).leads
    ((hf.step l₁).bindMono hself n) hfun.params hexact
  have hself := hself.step l₁.suits.sane l₂
  -- the body, in their scope
  obtain ⟨θ₃, l₃, hbty⟩ := hb hin hrun
  have hty := Becomes.curried l₃.suits.sane (Becomes.all_step hps l₂.suits.sane l₃) hbty
  rw [← hfun.ty] at hty
  obtain ⟨-, l₄⟩ := he.leads l₃.suits (hself.step l₂.suits.sane l₃) hty
  have hty := hty.step l₃.suits.sane l₄
  obtain ⟨θ₅, l₅⟩ := annotate_leads ha l₄.suits hty hfun.hint
  exact ⟨θ₅, (((l₁.quiet l₂).trans l₃).quiet l₄).quiet l₅, hty.step l₄.suits.sane l₅⟩

/-- What is behind a value or a function may use its name as generally as the
derivation does. -/
theorem generalize_complete {s s' : Scheme} {t : Ty} (hf : Follows p θ Γ Δ c)
    (ht : Becomes p θ c t T) (hrun : Runs (generalize Γ (c.subst.apply t)) c s c)
    (hgen : Generalizes Δ T s') : s.Seen (fun _ => True) c ∧ s.Covers p θ s' := by
  have hty := ht.apply hf.suits
  exact ⟨generalize_seen hrun hf.suits.sane hty.seen,
    covers_generalize hf.covers hf.suits.sane.idem hf.suits.exact hf.suits.blurred hrun hty.blur
      hty.exact hgen⟩

/-! ## Trees -/

/-! In every rule the equations are between types that blur one of the
derivation. -/

theorem const_complete {l : Literal} {m : Mark} :
    Complete p Δ [] (.const l m) (.prim l.prim) := by
  intro θ Γ c e' c' hf hrun
  obtain ⟨rfl, rfl⟩ := runs_const hrun
  exact ⟨θ, hf.refl, .prim _⟩

theorem ident_complete {n : Name} {s : Scheme} (hget : Δ.get? n.text = some s)
    (hs : s.Instance T) (hT : T.Exact p) : Complete p Δ [] (.ident n) T := by
  intro θ Γ c e' c' hf hrun
  obtain ⟨s', hget', hcov⟩ := hf.covers.of_right hget
  obtain ⟨t, rfl, ⟨hnone, -⟩ | ⟨s'', hget'', h⟩⟩ := runs_ident hrun
  · rw [hget'] at hnone
    cases hnone
  · rw [hget'] at hget''
    cases hget''
    exact h.leads hf.scope hf.suits (hf.scope.context n.text s' hget') hT (hcov.offers T hT hs)

/-- A name that nothing binds may be in place of anything, if types may be
lost. It is reported, and nothing else is. -/
theorem unbound_complete {x : Name} (hget : Δ.get? x.text = none) (hp : p) (hT : T.Exact p) :
    Complete p Δ [(⟨.unbound x.text, x.mark.span⟩ : TypeError).toDiagnostic] (.ident x) T := by
  intro θ Γ c e' c' hf hrun
  simp only [expr, lookup, hf.covers.unbound hget, runs_bind, runs_pure] at hrun
  obtain ⟨_, _, ⟨rfl, rfl⟩, t, _, ht, rfl, rfl⟩ := hrun
  simp only [settle, runs_bind, runs_report, runs_pure] at ht
  obtain ⟨_, _, rfl, rfl, rfl⟩ := ht
  exact ⟨θ, .report hf.suits _, .lost hp hT⟩

theorem tuple_complete {es : List Expr} {m : Mark} (hes : CompleteAll p Δ k es Ts) :
    Complete p Δ k (.tuple es m) (.tuple Ts) := by
  intro θ Γ c e' c' hf hrun
  obtain ⟨es', hes', rfl⟩ := runs_tuple hrun
  obtain ⟨θ', l, htys⟩ := hes hf hes'
  exact ⟨θ', l, .tuple l.suits.sane htys⟩

theorem unary_complete {op : UnaryOp} {e : Expr} {m : Mark} (he : Complete p Δ k e S)
    (hop : Operates op.builtin [S] T) (hT : T.Exact p) : Complete p Δ k (.unary op e m) T := by
  intro θ Γ c e' c' hf hrun
  obtain ⟨a, c₁, x, d, t, ha, hx, ht, rfl⟩ := runs_unary hrun
  obtain ⟨θ₁, l₁, hty⟩ := he hf ha
  obtain ⟨θ₂, l₂, hres⟩ := applyOperator_leads hx ht (hf.step l₁) (.cons hty .nil) hop hT
    (Builtins.takes_unary op)
  exact ⟨θ₂, l₁.quiet l₂, hres⟩

theorem binary_complete {op : BinaryOp} {l r : Expr} {m : Mark} (hl : Complete p Δ k₁ l S)
    (hr : Complete p Δ k₂ r U) (hop : Operates op.symbol [S, U] T) (hT : T.Exact p) :
    Complete p Δ (k₁ ++ k₂) (.binary op l r m) T := by
  intro θ Γ c e' c' hf hrun
  obtain ⟨a, c₁, b, c₂, x, d, t, ha, hb, hx, ht, rfl⟩ := runs_binary hrun
  obtain ⟨θ₁, l₁, hlty⟩ := hl hf ha
  have hf₁ := hf.step l₁
  obtain ⟨θ₂, l₂, hrty⟩ := hr hf₁ hb
  obtain ⟨θ₃, l₃, hres⟩ := applyOperator_leads hx ht (hf₁.step l₂)
    (.cons (hlty.step hf₁.suits.sane l₂) (.cons hrty .nil)) hop hT (Builtins.takes_binary op)
  exact ⟨θ₃, (l₁.trans l₂).quiet l₃, hres⟩

theorem app_complete {f : Expr} {es : List Expr} {m : Mark} (hcallee : neverFunction f = false)
    (hf : Complete p Δ k₁ f (.curried Ts T)) (hes : CompleteAll p Δ k₂ es Ts) :
    Complete p Δ (k₁ ++ k₂) (.app f es m) T := by
  intro θ Γ c e' c' hfol hrun
  obtain ⟨a, c₁, es', c₂, t, ha, hes', rfl, h⟩ := runs_app hrun
  have hshape : neverFunction a = neverFunction f := by
    have hblank : a.blank = f.blank := expr_blank f ha
    rw [← neverFunction_mapTypes (fun _ => .error) a, ← neverFunction_mapTypes (fun _ => .error) f]
    exact congrArg neverFunction hblank
  rcases h with ⟨hnf, -⟩ | ⟨-, h⟩
  · rw [hshape, hcallee] at hnf
    cases hnf
  · obtain ⟨θ₁, l₁, hfty⟩ := hf hfol ha
    have hf₁ := hfol.step l₁
    obtain ⟨θ₂, l₂, htys⟩ := hes hf₁ hes'
    obtain ⟨θ₃, l₃, hres⟩ := h.leads l₂.suits (hfty.step hf₁.suits.sane l₂) htys
    exact ⟨θ₃, (l₁.trans l₂).quiet l₃, hres⟩

theorem cond_complete {e y : Expr} {n : Option Expr} {m : Mark}
    (he : Complete p Δ k₁ e (.prim .bool)) (hy : Complete p Δ k₂ y T)
    (hn : CompleteElse p Δ k₃ n T) : Complete p Δ (k₁ ++ k₂ ++ k₃) (.cond e y n m) T := by
  intro θ Γ c e' c' hf hrun
  obtain ⟨a, c₁, ok, c₂, b, c₃, n', c₄, ok', ha, hc, hb, hn', hj, rfl⟩ := runs_cond hrun
  obtain ⟨θ₁, l₁, haty⟩ := he hf ha
  have hf₁ := hf.step l₁
  obtain ⟨-, l₂⟩ := hc.leads hf₁.suits (.prim .bool) haty
  have hf₂ := hf₁.step l₂
  obtain ⟨θ₃, l₃, hbty⟩ := hy hf₂ hb
  have hf₃ := hf₂.step l₃
  obtain ⟨θ₄, l₄, helse⟩ := hn hf₃ hn'
  have hbty := hbty.step hf₃.suits.sane l₄
  obtain ⟨rfl, l₅⟩ := hj.leads l₄.suits hbty helse
  exact ⟨θ₄, (((l₁.quiet l₂).trans l₃).trans l₄).quiet l₅,
    (hbty.step l₄.suits.sane l₅).apply l₅.suits⟩

theorem cases_complete {e : Expr} {as : List Arm} {m : Mark} (he : Complete p Δ k₁ e S)
    (has : CompleteArms p Δ k₂ as S T) (hT : T.Exact p) :
    Complete p Δ (k₁ ++ k₂) (.cases e as m) T := by
  intro θ Γ c e' c' hf hrun
  obtain ⟨a, c₁, as', ha, -, has', rfl⟩ := runs_cases hrun
  obtain ⟨θ₁, l₁, haty⟩ := he hf ha
  obtain ⟨θ₂, l₂, hres⟩ := leads_fresh l₁.suits hT
  obtain ⟨θ₃, l₃⟩ := has ((hf.step l₁).step l₂) (haty.step l₁.suits.sane l₂) hres has'
  exact ⟨θ₃, (l₁.quiet l₂).trans l₃, (hres.step l₂.suits.sane l₃).apply l₃.suits⟩

theorem declare_complete {n : Name} {h : Option Hint} {v : Expr} {m : Mark}
    (hv : Complete p Δ k v T) (hann : Annotated h T) : Complete p Δ k (.bind n h v none m) T := by
  intro θ Γ c e' c' hf hrun
  obtain ⟨v', hhead, rfl⟩ := runs_declare hrun
  obtain ⟨θ', l, hty⟩ := bindHead_complete hv hann hf hhead
  exact ⟨θ', l, hty.apply l.suits⟩

theorem let_complete {n : Name} {h : Option Hint} {v b : Expr} {m : Mark} {s : Scheme}
    (hv : Complete p Δ k₁ v S) (hann : Annotated h S) (hgen : Generalizes Δ S s)
    (hb : Complete p (Δ.insert n.text s) k₂ b T) :
    Complete p Δ (k₁ ++ k₂) (.bind n h v (some b) m) T := by
  intro θ Γ c e' c' hf hrun
  obtain ⟨v', c₁, s', b', hhead, hs, hb', rfl⟩ := runs_let hrun
  obtain ⟨θ₁, l₁, hty⟩ := bindHead_complete hv hann hf hhead
  have hf₁ := hf.step l₁
  obtain ⟨hseen, hcov⟩ := generalize_complete hf₁ hty hs hgen
  obtain ⟨θ₂, l₂, hbty⟩ := hb (hf₁.insert hseen hcov n.text) hb'
  exact ⟨θ₂, l₁.trans l₂, hbty⟩

theorem lam_complete {n : Option Name} {ps : List Pattern} {h : Option Hint} {b₀ b : Expr}
    {m : Mark} (hfun : FunctionOf n ps h b₀ T) (hT : T.Exact p)
    (hexact : ∀ q ∈ ps, q.All (Ty.Exact p))
    (hb : Complete p (insideFunction Δ n ps T) k b b₀.ty) :
    Complete p Δ k (.lam n ps h b none m) T := by
  intro θ Γ c e' c' hf hrun
  obtain ⟨ps', b', t, hhead, rfl, rfl⟩ := runs_lam hrun
  obtain ⟨θ', l, hty⟩ := lamHead_complete hfun hT hexact hb hf hhead
  exact ⟨θ', l, hty.apply l.suits⟩

theorem fun_complete {n : Option Name} {ps : List Pattern} {h : Option Hint} {b₀ b r : Expr}
    {m : Mark} {s : Scheme} (hfun : FunctionOf n ps h b₀ S) (hS : S.Exact p)
    (hexact : ∀ q ∈ ps, q.All (Ty.Exact p))
    (hb : Complete p (insideFunction Δ n ps S) k₁ b b₀.ty) (hgen : Generalizes Δ S s)
    (hr : Complete p (bindName Δ n s) k₂ r T) :
    Complete p Δ (k₁ ++ k₂) (.lam n ps h b (some r) m) T := by
  intro θ Γ c e' c' hf hrun
  obtain ⟨ps', b', t', c₁, s', r', hhead, rfl, hs, hr', rfl⟩ := runs_fun hrun
  obtain ⟨θ₁, l₁, hty⟩ := lamHead_complete hfun hS hexact hb hf hhead
  have hf₁ := hf.step l₁
  obtain ⟨hseen, hcov⟩ := generalize_complete hf₁ hty hs hgen
  obtain ⟨θ₂, l₂, hrty⟩ := hr (hf₁.bindName hseen hcov n) hr'
  exact ⟨θ₂, l₁.trans l₂, hrty⟩

/-! ## Whole derivations -/

theorem exprs_complete {es : List Expr} (h : ∀ e ∈ es, Complete p Δ [] e e.ty) :
    CompleteAll p Δ [] es (es.map Expr.ty) := by
  induction es with
  | nil => exact exprs_nil
  | cons e es ih => exact exprs_cons (h e (by simp)) (ih fun d hd => h d (by simp [hd]))

theorem optional_complete {o : Option Expr} (h : ∀ e ∈ o, Complete p Δ [] e e.ty) :
    CompleteElse p Δ [] o (elseTy o) := by
  cases o with
  | none => exact optional_none
  | some e => exact optional_some (h e rfl)

theorem arms_complete {as : List Arm} (harm : ∀ a ∈ as, ArmOf a S T)
    (hexact : ∀ a ∈ as, a.pattern.All (Ty.Exact p))
    (hbody : ∀ a ∈ as, Complete p (Δ.extend a.pattern.bindings) [] a.body T) :
    CompleteArms p Δ [] as S T := by
  induction as with
  | nil => exact arms_nil
  | cons a as ih =>
    obtain ⟨q, e, span⟩ := a
    obtain ⟨hq, hnd, hS, -⟩ := harm (.mk q e span) (by simp)
    exact arms_cons hq hnd (hexact (.mk q e span) (by simp)) hS (hbody (.mk q e span) (by simp))
      (ih (fun a ha => harm a (by simp [ha])) (fun a ha => hexact a (by simp [ha]))
        fun a ha => hbody a (by simp [ha]))

/-- A tree that is a derivation is inferred without an error, and its type is
an instance of the one that is found. -/
theorem expr_complete {e : Expr} (h : Typed Δ e) (he : e.All (Ty.Exact p)) :
    Complete p Δ [] e e.ty := by
  have hty := he.ty
  induction h with
  | @const _ l m hm =>
    rw [show (Expr.const l m).ty = .prim l.prim from hm]
    exact const_complete
  | ident hget hs => exact ident_complete hget hs hty
  | @tuple _ es m _ hm ih =>
    obtain ⟨-, hes⟩ := Expr.all_tuple.mp he
    rw [show (Expr.tuple es m).ty = .tuple (es.map Expr.ty) from hm]
    exact tuple_complete (exprs_complete fun e he => ih e he (hes e he) (hes e he).ty)
  | unary _ hop ih =>
    obtain ⟨-, ha⟩ := Expr.all_unary.mp he
    exact unary_complete (ih ha ha.ty) hop hty
  | binary _ _ hop hl hr =>
    obtain ⟨-, ha, hb⟩ := Expr.all_binary.mp he
    exact binary_complete (hl ha ha.ty) (hr hb hb.ty) hop hty
  | app htyped _ hfun hnil hf hes =>
    obtain ⟨-, ha, hargs⟩ := Expr.all_app.mp he
    exact app_complete (htyped.callee hfun hnil) (hfun ▸ hf ha ha.ty)
      (exprs_complete fun e he => hes e he (hargs e he) (hargs e he).ty)
  | @cond _ e y n m _ hety _ _ hyty hnty ha hy hn =>
    obtain ⟨-, hea, hya, hna⟩ := Expr.all_cond.mp he
    have hyes : Complete p _ [] y m.ty := hyty ▸ hy hya hya.ty
    have hno : CompleteElse p _ [] n m.ty :=
      hnty ▸ optional_complete fun d hd => hn d hd (hna d hd) (hna d hd).ty
    exact cond_complete (hety ▸ ha hea hea.ty) hyes hno
  | @cases Γ e as m _ harm _ ha hbody =>
    obtain ⟨-, hea, has⟩ := Expr.all_cases.mp he
    have harms : ∀ a ∈ as, Complete p (Γ.extend a.pattern.bindings) [] a.body m.ty := fun a ha =>
      (harm a ha).result ▸ hbody a ha (has a ha).2 (has a ha).2.ty
    exact cases_complete (ha hea hea.ty) (arms_complete harm (fun a ha => (has a ha).1) harms) hty
  | @declare _ n h v m _ _ hann hm hv =>
    obtain ⟨-, -, hva, -⟩ := Expr.all_bind.mp he
    rw [show (Expr.bind n h v none m).ty = v.ty from hm]
    exact declare_complete (hv hva hva.ty) hann
  | @bind _ n h v b m _ _ _ hann hgen _ hm hv hb =>
    obtain ⟨-, -, hva, hba⟩ := Expr.all_bind.mp he
    rw [show (Expr.bind n h v (some b) m).ty = b.ty from hm]
    exact let_complete (hv hva hva.ty) hann hgen (hb (hba b rfl) (hba b rfl).ty)
  | lam hfun _ hb =>
    obtain ⟨-, -, hps, hba, -⟩ := Expr.all_lam.mp he
    exact lam_complete hfun hty hps (hb hba hba.ty)
  | @bindFun _ n ps h b r m t _ hfun _ hgen _ hm hb hr =>
    obtain ⟨-, -, hps, hba, hra⟩ := Expr.all_lam.mp he
    have ht : t.Exact p := hfun.exact hps hba.ty
    rw [show (Expr.lam n ps h b (some r) m).ty = r.ty from hm]
    exact fun_complete hfun ht hps (hb hba hba.ty) hgen (hr (hra r rfl) (hra r rfl).ty)

end Infer
end MiniML
