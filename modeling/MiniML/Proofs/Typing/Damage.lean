import MiniML.Proofs.Tree.Replace
import MiniML.Proofs.Typing.Program

/-!
# One mistake, one error

Put a name that nothing binds in the place of some part of a program that
passes. That name is reported, and no other error is: all that the part had to
do with, and all that depends on its declaration, is checked as before, with
the error type in some places (`Check.program_damaged`).

The induction is on the place. What stands there has a derivation, in which it
has some type (`part_complete`); the name becomes that type by being lost
altogether, and the rules are complete whatever their parts have lost.
-/
namespace MiniML

-- the recursion for names unfolds at its constructors throughout
attribute [local simp] Expr.names Expr.namesAll_eq Expr.namesArms_eq Expr.namesOption_eq

/-! ## Names that nothing binds -/

namespace Context

variable {Γ : Context} {x : String}

theorem unbound_insert {y : String} {s : Scheme} (h : Γ.get? x = none) (hy : x ≠ y) :
    FinMap.get? (Γ.insert y s) x = none := by
  rw [FinMap.get?_insert, if_neg hy, h]

theorem unbound_bindName {n : Option Name} {s : Scheme} (h : Γ.get? x = none)
    (hn : x ∉ n.toList.map Name.text) : (Infer.bindName Γ n s).get? x = none := by
  cases n with
  | none => exact h
  | some n => exact unbound_insert h (by simpa using hn)

theorem get?_extend {bs : List (String × Scheme)} (hx : x ∉ bs.map Prod.fst) :
    (Γ.extend bs).get? x = Γ.get? x := by
  rw [extend, FinMap.get?_insertMany]
  cases hl : FinMap.look x bs.reverse with
  | none => rfl
  | some s => exact absurd (List.mem_map_of_mem (List.mem_reverse.mp (FinMap.look_eq_some hl))) hx

theorem unbound_extend {ps : List Pattern} (h : Γ.get? x = none)
    (hps : x ∉ ps.flatMap Pattern.names) :
    (Γ.extend (ps.flatMap Pattern.bindings)).get? x = none :=
  (get?_extend (Pattern.flatMap_bindings_names ps ▸ hps)).trans h

end Context

/-- The names of a function and of its parameters are in the tree. -/
theorem unbound_insideFunction {Γ : Context} {x : String} {n : Option Name} {ps : List Pattern}
    {h : Option Hint} {b : Expr} {r : Option Expr} {m : Mark} {t : Ty} (hΓ : Γ.get? x = none)
    (hx : x ∉ (Expr.lam n ps h b r m).names) : (insideFunction Γ n ps t).get? x = none := by
  simp only [Expr.names, List.mem_append, not_or] at hx
  exact Context.unbound_extend (Context.unbound_bindName hΓ hx.1.1.1) hx.1.1.2

namespace Infer

variable {p : Prop} {k : Diagnostics} {Δ : Context} {S T : Ty} {x : String}

/-! ## Parts -/

/-- One of the trees may be another one. -/
theorem exprs_set {es : List Expr} {i : Nat} {e d : Expr} (h : ∀ e ∈ es, Complete p Δ [] e e.ty)
    (hi : es[i]? = some e) (hd : Complete p Δ k d e.ty) :
    CompleteAll p Δ k (es.set i d) (es.map Expr.ty) := by
  induction es generalizing i with
  | nil => cases hi
  | cons a es ih =>
    cases i with
    | zero =>
      cases hi
      have hes := exprs_complete fun e he => h e (List.mem_cons_of_mem _ he)
      exact List.append_nil k ▸ exprs_cons hd hes
    | succ i =>
      exact exprs_cons (h a List.mem_cons_self) (ih (fun e he => h e (List.mem_cons_of_mem _ he)) hi)

/-- The body of one of the alternatives may be another one. -/
theorem arms_set {as : List Arm} {i : Nat} {a : Arm} {d : Expr} (harm : ∀ a ∈ as, ArmOf a S T)
    (hexact : ∀ a ∈ as, a.pattern.All (Ty.Exact p))
    (hbody : ∀ a ∈ as, Complete p (Δ.extend a.pattern.bindings) [] a.body T)
    (hi : as[i]? = some a) (hd : Complete p (Δ.extend a.pattern.bindings) k d T) :
    CompleteArms p Δ k (as.set i (.mk a.pattern d a.span)) S T := by
  induction as generalizing i with
  | nil => cases hi
  | cons b as ih =>
    obtain ⟨q, e, span⟩ := b
    obtain ⟨hq, hnd, hS, -⟩ := harm (.mk q e span) List.mem_cons_self
    have hexact' := hexact (.mk q e span) List.mem_cons_self
    have harm' := fun a ha => harm a (List.mem_cons_of_mem _ ha)
    have hexacts := fun a ha => hexact a (List.mem_cons_of_mem _ ha)
    have hbody' := fun a ha => hbody a (List.mem_cons_of_mem _ ha)
    cases i with
    | zero =>
      cases hi
      exact List.append_nil k ▸ arms_cons hq hnd hexact' hS hd (arms_complete harm' hexacts hbody')
    | succ i =>
      exact arms_cons hq hnd hexact' hS (hbody (.mk q e span) List.mem_cons_self)
        (ih harm' hexacts hbody' hi)

/-- The part `q` of `a` has a derivation in `Δ'`, where `x` is not bound, and
what is in its place reports all that the whole reports. -/
structure PartOf (p : Prop) (x : String) (Δ : Context) (a : Expr) (Δ' : Context)
    (q : Expr.Part) : Prop where
  unbound : Δ'.get? x = none
  fresh : x ∉ q.tree.names
  typed : Typed Δ' q.tree
  exact : q.tree.All (Ty.Exact p)
  complete : ∀ {k d}, (neverFunction d = true → neverFunction q.tree = true) →
    Complete p Δ' k d q.tree.ty → Complete p Δ k (q.put d) a.ty

/-- Every part of a derivation has a derivation, and the rule that it is for
does not ask what else is in its place. -/
theorem part_complete {a : Expr} {i : Nat} {q : Expr.Part} (ha : Typed Δ a)
    (hexact : a.All (Ty.Exact p)) (hx : x ∉ a.names) (hΔ : Δ.get? x = none)
    (hq : a.part? i = some q) : ∃ Δ', PartOf p x Δ a Δ' q := by
  have hty := hexact.ty
  have hfresh : x ∉ q.tree.names := fun h => hx (Expr.Part.names_subset hq h)
  cases ha with
  | const _ => cases hq
  | ident _ _ => cases hq
  | @tuple _ es m hes hm =>
    obtain ⟨-, hall⟩ := Expr.all_tuple.mp hexact
    obtain ⟨e, hi, rfl⟩ := Option.map_eq_some_iff.mp hq
    have he := List.mem_of_getElem? hi
    refine ⟨Δ, hΔ, hfresh, hes e he, hall e he, fun _ hd => ?_⟩
    rw [show (Expr.tuple es m).ty = .tuple (es.map Expr.ty) from hm]
    exact tuple_complete (exprs_set (fun e he => expr_complete (hes e he) (hall e he)) hi hd)
  | unary he hop =>
    obtain ⟨-, hall⟩ := Expr.all_unary.mp hexact
    match i with
    | 0 =>
      cases hq
      exact ⟨Δ, hΔ, hfresh, he, hall, fun _ hd => unary_complete hd hop hty⟩
  | @binary _ op l r m hl hr hop =>
    obtain ⟨-, hla, hra⟩ := Expr.all_binary.mp hexact
    match i with
    | 0 =>
      cases hq
      refine ⟨Δ, hΔ, hfresh, hl, hla, fun {k _} _ hd => ?_⟩
      have h := binary_complete (m := m) hd (expr_complete hr hra) hop hty
      rwa [List.append_nil] at h
    | 1 =>
      cases hq
      exact ⟨Δ, hΔ, hfresh, hr, hra, fun _ hd =>
        binary_complete (expr_complete hl hla) hd hop hty⟩
  | @app _ f es m hf hes hfun hnil =>
    obtain ⟨-, hfa, hall⟩ := Expr.all_app.mp hexact
    have hcallee := hf.callee hfun hnil
    have hfty : Complete p Δ [] f (.curried (es.map Expr.ty) m.ty) := hfun ▸ expr_complete hf hfa
    have hargs : ∀ e ∈ es, Complete p Δ [] e e.ty := fun e he => expr_complete (hes e he) (hall e he)
    match i with
    | 0 =>
      cases hq
      refine ⟨Δ, hΔ, hfresh, hf, hfa, fun {k d} hshape hd => ?_⟩
      have hnever : neverFunction d = false :=
        Bool.eq_false_iff.mpr fun h => Bool.eq_false_iff.mp hcallee (hshape h)
      have h := app_complete (m := m) hnever (hfun ▸ hd) (exprs_complete hargs)
      rwa [List.append_nil] at h
    | i + 1 =>
      obtain ⟨e, hi, rfl⟩ := Option.map_eq_some_iff.mp hq
      have he := List.mem_of_getElem? hi
      exact ⟨Δ, hΔ, hfresh, hes e he, hall e he, fun _ hd =>
        app_complete hcallee hfty (exprs_set hargs hi hd)⟩
  | @cond _ e y n m he hety hy hn hyty hnty =>
    obtain ⟨-, hea, hya, hna⟩ := Expr.all_cond.mp hexact
    have htest : Complete p Δ [] e (.prim .bool) := hety ▸ expr_complete he hea
    have hyes : Complete p Δ [] y m.ty := hyty ▸ expr_complete hy hya
    have hno : CompleteElse p Δ [] n m.ty :=
      hnty ▸ optional_complete fun d hd => expr_complete (hn d hd) (hna d hd)
    match i with
    | 0 =>
      cases hq
      refine ⟨Δ, hΔ, hfresh, he, hea, fun {k _} _ hd => ?_⟩
      have h := cond_complete (m := m) (hety ▸ hd) hyes hno
      rwa [List.append_nil, List.append_nil] at h
    | 1 =>
      cases hq
      refine ⟨Δ, hΔ, hfresh, hy, hya, fun {k _} _ hd => ?_⟩
      have h := cond_complete (m := m) htest (hyty ▸ hd) hno
      rwa [List.append_nil] at h
    | 2 =>
      obtain ⟨n, rfl, rfl⟩ := Option.map_eq_some_iff.mp hq
      exact ⟨Δ, hΔ, hfresh, hn n rfl, hna n rfl, fun _ hd =>
        cond_complete htest hyes (optional_some (hnty ▸ hd))⟩
  | @cases _ e as m he harm hbody =>
    obtain ⟨-, hea, hall⟩ := Expr.all_cases.mp hexact
    have hpats : ∀ a ∈ as, a.pattern.All (Ty.Exact p) := fun a ha => (hall a ha).1
    have hbodies : ∀ a ∈ as, Complete p (Δ.extend a.pattern.bindings) [] a.body m.ty := fun a ha =>
      (harm a ha).result ▸ expr_complete (hbody a ha) (hall a ha).2
    match i with
    | 0 =>
      cases hq
      refine ⟨Δ, hΔ, hfresh, he, hea, fun {k _} _ hd => ?_⟩
      have h := cases_complete (m := m) hd (arms_complete harm hpats hbodies) hty
      rwa [List.append_nil] at h
    | i + 1 =>
      obtain ⟨a, hi, rfl⟩ := Option.map_eq_some_iff.mp hq
      have ha := List.mem_of_getElem? hi
      have hnames : x ∉ [a.pattern].flatMap Pattern.names := fun h => hx <| by
        simpa using .inr ⟨a, ha, .inl (by simpa using h)⟩
      have hunbound := Context.unbound_extend hΔ hnames
      rw [List.flatMap_singleton] at hunbound
      refine ⟨_, hunbound, hfresh, hbody a ha, (hall a ha).2, fun _ hd => ?_⟩
      rw [(harm a ha).result] at hd
      exact cases_complete (expr_complete he hea) (arms_set harm hpats hbodies hi hd) hty
  | @declare _ n h v m hv _ hann hm =>
    obtain ⟨-, -, hva, -⟩ := Expr.all_bind.mp hexact
    match i with
    | 0 =>
      cases hq
      refine ⟨Δ, hΔ, hfresh, hv, hva, fun _ hd => ?_⟩
      rw [show (Expr.bind n h v none m).ty = v.ty from hm]
      exact declare_complete hd hann
    | 1 => cases hq
  | @bind _ n h v b m s hv _ hann hgen hb hm =>
    obtain ⟨-, -, hva, hba⟩ := Expr.all_bind.mp hexact
    have hm : (Expr.bind n h v (some b) m).ty = b.ty := hm
    match i with
    | 0 =>
      cases hq
      refine ⟨Δ, hΔ, hfresh, hv, hva, fun {k _} _ hd => ?_⟩
      have hlet := let_complete (m := m) hd hann hgen (expr_complete hb (hba b rfl))
      rw [hm]
      rwa [List.append_nil] at hlet
    | 1 =>
      cases hq
      have hunbound : FinMap.get? (Δ.insert n.text s) x = none :=
        Context.unbound_insert hΔ fun h => hx (by simp [h])
      refine ⟨_, hunbound, hfresh, hb, hba b rfl, fun _ hd => ?_⟩
      rw [hm]
      exact let_complete (expr_complete hv hva) hann hgen hd
  | @lam _ n ps h b m hfun hb =>
    obtain ⟨-, -, hps, hba, -⟩ := Expr.all_lam.mp hexact
    match i with
    | 0 =>
      cases hq
      refine ⟨_, unbound_insideFunction hΔ hx, hfresh, hb, hba, fun _ hd => ?_⟩
      exact lam_complete hfun hty hps hd
    | 1 => cases hq
  | @bindFun _ n ps h b r m t s hfun hb hgen hr hm =>
    obtain ⟨-, -, hps, hba, hra⟩ := Expr.all_lam.mp hexact
    have hm : (Expr.lam n ps h b (some r) m).ty = r.ty := hm
    have ht : t.Exact p := hfun.exact hps hba.ty
    match i with
    | 0 =>
      cases hq
      refine ⟨_, unbound_insideFunction hΔ hx, hfresh, hb, hba, fun {k _} _ hd => ?_⟩
      have hbind := fun_complete (m := m) hfun ht hps hd hgen (expr_complete hr (hra r rfl))
      rw [hm]
      rwa [List.append_nil] at hbind
    | 1 =>
      cases hq
      have hunbound : FinMap.get? (bindName Δ n s) x = none :=
        Context.unbound_bindName hΔ fun h =>
          hx (List.mem_append_left _ (List.mem_append_left _ (List.mem_append_left _ h)))
      refine ⟨_, hunbound, hfresh, hr, hra r rfl, fun _ hd => ?_⟩
      rw [hm]
      exact fun_complete hfun ht hps (expr_complete hb hba) hgen hd

/-! ## Whole trees -/

/-- A name that nothing binds, in place of some part, is all that is reported. -/
theorem replaced_complete {n : Name} {place : List Nat} {a e : Expr} (hp : p)
    (h : a.replaceAt? place (.ident n) = some e) (ha : Typed Δ a) (hexact : a.All (Ty.Exact p))
    (hn : n.text ∉ a.names) (hΔ : Δ.get? n.text = none) :
    Complete p Δ [(⟨.unbound n.text, n.mark.span⟩ : TypeError).toDiagnostic] e a.ty ∧
      (neverFunction e = true → neverFunction a = true) := by
  induction place generalizing a e Δ with
  | nil =>
    cases h
    exact ⟨unbound_complete hΔ hp hexact.ty, nofun⟩
  | cons i place ih =>
    obtain ⟨q, d, hq, hd, rfl⟩ := Expr.replaceAt?_cons.mp h
    obtain ⟨Δ', hpart⟩ := part_complete ha hexact hn hΔ hq
    obtain ⟨hcomplete, hshape⟩ := ih hd hpart.typed hpart.exact hpart.fresh hpart.unbound
    exact ⟨hpart.complete hshape hcomplete, by rw [(Expr.Part.put_same hq d).2]; exact id⟩

end Infer

/-! ## Programs -/

/-- A name that is not in derivations is not bound by them. -/
theorem TypedProgram.unbound {Γ Γ' : Context} {as ds : Program} {x : String}
    (h : TypedProgram Γ as Γ') (hblank : as.map Expr.blank = ds.map Expr.blank)
    (hx : ∀ d ∈ ds, x ∉ d.names) (hΓ : Γ.get? x = none) : Γ'.get? x = none := by
  induction h generalizing ds with
  | nil => exact hΓ
  | @cons Γ Γ' a as s _ _ _ _ ih =>
    obtain ⟨d, ds, rfl⟩ := List.exists_cons_of_ne_nil (l := ds) (by rintro rfl; cases hblank)
    obtain ⟨hd, hds⟩ := List.cons.inj hblank
    refine ih hds (fun d hd => hx d (List.mem_cons_of_mem _ hd)) (Context.unbound_bindName hΓ ?_)
    rw [List.mem_map]
    rintro ⟨n, hn, rfl⟩
    refine hx d List.mem_cons_self ?_
    rw [← Expr.names_of_blank hd]
    exact Expr.declared?_mem_names (Option.mem_toList.mp hn)

namespace Check

variable {w v v' : Workspace} {d d' e e' : Expr} {passed : Bool} {place : List Nat} {x : Name}

/-- With a new name in the place of a proper part, a declaration fails for this
name only, and leaves its own bound to the error type. That covers whatever it
was bound to before. -/
theorem declaration_damaged (hw : w.Clean) (hd : Runs (declaration d) w (true, d') v)
    (hplace : place ≠ []) (hreplace : d.replaceAt? place (.ident x) = some e)
    (hfresh : x.text ∉ d.names) (hunbound : w.context.get? x.text = none)
    (he : Runs (declaration e) w (passed, e') v') :
    passed = false ∧ v'.context = Infer.bindName w.context d.declared? (.mono .error) ∧
      v'.checker.faults = w.checker.faults ++
        [(⟨.unbound x.text, x.mark.span⟩ : TypeError).toDiagnostic] ∧
      v'.Covers True v.context := by
  obtain ⟨-, hblank, htyped, hclean, s, hgen, hctx⟩ := declaration_derives hw hd
  -- the name is put into the derivation
  obtain ⟨e₀, he₀, hblank₀⟩ := Expr.exists_replaceAt? hreplace hblank
  rw [← Expr.names_of_blank hblank] at hfresh
  obtain ⟨hcomplete, -⟩ :=
    Infer.replaced_complete trivial he₀ htyped (fun t ht _ => hclean t ht) hfresh hunbound
  obtain ⟨rfl, hfaults, hcovers⟩ :=
    declaration_leads hw.covers (hcomplete.of_blank hblank₀) (fun _ => trivial) he
  have hdeclared := Expr.declared?_replaceAt? hplace hreplace
  obtain ⟨_, _, _, -, -, -, hfailed, -, herror⟩ := runs_declaration_bindName he
  refine ⟨rfl, ?_, hfaults, ?_⟩
  · rw [hfailed, herror rfl, hdeclared]
  · rw [hctx, Infer.bindName_of_blank hblank, ← hdeclared]
    exact hcovers s hgen

/-- One mistake makes one error. Put a new name in the place of a proper part
of a declaration in a program that passes: unless the variables run out, its
declaration fails, all others still pass, also those that use the name that is
then bound to the error type, and the only error that is reported is that the
new name is not bound. -/
theorem program_damaged {w w₁ : Workspace} {before after ds : Program} {d e : Expr}
    {place : List Nat} {x : Name} (hw : w.Clean)
    (hpass : Check.program (before ++ d :: after) w = .ok (true, ds) w₁)
    (hplace : place ≠ []) (hreplace : d.replaceAt? place (.ident x) = some e)
    (hfresh : ∀ a ∈ before ++ d :: after, x.text ∉ a.names)
    (hunbound : w.context.get? x.text = none) :
    (∃ w', Check.program (before ++ e :: after) w = .error .typeVariables w' ∧
      lastVar ≤ w'.checker.next) ∨
    ∃ bs u e' v as w', Check.program before w = .ok (true, bs) u ∧
      Check.declaration e u = .ok (false, e') v ∧
      v.context = Infer.bindName u.context d.declared? (.mono .error) ∧
      Check.program after v = .ok (true, as) w' ∧
      Check.program (before ++ e :: after) w = .ok (false, bs ++ e' :: as) w' ∧
      w'.checker.faults = w.checker.faults ++
        [(⟨.unbound x.text, x.mark.span⟩ : TypeError).toDiagnostic] := by
  cases hrun : Check.program (before ++ e :: after) w with
  | error err w' =>
    cases err
    exact .inl ⟨w', rfl, (stops_program _).spent hrun⟩
  | ok r w' =>
    -- the program as it was is a row of derivations
    obtain ⟨⟨p₁, bs⟩, u, ⟨p₂, _⟩, hbefore, hrest, heq⟩ := runs_program_append.mp hpass
    obtain ⟨p₃, d', v₁, p₄, cs, hd, hafter, heq'⟩ := runs_program_cons.mp hrest
    obtain ⟨rfl, rfl, rfl⟩ : p₁ = true ∧ p₃ = true ∧ p₄ = true := by
      simp_all
    obtain ⟨hu, hblanks, hbs⟩ := program_derives hw hbefore
    obtain ⟨hv₁, -⟩ := declaration_derives hu hd
    obtain ⟨-, hblanks', hcs⟩ := program_derives hv₁ hafter
    obtain ⟨-, hfaults, -⟩ := program_leads (p := True) hbs hblanks hw.covers hbefore
    have hx := hbs.unbound hblanks (fun a ha => hfresh a (by simp [ha])) hunbound
    -- the new one is the same up to the declaration that differs
    obtain ⟨⟨p₁, bs'⟩, u', ⟨p₂, _⟩, hbefore', hrest', rfl⟩ := runs_program_append.mp hrun
    obtain ⟨rfl, rfl, rfl⟩ : p₁ = true ∧ bs = bs' ∧ u = u' := by
      cases hbefore'.symm.trans hbefore
      exact ⟨rfl, rfl, rfl⟩
    obtain ⟨p₃, e', v, p₄, as, he, hafter', heq'⟩ := runs_program_cons.mp hrest'
    obtain ⟨rfl, rfl⟩ := Prod.mk.inj heq'
    obtain ⟨rfl, hfailed, hfault, hv⟩ :=
      declaration_damaged hu hd hplace hreplace (hfresh d (by simp)) hx he
    -- what is behind it is derived in a context that is covered
    obtain ⟨rfl, hfaults', -⟩ := program_leads hcs hblanks' hv hafter'
    exact .inr ⟨bs, u, e', v, as, w', hbefore, he, hfailed, hafter', rfl,
      by rw [hfaults', hfault, hfaults]⟩

/-- `let pair = (fun n -> n + 1, fun y -> y)` between the definition of `twice` and
a use of both, with a name `oops` in the place of the number. -/
theorem program_damaged_pair :
    let w : Workspace := ⟨.root {}, .empty⟩
    let value (x : String) : Expr := .ident ⟨x, {}⟩
    let var (x : String) : Pattern := .ident ⟨x, {}⟩
    let num (n : Nat) : Expr := .const (.int n) {}
    let twice : Expr := .bind ⟨"twice", {}⟩ none
      (.lam none [var "f", var "x"] none
        (.app (value "f") [.app (value "f") [value "x"] {}] {}) none {}) none {}
    let pair (e : Expr) : Expr := .bind ⟨"pair", {}⟩ none
      (.tuple [.lam none [var "n"] none (.binary .add (value "n") e {}) none {},
        .lam none [var "y"] none (value "y") none {}] {}) none {}
    let use : Expr := .bind ⟨"use", {}⟩ none
      (.cases (value "pair") [.mk (.tuple [var "f", var "g"] {})
        (.app (value "twice") [value "f", .app (value "g") [num 0] {}] {}) {}] {}) none {}
    w.Clean ∧ (pair (num 1)).replaceAt? [0, 0, 0, 1] (value "oops") = some (pair (value "oops")) ∧
      (∃ ds w₁, Check.program [twice, pair (num 1), use] w = .ok (true, ds) w₁) ∧
      ∃ bs u e' v as w', Check.program [twice] w = .ok (true, bs) u ∧
        Check.declaration (pair (value "oops")) u = .ok (false, e') v ∧
        v.context = u.context.insert "pair" (.mono .error) ∧
        Check.program [use] v = .ok (true, as) w' ∧
        w'.checker.faults = [(⟨.unbound "oops", {}⟩ : TypeError).toDiagnostic] := by
  intro w value var num twice pair use
  have hnone : ∀ {P : Scheme → Prop}, w.context.All P := fun {P} x s hx => by cases hx
  have hw : w.Clean := ⟨rfl, hnone, hnone⟩
  have hwhole : passes? [twice, pair (num 1), use] w = some true := by decide +kernel
  have hdamaged : passes? [twice, pair (value "oops"), use] w = some false := by decide +kernel
  obtain ⟨ds, w₁, hpass⟩ := exists_of_passes? hwhole
  obtain ⟨_, _, hend⟩ := exists_of_passes? hdamaged
  have hreplace : (pair (num 1)).replaceAt? [0, 0, 0, 1] (value "oops") =
      some (pair (value "oops")) := rfl
  refine ⟨hw, hreplace, ⟨ds, w₁, hpass⟩, ?_⟩
  rcases @program_damaged w w₁ [twice] [use] ds _ _ _ ⟨"oops", {}⟩ hw hpass (by decide) hreplace
    (by decide) rfl with ⟨_, hstop, -⟩ | ⟨bs, u, e', v, as, w', hbefore, he, hv, hafter, -, hfaults⟩
  · cases hend.symm.trans hstop
  · exact ⟨bs, u, e', v, as, w', hbefore, he, hv, hafter, hfaults⟩

end Check
end MiniML
