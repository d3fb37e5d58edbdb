import MiniML.Proofs.Tree.Unhint
import MiniML.Proofs.Typing.Inline

/-!
# Annotations only narrow

An annotation is a condition on a type that the tree has anyway. So a tree keeps
all its types when annotations are left out, anywhere and at any depth
(`HasType.unhint`), though it may have more of them then, and names that are
bound in it more general schemes.

Results:
* `HasType.unhint`: no type is lost.
* `Check.declaration_unhint`: a declaration that passes still passes without
  some of its annotations, and the type that it had is an instance of the one
  that it has then.
-/
namespace MiniML

variable {Γ : Context} {e : Expr} {T : Ty} {drop : List Nat → Bool}

theorem Annotated.unhint {h : Option Hint} (ha : Annotated h T) (b : Bool) :
    Annotated (if b then none else h) T := by
  cases b with
  | true => exact nofun
  | false => exact ha

namespace HasType

/-- A tree without annotations at any places has the types of the tree. -/
def KeptWithout (e : Expr) : Prop :=
  ∀ ⦃Γ : Context⦄ ⦃T : Ty⦄ (drop : List Nat → Bool), HasType Γ e T → HasType Γ (e.unhint drop) T

theorem unhint_all {es : List Expr} {ts : List Ty} (ih : ∀ e ∈ es, KeptWithout e)
    (h : List.Forall₂ (HasType Γ) es ts) (i : Nat) :
    List.Forall₂ (HasType Γ) (Expr.unhintAll drop i es) ts := by
  induction h generalizing i with
  | nil => exact .nil
  | cons he _ ihs =>
    exact .cons (ih _ (by simp) _ he) (ihs (fun e he => ih e (by simp [he])) (i + 1))

theorem unhint_arms {as : List Arm} {S R : Ty} (ih : ∀ a ∈ as, KeptWithout a.body)
    (h : ∀ a ∈ as, ArmHasType Γ S R a) (i : Nat) :
    ∀ a ∈ Expr.unhintArms drop i as, ArmHasType Γ S R a := by
  induction as generalizing i with
  | nil => exact nofun
  | cons a as ihs =>
    obtain ⟨p, e, s⟩ := a
    obtain ⟨⟨hnd, q, hb, hq, hS, hbody⟩, has⟩ := List.forall_mem_cons.mp h
    refine List.forall_mem_cons.mpr ⟨⟨hnd, q, hb, hq, hS, ?_⟩, ?_⟩
    · exact ih (.mk p e s) (by simp) _ hbody
    · exact ihs (fun a ha => ih a (by simp [ha])) has (i + 1)

theorem unhint_function {n : Option Name} {ps : List Pattern} {h : Option Hint} {b : Expr}
    (ih : KeptWithout b) (hf : FunctionHasType Γ n ps h b T) (k : Bool) :
    FunctionHasType Γ n ps (if k then none else h) (b.unhint drop) T := by
  obtain ⟨hnd, hann, qs, u, hbq, hq, hT, hu⟩ := hf
  exact ⟨hnd, hann.unhint k, qs, u, hbq, hq, hT, ih _ hu⟩

/-- A tree has all its types without its annotations too. -/
theorem unhint (drop : List Nat → Bool) (h : HasType Γ e T) : HasType Γ (e.unhint drop) T := by
  suffices hkept : KeptWithout e from hkept drop h
  clear h
  induction e with
  | const l m => exact fun Γ T drop h => h
  | ident n => exact fun Γ T drop h => h
  | tuple es m ih =>
    intro Γ T drop h
    obtain ⟨ts, hes, rfl⟩ := HasType.tuple.mp h
    exact HasType.tuple.mpr ⟨ts, unhint_all ih hes 0, rfl⟩
  | unary op e m ih =>
    intro Γ T drop h
    obtain ⟨S, hS, hop⟩ := HasType.unary.mp h
    exact HasType.unary.mpr ⟨S, ih _ hS, hop⟩
  | binary op l r m hl hr =>
    intro Γ T drop h
    obtain ⟨S, U, hS, hU, hop⟩ := HasType.binary.mp h
    exact HasType.binary.mpr ⟨S, U, hl _ hS, hr _ hU, hop⟩
  | app f es m hf ih =>
    intro Γ T drop h
    obtain ⟨ts, hty, hes, hnil⟩ := HasType.app.mp h
    refine HasType.app.mpr ⟨ts, hf _ hty, unhint_all ih hes 1, fun h => ?_⟩
    rw [Expr.neverFunction_unhint]
    exact hnil (by cases es <;> simp_all [Expr.unhintAll])
  | cond t y n m ht hy hn =>
    intro Γ T drop h
    obtain ⟨hbool, hyes, hno, hunit⟩ := HasType.cond.mp h
    refine HasType.cond.mpr ⟨ht _ hbool, hy _ hyes, ?_, fun h => ?_⟩
    · rw [Expr.unhintOption_eq, Option.forall_mem_map]
      exact fun e he => hn e he _ (hno e he)
    · exact hunit (Option.map_eq_none_iff.mp (Expr.unhintOption_eq n ▸ h))
  | cases e as m he has =>
    intro Γ T drop h
    obtain ⟨S, hS, harms⟩ := HasType.cases.mp h
    exact HasType.cases.mpr ⟨S, he _ hS, unhint_arms has harms 1⟩
  | bind n k v b m hv hb =>
    intro Γ T drop h
    cases b with
    | none =>
      obtain ⟨hT, hann⟩ := HasType.declare.mp h
      exact HasType.declare.mpr ⟨hv _ hT, hann.unhint _⟩
    | some b =>
      obtain ⟨S, s, hS, hann, hgen, hT⟩ := HasType.bind.mp h
      exact HasType.bind.mpr ⟨S, s, hv _ hS, hann.unhint _, hgen, hb b rfl _ hT⟩
  | lam n ps k b r m hb hr =>
    intro Γ T drop h
    cases r with
    | none => exact HasType.lam.mpr (unhint_function hb (HasType.lam.mp h) _)
    | some r =>
      obtain ⟨t, s, hf, hgen, hT⟩ := HasType.bindFun.mp h
      exact HasType.bindFun.mpr ⟨t, s, unhint_function hb hf _, hgen, hr r rfl _ hT⟩

end HasType

/-! ## Declarations -/

namespace Check

variable {c₁ c₂ : Checker} {d : Expr} {w : Workspace}

/-- Annotations only narrow. Unless the type variables run out, a declaration
that passes in a closed context without the error type passes without any set
of its annotations too, and whatever either check has done before. Its type is
an instance of the type that it has without them, and so is every type at which
its name could be used. -/
theorem declaration_unhint (ht₁ : c₁.builtins = Builtins.context)
    (ht₂ : c₂.builtins = Builtins.context) (hΓ : Γ.Closed) (herr : Γ.ErrorFree)
    (hpass : Check.declaration e ⟨c₁, Γ⟩ = .ok (true, d) w) (drop : List Nat → Bool) :
    (∃ w', Check.declaration (e.unhint drop) ⟨c₂, Γ⟩ = .error .typeVariables w' ∧
        lastVar ≤ w'.checker.next) ∨
    ∃ d' w', Check.declaration (e.unhint drop) ⟨c₂, Γ⟩ = .ok (true, d') w' ∧
      w'.checker.errors = c₂.errors ∧ (∃ θ, d.ty = d'.ty.subst θ) ∧
      ∀ n, e.declared? = some n → ∃ s s', w.context = Γ.insert n.text s ∧
        w'.context = Γ.insert n.text s' ∧ ∀ t, s.Instance t → s'.Instance t := by
  cases hrun : Check.declaration (e.unhint drop) ⟨c₂, Γ⟩ with
  | error x w' =>
    cases x
    exact .inl ⟨w', rfl, (stops_declaration _).spent hrun⟩
  | ok r w' =>
    obtain ⟨p, d'⟩ := r
    obtain ⟨-, hblank, htyped, -, s, hgen, hctx⟩ := declaration_derives ⟨ht₁, hΓ, herr⟩ hpass
    obtain ⟨_, _, _, hinfer, -⟩ := runs_declaration_bindName hrun
    obtain ⟨-, hall⟩ := Infer.declaration_hasType ht₂ hΓ herr hinfer
    have hty : HasType Γ e d.ty := ⟨d, hblank, htyped, rfl⟩
    obtain ⟨rfl, θ, hθ⟩ := hall _ (hty.unhint drop)
    obtain ⟨-, hblank', -, -, s', hgen', hctx'⟩ := declaration_derives ⟨ht₂, hΓ, herr⟩ hrun
    refine .inr ⟨d', w', rfl, errors_of_passed hrun, ⟨θ, hθ.symm⟩, fun n hn =>
      ⟨s, s', ?_, ?_, fun t ht => ?_⟩⟩
    · rw [hctx, Infer.bindName_of_blank hblank, hn]
      rfl
    · rw [hctx', Infer.bindName_of_blank hblank', Expr.declared?_unhint, hn]
      rfl
    · -- both schemes are closed, and have the types of the two declarations as bodies
      obtain ⟨f, -, rfl⟩ := ht
      rw [hgen.body, ← hθ, ← hgen'.body, Ty.subst_subst]
      exact (hgen'.closed hΓ).instance_subst _

/-- `let f : int -> _ = let g : 'a -> 'a = fun x -> x in g` without the annotation
of `f`, and without either. -/
theorem declaration_unhint_nested :
    let w : Workspace := ⟨.root {}, Builtins.context⟩
    let name (x : String) : Name := ⟨x, {}⟩
    let d : Expr := .bind (name "f") (some (.fn (.prim .int) .wildcard))
      (.bind (name "g") (some (.fn (.var "'a") (.var "'a")))
        (.lam none [.ident (name "x")] none (.ident (name "x")) none {})
        (some (.ident (name "g"))) {}) none {}
    ∃ d₀ w₀ d₁ w₁ d₂ w₂, declaration d w = .ok (true, d₀) w₀ ∧
      d₀.ty = .fn (.prim .int) (.prim .int) ∧
      declaration (d.unhint (· == [])) w = .ok (true, d₁) w₁ ∧
      declaration (d.unhint fun _ => true) w = .ok (true, d₂) w₂ ∧
      (∃ v, d₁.ty = .fn (.var v) (.var v)) ∧ (∃ θ, d₀.ty = d₁.ty.subst θ) ∧
      ∃ θ, d₀.ty = d₂.ty.subst θ := by
  intro w name d
  have htype : type? d w = some (.fn (.prim .int) (.prim .int)) := by decide +kernel
  have htype' : type? (d.unhint (· == [])) w = some (.fn (.var 4) (.var 4)) := by decide +kernel
  have htype'' : (type? (d.unhint fun _ => true) w).isSome := by decide +kernel
  obtain ⟨t, ht⟩ := Option.isSome_iff_exists.mp htype''
  obtain ⟨d₀, w₀, h₀, hty₀⟩ := exists_of_type? htype
  obtain ⟨d₁, w₁, h₁, hty₁⟩ := exists_of_type? htype'
  obtain ⟨d₂, w₂, h₂, -⟩ := exists_of_type? ht
  have hinstance {drop : List Nat → Bool} {d' : Expr} {w' : Workspace}
      (h : declaration (d.unhint drop) w = .ok (true, d') w') : ∃ θ, d₀.ty = d'.ty.subst θ := by
    rcases declaration_unhint rfl (rfl : w.checker.builtins = _) Builtins.context_closed
      Builtins.context_errorFree h₀ drop with ⟨_, hstop, -⟩ | ⟨_, _, h', -, hθ, -⟩
    · cases h.symm.trans hstop
    · cases h.symm.trans h'
      exact hθ
  exact ⟨d₀, w₀, d₁, w₁, d₂, w₂, h₀, hty₀, h₁, h₂, ⟨4, hty₁⟩, hinstance h₁, hinstance h₂⟩

end Check
end MiniML
