import MiniML.Proofs.Typing.Tracked

/-!
# Free variables are not captured

A substitution is applied to a scheme without renaming the variables that the scheme
quantifies. If a free variable of a scheme came to stand for a type with a quantified
variable in it, that variable would be lost among the free ones of the context, and the next
generalization would quantify what belongs to an enclosing function.

It never comes to that (`Check.declaration_uncaptured`), whatever is inferred and whether or
not it is refused. All states that inference passes through are considered, with all contexts
that are in use there (`Passes`): a part of a tree is entered in a state and a context of its
own (`Enters`), and on the way into a body the set of the variables that may be touched loses
those that were just quantified (`Apart.generalize`). What is done in the smaller set is
done in the larger one too, so nothing is to be said about the way back.

The table of operators has to be closed like the context. A free variable of the table is not
free in the context, so it would be quantified where it first appears, and later uses of the
operator would still meet it.
-/
namespace MiniML

/-- No quantified variable of a scheme with free variables is in `A`. -/
def Scheme.Apart (A : TyVar → Prop) (s : Scheme) : Prop := ∀ v, s.Free v → ∀ q ∈ s.vars, ¬ A q

/-- A scope in which what is quantified stays so: later steps touch `A` only. -/
structure Apart (A : TyVar → Prop) (Γ : Context) (c : Checker) : Prop extends Scoped A Γ c where
  apart : Γ.All (Scheme.Apart A)

variable {A : TyVar → Prop} {Γ Δ : Context} {c c' d : Checker} {s : Scheme} {t : Ty}

theorem Scheme.apart_mono (A : TyVar → Prop) (t : Ty) : (Scheme.mono t).Apart A := by
  simp [Scheme.Apart, Scheme.mono]

namespace Apart

/-- Before anything is known, a closed context is apart from all variables. -/
theorem start (htable : c.builtins.Closed) (hΓ : Γ.Closed) :
    Apart (fun _ => True) Γ (c.knowing .empty) :=
  { Scoped.start htable hΓ with apart := fun x s hx v hv => absurd hv (hΓ x s hx v) }

theorem step (h : Apart A Γ c) (r : Reach A c c') : Apart A Γ c' :=
  { h.toScoped.step r with apart := h.apart }

theorem inside (h : Apart A Γ c) (hseen : Δ.All (Scheme.Seen A c))
    (hapart : Δ.All (Scheme.Apart A)) : Apart A Δ c :=
  { h.toScoped.inside hseen with apart := hapart }

/-- Free variables stand for types over `A`, where no quantified variable is. -/
theorem uncaptured (h : Apart A Γ c) : Γ.Uncaptured c.subst := h.context.uncaptured h.apart

/-- Behind a generalization the quantified variables are not touched any more: they are neither
of the supply nor live. -/
theorem generalize (h : Apart A Γ c) (ht : Seen A c t)
    (hgen : Runs (Infer.generalize Γ t) c s c) :
    Apart (fun v => A v ∧ v ∉ s.vars) Γ c ∧ s.Seen (fun v => A v ∧ v ∉ s.vars) c ∧
      s.Apart fun v => A v ∧ v ∉ s.vars := by
  obtain ⟨-, hbody, hvars⟩ := Infer.runs_generalize hgen
  have hsupply : ∀ v, c.next ≤ v → v ∉ s.vars := fun v hv hvs =>
    Nat.not_lt_of_ge hv (ht v ((hvars v).mp hvs).1).2
  have hlive : ∀ w ∈ Γ.free c.subst, w ∉ s.vars := fun w hw hws => ((hvars w).mp hws).2 hw
  have hscoped : Scoped (fun v => A v ∧ v ∉ s.vars) Γ c := by
    refine ⟨h.sane, fun v hv => ⟨h.supply v hv, hsupply v hv⟩, h.builtins, ?_⟩
    intro x s' hx b hb w hw
    obtain ⟨hA, hlt⟩ := h.context x s' hx b hb w hw
    have hfree := (h.uncaptured.mem_free h.sane.idem).mpr ⟨x, s', b, hx, hb, hw⟩
    exact ⟨⟨hA, hlive w hfree⟩, hlt⟩
  refine ⟨⟨hscoped, fun x s' hx b hb q hq hB => h.apart x s' hx b hb q hq hB.1⟩, ?_,
    fun v _ q hq hB => hB.2 hq⟩
  intro v hv w hw
  have hleaf : v ∈ (c.subst.apply t).leaves := hbody ▸ hv.1
  rw [h.sane.apply_unbound (h.sane.unbound hleaf), Ty.leaves_var, List.mem_singleton] at hw
  obtain ⟨hA, hlt⟩ := ht v hleaf
  exact hw ▸ ⟨⟨hA, hv.2⟩, hlt⟩

end Apart

namespace Infer

/-! ## The states of a run -/

/-- From `c` to `c'` a scrutinee is inferred, a variable is drawn for the result, and the first
arms are inferred. -/
def CasesHead (Γ : Context) (e : Expr) (as : List Arm) (c : Checker) (scrutinee : Ty)
    (c' : Checker) : Prop :=
  ∃ e' c₁ as', Runs (expr Γ e) c e' c₁ ∧ scrutinee = e'.ty ∧ c₁.next < lastVar ∧
    Runs (arms Γ scrutinee (.var c₁.next) true as) { c₁ with next := c₁.next + 1 } as' c'

/-- What an arm begins with: its pattern, which binds `bs`. -/
def ArmHead (scrutinee : Ty) (reachable : Bool) (p : Pattern) (span : Span) (c : Checker)
    (bs : Bindings) (c' : Checker) : Prop :=
  ∃ c₁ c₂ p' c₃, Runs (checkReachable reachable span) c () c₁ ∧
    Runs (checkDistinct [p]) c₁ () c₂ ∧ Runs (pattern p) c₂ (p', bs) c₃ ∧
    Runs (expect scrutinee p'.ty p'.span "match pattern") c₃ () c'

/-- While the first tree is inferred, in the first context and from the first state, inference
of the second one begins, in the second context and in the second state. -/
inductive Enters : Context → Expr → Checker → Context → Expr → Checker → Prop
  | item {Γ : Context} {c d : Checker} {es es' fs : List Expr} {e : Expr} {m : Mark} :
      Runs (exprs Γ es) c es' d → Enters Γ (.tuple (es ++ e :: fs) m) c Γ e d
  | operand {Γ : Context} {c : Checker} {op : UnaryOp} {e : Expr} {m : Mark} :
      Enters Γ (.unary op e m) c Γ e c
  | left {Γ : Context} {c : Checker} {op : BinaryOp} {l r : Expr} {m : Mark} :
      Enters Γ (.binary op l r m) c Γ l c
  | right {Γ : Context} {c d : Checker} {op : BinaryOp} {l l' r : Expr} {m : Mark} :
      Runs (expr Γ l) c l' d → Enters Γ (.binary op l r m) c Γ r d
  | callee {Γ : Context} {c : Checker} {f : Expr} {es : List Expr} {m : Mark} :
      Enters Γ (.app f es m) c Γ f c
  | argument {Γ : Context} {c c₁ d : Checker} {f f' e : Expr} {es es' fs : List Expr} {m : Mark} :
      Runs (expr Γ f) c f' c₁ → Runs (exprs Γ es) c₁ es' d →
      Enters Γ (.app f (es ++ e :: fs) m) c Γ e d
  | condition {Γ : Context} {c : Checker} {e y : Expr} {n : Option Expr} {m : Mark} :
      Enters Γ (.cond e y n m) c Γ e c
  | yes {Γ : Context} {c c₁ d : Checker} {e e' y : Expr} {n : Option Expr} {m : Mark} :
      Runs (expr Γ e) c e' c₁ → Runs (expect (.prim .bool) e'.ty e'.span "if condition") c₁ () d →
      Enters Γ (.cond e y n m) c Γ y d
  | no {Γ : Context} {c c₁ c₂ d : Checker} {e e' y y' n : Expr} {m : Mark} :
      Runs (expr Γ e) c e' c₁ → Runs (expect (.prim .bool) e'.ty e'.span "if condition") c₁ () c₂ →
      Runs (expr Γ y) c₂ y' d → Enters Γ (.cond e y (some n) m) c Γ n d
  | scrutinee {Γ : Context} {c : Checker} {e : Expr} {as : List Arm} {m : Mark} :
      Enters Γ (.cases e as m) c Γ e c
  /-- An arm behind others; it is not reachable if one of them matches everything. -/
  | arm {Γ : Context} {c c₁ d : Checker} {e b : Expr} {as rest : List Arm} {p : Pattern}
      {span : Span} {m : Mark} {t : Ty} {bs : Bindings} :
      CasesHead Γ e as c t c₁ →
      ArmHead t (as.all fun a => !a.pattern.irrefutable) p span c₁ bs d →
      Enters Γ (.cases e (as ++ .mk p b span :: rest) m) c (Γ.extend bs) b d
  | value {Γ : Context} {c : Checker} {n : Name} {h : Option Hint} {v : Expr} {b : Option Expr}
      {m : Mark} : Enters Γ (.bind n h v b m) c Γ v c
  | body {Γ : Context} {c d : Checker} {n : Name} {h : Option Hint} {v v' b : Expr} {m : Mark}
      {s : Scheme} :
      BindHead Γ h v m.span c v' d → Runs (generalize Γ (d.subst.apply v'.ty)) d s d →
      Enters Γ (.bind n h v (some b) m) c (Γ.insert n.text s) b d
  | function {Γ : Context} {c c₁ d : Checker} {n : Option Name} {ps ps' : List Pattern}
      {h : Option Hint} {b : Expr} {r : Option Expr} {m : Mark} {bs : Bindings} :
      c.next < lastVar → Runs (checkDistinct ps) { c with next := c.next + 1 } () c₁ →
      Runs (patterns ps) c₁ (ps', bs) d →
      Enters Γ (.lam n ps h b r m) c ((bindName Γ n (.mono (.var c.next))).extend bs) b d
  | rest {Γ : Context} {c d : Checker} {n : Option Name} {ps ps' : List Pattern} {h : Option Hint}
      {b b' r : Expr} {m : Mark} {s : Scheme} :
      LamHead Γ n ps h b m.span c ps' b' d →
      Runs (generalize Γ (d.subst.apply (.curried (ps'.map Pattern.ty) b'.ty))) d s d →
      Enters Γ (.lam n ps h b (some r) m) c (bindName Γ n s) r d

/-- While the tree is inferred, in the first context and from the first state, the second
context is in use in the second state. These are the states in which a rule begins, in which it
generalizes, and in which it ends, and those behind each of its equations; what else a rule does
leaves the substitution as it is. -/
inductive Passes : Context → Expr → Checker → Context → Checker → Prop
  | start {Γ : Context} {e : Expr} {c : Checker} : Passes Γ e c Γ c
  /-- The rule has ended. At the end of a declaration its type is generalized. -/
  | done {Γ : Context} {e e' : Expr} {c c' : Checker} :
      Runs (expr Γ e) c e' c' → Passes Γ e c Γ c'
  /-- Some arms are done. -/
  | arms {Γ : Context} {c d : Checker} {e : Expr} {as rest : List Arm} {m : Mark} {t : Ty} :
      CasesHead Γ e as c t d → Passes Γ (.cases e (as ++ rest) m) c Γ d
  /-- A value is done, and will be generalized if there is a body. -/
  | value {Γ : Context} {c d : Checker} {n : Name} {h : Option Hint} {v v' : Expr}
      {b : Option Expr} {m : Mark} :
      BindHead Γ h v m.span c v' d → Passes Γ (.bind n h v b m) c Γ d
  /-- A function is done, up to its annotation. -/
  | function {Γ : Context} {c d : Checker} {n : Option Name} {ps ps' : List Pattern}
      {h : Option Hint} {b b' : Expr} {r : Option Expr} {m : Mark} :
      LamHead Γ n ps none b m.span c ps' b' d → Passes Γ (.lam n ps h b r m) c Γ d
  /-- A function is done, and will be generalized if there is a rest. -/
  | annotated {Γ : Context} {c d : Checker} {n : Option Name} {ps ps' : List Pattern}
      {h : Option Hint} {b b' : Expr} {r : Option Expr} {m : Mark} :
      LamHead Γ n ps h b m.span c ps' b' d → Passes Γ (.lam n ps h b r m) c Γ d
  /-- What a part passes through, with a context of the part. -/
  | inside {Γ Γ' Δ : Context} {e e' : Expr} {c c' d : Checker} :
      Enters Γ e c Γ' e' c' → Passes Γ' e' c' Δ d → Passes Γ e c Δ d
  /-- What a part passes through, with the context around it. -/
  | around {Γ Γ' Δ : Context} {e e' : Expr} {c c' d : Checker} :
      Enters Γ e c Γ' e' c' → Passes Γ' e' c' Δ d → Passes Γ e c Γ d

end Infer

/-- While a declaration is checked, the context is in use in the state of the checker. -/
inductive Check.Passes (e : Expr) (w : Workspace) : Context → Checker → Prop
  | start : Passes e w w.context w.checker
  | inferring {Δ : Context} {d : Checker} :
      Infer.Passes w.context e (w.checker.knowing .empty) Δ d → Passes e w Δ d
  | done {r : Bool × Expr} {w' : Workspace} :
      Runs (Check.declaration e) w r w' → Passes e w w'.context w'.checker

/-! ## What a step keeps -/

namespace Infer

theorem casesHead_reach {e : Expr} {as : List Arm} (hsc : Scoped A Γ c)
    (h : CasesHead Γ e as c t c') : Reach A c c' ∧ Seen A c' t := by
  obtain ⟨e', c₁, as', he, rfl, -, has⟩ := h
  obtain ⟨r₁, hseen⟩ := expr_reach e hsc he
  obtain ⟨r₂, hnew⟩ := (hsc.step r₁).fresh
  have hty := r₂.seen r₁.sane hseen.ty
  obtain ⟨r₃, -⟩ := arms_reach (fun a _ => expr_reach a.body) ((hsc.step r₁).step r₂) hty hnew has
  exact ⟨(r₁.trans r₂).trans r₃, r₃.seen r₂.sane hty⟩

/-- The names of patterns have types without quantifiers. -/
theorem PatternsRun.apart {ps ps' : List Pattern} {bs : Bindings} (h : PatternsRun ps c ps' bs c') :
    ∀ b ∈ bs, b.2.Apart A := by
  intro b hb
  rw [h.bindings, List.mem_flatMap] at hb
  obtain ⟨p, -, hb⟩ := hb
  obtain ⟨t, -, hb⟩ := Pattern.mem_bindings hb
  exact hb ▸ Scheme.apart_mono A t

theorem armHead_reach {reachable : Bool} {p : Pattern} {span : Span} {bs : Bindings}
    (hsc : Scoped A Γ c) (ht : Seen A c t) (h : ArmHead t reachable p span c bs c') :
    Reach A c c' ∧ (∀ b ∈ bs, b.2.Seen A c') ∧ ∀ b ∈ bs, b.2.Apart A := by
  obtain ⟨c₁, c₂, p', c₃, hreach, hdistinct, hpattern, hexpect⟩ := h
  obtain ⟨ds, -, rfl⟩ := runs_checkReachable hreach
  have r₀ : Reach A c (c.noting ds) := .noting hsc.sane ds
  have r₁ := r₀.trans (checkDistinct_reach hdistinct r₀.sane)
  have hp := (runs_pattern hpattern).singleton
  obtain ⟨hps, hbs⟩ := hp.seen (hsc.step r₁)
  have r₂ := r₁.trans (.drew hp.drew r₁.sane)
  obtain ⟨ok, he⟩ := runs_expect hexpect
  have r₃ := he.reach r₂.sane (r₂.seen hsc.sane ht) (hps p' (by simp) _ p'.ty_mem_slots)
  exact ⟨r₂.trans r₃, fun b hb v hv => r₃.seen r₂.sane (hbs b hb v hv), hp.apart⟩

theorem condition_reach {e e' : Expr} {d : Checker} {span : Span} {context : String}
    (hsc : Scoped A Γ c) (he : Runs (expr Γ e) c e' d)
    (hexpect : Runs (expect (.prim .bool) e'.ty span context) d () c') : Reach A c c' := by
  obtain ⟨r, hseen⟩ := expr_reach e hsc he
  obtain ⟨ok, hequated⟩ := runs_expect hexpect
  exact r.trans (hequated.reach r.sane (.prim _) hseen.ty)

/-- What is inferred before a part stays in the set, and the context of the part is apart from
a set that is no larger. It is smaller behind a generalization. -/
theorem Enters.apart {e e' : Expr} (h : Enters Γ e c Δ e' c') (ha : Apart A Γ c) :
    Reach A c c' ∧ ∃ B, (∀ v, B v → A v) ∧ Apart B Δ c' := by
  have hsc := ha.toScoped
  have hsame {d : Checker} (r : Reach A c d) :
      Reach A c d ∧ ∃ B, (∀ v, B v → A v) ∧ Apart B Γ d :=
    ⟨r, A, fun _ hv => hv, ha.step r⟩
  cases h with
  | operand | left | callee | condition | scrutinee | value => exact hsame (.refl ha.sane)
  | item hes => exact hsame (exprs_reach (fun e _ => expr_reach e) hsc hes).1
  | right hl => exact hsame (expr_reach _ hsc hl).1
  | argument hf hes =>
    obtain ⟨r, -⟩ := expr_reach _ hsc hf
    exact hsame (r.trans (exprs_reach (fun e _ => expr_reach e) (hsc.step r) hes).1)
  | yes he hexpect => exact hsame (condition_reach hsc he hexpect)
  | no he hexpect hy =>
    have r := condition_reach hsc he hexpect
    exact hsame (r.trans (expr_reach _ (hsc.step r) hy).1)
  | arm hhead harm =>
    obtain ⟨r₁, ht⟩ := casesHead_reach hsc hhead
    obtain ⟨r₂, hseen, hapart⟩ := armHead_reach (hsc.step r₁) ht harm
    have r := r₁.trans r₂
    exact ⟨r, A, fun _ hv => hv,
      (ha.step r).inside ((hsc.step r).context.extend hseen) (ha.apart.extend hapart)⟩
  | body hhead hgen =>
    obtain ⟨r, hseen⟩ := bindHead_reach (expr_reach _) hsc hhead
    obtain ⟨hB, hs, hapart⟩ := (ha.step r).generalize (hseen.ty.apply r.sane) hgen
    exact ⟨r, _, fun _ hv => hv.1, hB.inside (hB.context.insert hs) (hB.apart.insert hapart)⟩
  | function hlt hdistinct hpatterns =>
    obtain ⟨r₀, hself⟩ := hsc.fresh
    have r₁ := checkDistinct_reach (A := A) hdistinct r₀.sane
    have hrun := runs_patterns (fun p _ => runs_pattern) hpatterns
    obtain ⟨-, hbs⟩ := hrun.seen (hsc.step (r₀.trans r₁))
    have r₂ : Reach A _ c' := .drew hrun.drew r₁.sane
    have r := (r₀.trans r₁).trans r₂
    have hself' := r₂.seen r₁.sane (r₁.seen r₀.sane hself)
    exact ⟨r, A, fun _ hv => hv, (ha.step r).inside
      (((hsc.step r).context.bindName (Scheme.seen_mono r.sane hself')).extend hbs)
      ((ha.apart.bindName (Scheme.apart_mono A _)).extend hrun.apart)⟩
  | rest hhead hgen =>
    obtain ⟨r, hty, -⟩ := lamHead_reach (expr_reach _) hsc hhead
    obtain ⟨hB, hs, hapart⟩ := (ha.step r).generalize (hty.apply r.sane) hgen
    exact ⟨r, _, fun _ hv => hv.1, hB.inside (hB.context.bindName hs) (hB.apart.bindName hapart)⟩

/-- All that inference passes through is within reach, and each context in use is apart from
what may still be touched there. -/
theorem Passes.apart {e : Expr} (h : Passes Γ e c Δ d) (ha : Apart A Γ c) :
    Reach A c d ∧ ∃ B, Apart B Δ d := by
  have hsame {Γ : Context} {A : TyVar → Prop} {c d : Checker} (ha : Apart A Γ c)
      (r : Reach A c d) : Reach A c d ∧ ∃ B, Apart B Γ d := ⟨r, A, ha.step r⟩
  induction h generalizing A with
  | start => exact hsame ha (.refl ha.sane)
  | done he => exact hsame ha (expr_reach _ ha.toScoped he).1
  | arms hhead => exact hsame ha (casesHead_reach ha.toScoped hhead).1
  | value hhead => exact hsame ha (bindHead_reach (expr_reach _) ha.toScoped hhead).1
  | function hhead | annotated hhead =>
    exact hsame ha (lamHead_reach (expr_reach _) ha.toScoped hhead).1
  | inside henters _ ih =>
    obtain ⟨r, B, hsub, hB⟩ := henters.apart ha
    obtain ⟨r', hΔ⟩ := ih hB
    exact ⟨r.trans (r'.mono hsub), hΔ⟩
  | around henters _ ih =>
    obtain ⟨r, B, hsub, hB⟩ := henters.apart ha
    exact hsame ha (r.trans ((ih hB).1.mono hsub))

end Infer

/-! ## Declarations -/

namespace Check

/-- Checking any declaration, from a closed context and with a closed table of operators, in
every state that it passes through and for every context that is in use there: what a free
variable of a scheme stands for has none of the variables in it that the scheme quantifies, and
so the free variables of the context are all those that the free variables of its schemes
stand for. -/
theorem declaration_uncaptured {w : Workspace} {e : Expr} {Δ : Context} {d : Checker}
    (htable : w.checker.builtins.Closed) (hcontext : w.context.Closed) (h : Passes e w Δ d) :
    (∀ x s b, Δ.get? x = some s → s.Free b → ∀ q ∈ s.vars, q ∉ (d.subst.apply (.var b)).leaves) ∧
      ∀ v, v ∈ Δ.free d.subst ↔
        ∃ x s b, Δ.get? x = some s ∧ s.Free b ∧ v ∈ (d.subst.apply (.var b)).leaves := by
  have hclosed {Γ : Context} (hΓ : Γ.Closed) (σ : Subst) : Γ.Uncaptured σ ∧ ∀ v, v ∈ Γ.free σ ↔
      ∃ x s b, Γ.get? x = some s ∧ s.Free b ∧ v ∈ (σ.apply (.var b)).leaves :=
    ⟨fun x s b hx hb => absurd hb (hΓ x s hx b), fun v =>
      ⟨fun hv => absurd hv (hΓ.free σ v), fun ⟨x, s, b, hx, hb, _⟩ => absurd hb (hΓ x s hx b)⟩⟩
  cases h with
  | start => exact hclosed hcontext _
  | inferring h =>
    obtain ⟨r, B, hB⟩ := h.apart (.start htable hcontext)
    exact ⟨hB.uncaptured, fun v => hB.uncaptured.mem_free r.sane.idem⟩
  | done h => exact hclosed (closed_declaration hcontext h) _

/-- In `fun y -> let p = fun z -> (y, z) in let r = y 1 in r`, when the type of `y 1` is to be
generalized. The scheme of `p` quantifies the type of `z`; that of `y`, which is free in it, has
become the type of a function since, and the type of its result is not quantified. -/
theorem declaration_uncaptured_pair :
    let name (x : String) : Name := ⟨x, {}⟩
    let use (x : String) : Expr := .ident (name x)
    let pair : Expr := .lam none [.ident (name "z")] none (.tuple [use "y", use "z"] {}) none {}
    let call : Expr := .app (use "y") [.const (.int 1) {}] {}
    let rest : Expr := .bind (name "r") none call (some (use "r")) {}
    let body : Expr := .bind (name "p") none pair (some rest) {}
    let e : Expr := .lam none [.ident (name "y")] none body none {}
    let s : Scheme := ⟨[4], .fn (.var 4) (.tuple [.var 2, .var 4])⟩
    ∃ Δ d, Passes e ⟨.root {}, .empty⟩ Δ d ∧ Δ.get? "p" = some s ∧
      d.subst.apply (.var 2) = .fn (.prim .int) (.var 5) ∧
      4 ∉ (d.subst.apply (.var 2)).leaves ∧ 5 ∈ Δ.free d.subst := by
  intro name use pair call rest body e s
  let Γ : Context := .singleton "y" (.mono (.var 2))
  let c₁ : Checker := { next := 2, builtins := Builtins.context }
  let c₂ : Checker := { c₁ with next := 3 }
  let c₃ : Checker := { c₂ with next := 5, subst := .singleton 3 s.body }
  let d : Checker :=
    { c₃ with next := 6, subst := c₃.subst.assign 2 (.fn (.prim .int) (.var 5)) }
  -- into the function, behind the definition of `p`, and up to the value of `r`
  have hparams : Runs (Infer.patterns [.ident (name "y")]) c₁
      ([.ident ((name "y").typed (.var 2))], [("y", .mono (.var 2))]) c₂ := rfl
  have hdistinct : Runs (Infer.checkDistinct [.ident (name "y")]) c₁ () c₁ := rfl
  have hfunction : Infer.Enters .empty e ((Checker.root {}).knowing .empty) Γ body c₂ :=
    .function (by decide) hdistinct hparams
  have hbody : Infer.Enters Γ body c₂ (Γ.insert "p" s) rest c₃ := .body ⟨c₃, rfl, rfl⟩ rfl
  have hvalue : Infer.Passes (Γ.insert "p" s) rest c₃ (Γ.insert "p" s) d := .value ⟨d, rfl, rfl⟩
  have hpasses : Passes e ⟨.root {}, .empty⟩ (Γ.insert "p" s) d :=
    .inferring (.inside hfunction (.inside hbody hvalue))
  obtain ⟨hapart, hfree⟩ := declaration_uncaptured Builtins.context_closed
    (fun x s hx => by cases hx) hpasses
  have hget : (Γ.insert "p" s).get? "p" = some s := rfl
  have hs : s.Free 2 := ⟨by decide, by decide⟩
  exact ⟨_, d, hpasses, hget, rfl, hapart "p" s 2 hget hs 4 (by decide),
    (hfree 5).mpr ⟨"p", s, 2, hget, hs, by decide⟩⟩

end Check
end MiniML
