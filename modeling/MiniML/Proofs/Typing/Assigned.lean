import MiniML.Proofs.Typing.Frame
import MiniML.Proofs.Typing.History

/-!
# The types that inference assigns

Inference writes a type into every slot when the rule of its node is done, and
later equations may say more about it. `Infer.assigned Γ c e` lists, without a
tree to write into, what a run on `e` from `c` comes to at each slot: for an
expression or a pattern the type that its own call returns, in the context and
in the state in which the run reaches it, and for the name of a `let` or of a
function the type of what is named, as it is known when the name is bound. The
order is that of `Expr.slots`.

Results:
* `Infer.slots_expr`: inference fills every slot with what it assigns to it,
  and no later rule of the run touches the slot again.
* `Check.declaration_slots`: after a declaration is checked, each slot holds
  what the last substitution makes of the type assigned to it.
-/
namespace MiniML

variable {Γ : Context} {c c' : Checker}

namespace Infer

/-! ## Assignments -/

section After

variable {α : Type} {x : Infer α} {a : α} {f : α → Checker → List Ty}

/-- What follows from the result of a step and the state behind it; nothing if
the step does not come to its end. -/
def after (c : Checker) (x : Infer α) (f : α → Checker → List Ty) : List Ty :=
  match x c with
  | .ok a c' => f a c'
  | .error _ _ => []

theorem after_of_runs (h : Runs x c a c') : after c x f = f a c' := by
  rw [after, show x c = _ from h]

end After

/-- The type that a call on a pattern returns. -/
def patternType (c : Checker) (p : Pattern) : List Ty := after c (pattern p) fun r _ => [r.1.ty]

mutual
/-- The types that typing a pattern assigns to its slots. -/
def assignedPattern (c : Checker) : Pattern → List Ty
  | .ident n => patternType c (.ident n)
  | .wildcard m => patternType c (.wildcard m)
  | .literal l m => patternType c (.literal l m)
  | .tuple ps m => patternType c (.tuple ps m) ++ assignedPatterns c ps
/-- The types that typing patterns one after the other assigns to their slots. -/
def assignedPatterns (c : Checker) : List Pattern → List Ty
  | [] => []
  | p :: ps => assignedPattern c p ++ after c (pattern p) fun _ c => assignedPatterns c ps
end

/-- The type that a call on an expression returns. -/
def exprType (Γ : Context) (c : Checker) (e : Expr) : List Ty := after c (expr Γ e) fun e _ => [e.ty]

/-- The value of a `let`, and the type that its name is bound to before it is
generalized. -/
def letHead (Γ : Context) (h : Option Hint) (v : Expr) (span : Span) : Infer (Expr × Ty) := do
  let v ← expr Γ v
  annotate h v.ty span
  return (v, ← resolve v.ty)

/-- The variable for a function itself, its parameters, and the context of its
body. -/
def enterFunction (Γ : Context) (n : Option Name) (ps : List Pattern) :
    Infer (Ty × List Pattern × Context) := do
  let self ← fresh
  checkDistinct ps
  let (ps, bs) ← patterns ps
  return (self, ps, (bindName Γ n (.mono self)).extend bs)

/-- The parameters and the body of a function, and the type that its name is
bound to before it is generalized. -/
def functionHead (Γ : Context) (n : Option Name) (ps : List Pattern) (h : Option Hint) (b : Expr)
    (span : Span) : Infer (List Pattern × Expr × Ty) := do
  let (self, ps, Δ) ← enterFunction Γ n ps
  let b ← expr Δ b
  let t := Ty.curried (ps.map Pattern.ty) b.ty
  expect self t span "recursive use of the function"
  annotate h t span
  return (ps, b, ← resolve t)

/-- The context of the body of an alternative. -/
def enterArm (Γ : Context) (scrutinee : Ty) (reachable : Bool) (p : Pattern) (span : Span) :
    Infer Context := do
  checkReachable reachable span
  checkDistinct [p]
  let (p, bs) ← pattern p
  expect scrutinee p.ty p.span "match pattern"
  return Γ.extend bs

mutual
/-- The types that inference from `c` assigns to the slots of an expression. -/
def assigned (Γ : Context) (c : Checker) : Expr → List Ty
  | .const l m => exprType Γ c (.const l m)
  | .ident n => exprType Γ c (.ident n)
  | .tuple es m => exprType Γ c (.tuple es m) ++ assignedAll Γ c es
  | .unary op e m => exprType Γ c (.unary op e m) ++ assigned Γ c e
  | .binary op l r m =>
    exprType Γ c (.binary op l r m) ++
      (assigned Γ c l ++ after c (expr Γ l) fun _ c => assigned Γ c r)
  | .app f es m =>
    exprType Γ c (.app f es m) ++
      (assigned Γ c f ++ after c (expr Γ f) fun _ c => assignedAll Γ c es)
  | .cond e y n m =>
    exprType Γ c (.cond e y n m) ++
      (assigned Γ c e ++
        after c (do let e ← expr Γ e; expect (.prim .bool) e.ty e.span "if condition") fun _ c =>
          assigned Γ c y ++ after c (expr Γ y) fun _ c => assignedOption Γ c n)
  | .cases e as m =>
    exprType Γ c (.cases e as m) ++
      (assigned Γ c e ++
        after c (do let e ← expr Γ e; return (e.ty, ← fresh)) fun r c =>
          assignedArms Γ r.1 r.2 true c as)
  | .bind n h v b m =>
    exprType Γ c (.bind n h v b m) ++
      (after c (letHead Γ h v m.span) (fun r _ => [r.2]) ++
        (assigned Γ c v ++
          after c (do generalize Γ (← letHead Γ h v m.span).2) fun s c =>
            assignedOption (Γ.insert n.text s) c b))
  | .lam n ps h b r m =>
    exprType Γ c (.lam n ps h b r m) ++
      (n.toList.flatMap (fun _ => after c (functionHead Γ n ps h b m.span) fun r _ => [r.2.2]) ++
        after c (do let _ ← fresh; checkDistinct ps) (fun _ c => assignedPatterns c ps) ++
        after c (enterFunction Γ n ps) (fun r c => assigned r.2.2 c b) ++
        after c (do generalize Γ (← functionHead Γ n ps h b m.span).2.2) fun s c =>
          assignedOption (bindName Γ n s) c r)
/-- The types that inference assigns to the slots of expressions, from left to
right. -/
def assignedAll (Γ : Context) (c : Checker) : List Expr → List Ty
  | [] => []
  | e :: es => assigned Γ c e ++ after c (expr Γ e) fun _ c => assignedAll Γ c es
/-- The types that inference assigns to the slots of a part that may be
missing. -/
def assignedOption (Γ : Context) (c : Checker) : Option Expr → List Ty
  | none => []
  | some e => assigned Γ c e
/-- The types that inference assigns to the slots of alternatives. -/
def assignedArms (Γ : Context) (scrutinee result : Ty) (reachable : Bool) (c : Checker) :
    List Arm → List Ty
  | [] => []
  | .mk p e span :: as =>
    after c (do checkReachable reachable span; checkDistinct [p]) (fun _ c => assignedPattern c p) ++
      after c (enterArm Γ scrutinee reachable p span) (fun Δ c => assigned Δ c e) ++
      after c (do
          let Δ ← enterArm Γ scrutinee reachable p span
          let e ← expr Δ e
          expect result e.ty e.span "match arms")
        fun _ c => assignedArms Γ scrutinee result (reachable && !p.irrefutable) c as
end

/-! ## Patterns -/

section Patterns

variable {ps ps' : List Pattern} {p p' : Pattern} {bs : Bindings}

/-- Every run on `p` fills its slots with what it assigns to them. -/
def FillsPattern (p : Pattern) : Prop :=
  ∀ {c : Checker} {p' : Pattern} {bs : Bindings} {c' : Checker},
    Runs (pattern p) c (p', bs) c' → p'.slots = assignedPattern c p

theorem patternType_of_runs (h : Runs (pattern p) c (p', bs) c') : patternType c p = [p'.ty] :=
  after_of_runs h

theorem slots_patterns (h : ∀ p ∈ ps, FillsPattern p) (hrun : Runs (patterns ps) c (ps', bs) c') :
    Pattern.slotsOfItems ps' = assignedPatterns c ps := by
  induction ps generalizing c ps' bs with
  | nil =>
    simp only [patterns, runs_pure, Prod.mk.injEq] at hrun
    obtain ⟨⟨rfl, -⟩, -⟩ := hrun
    rfl
  | cons p ps ih =>
    simp only [patterns, runs_bind, runs_pure, Prod.mk.injEq] at hrun
    obtain ⟨⟨p', bs₁⟩, c₁, hp, ⟨qs, bs₂⟩, _, hps, ⟨rfl, -⟩, rfl⟩ := hrun
    rw [Pattern.slotsOfItems, assignedPatterns, after_of_runs hp, h p (by simp) hp,
      ih (fun q hq => h q (by simp [hq])) hps]

theorem slots_pattern (p : Pattern) : FillsPattern p := by
  induction p with
  | ident n =>
    intro c p' bs c' hrun
    rw [assignedPattern, patternType_of_runs hrun]
    simp only [pattern, runs_bind, runs_pure, Prod.mk.injEq] at hrun
    obtain ⟨t, _, -, ⟨rfl, -⟩, -⟩ := hrun
    rfl
  | wildcard m =>
    intro c p' bs c' hrun
    rw [assignedPattern, patternType_of_runs hrun]
    simp only [pattern, runs_bind, runs_pure, Prod.mk.injEq] at hrun
    obtain ⟨t, _, -, ⟨rfl, -⟩, -⟩ := hrun
    rfl
  | literal l m =>
    intro c p' bs c' hrun
    rw [assignedPattern, patternType_of_runs hrun]
    simp only [pattern, runs_pure, Prod.mk.injEq] at hrun
    obtain ⟨⟨rfl, -⟩, -⟩ := hrun
    rfl
  | tuple ps m ih =>
    intro c p' bs c' hrun
    rw [assignedPattern, patternType_of_runs hrun]
    simp only [pattern, runs_bind, runs_pure, Prod.mk.injEq] at hrun
    obtain ⟨⟨qs, bs₁⟩, _, hps, ⟨rfl, -⟩, -⟩ := hrun
    rw [Pattern.slots, slots_patterns ih hps]
    rfl

end Patterns

/-! ## Expressions -/

section Expressions

variable {e' : Expr}

/-- Every run on `e` fills its slots with what it assigns to them. -/
def Fills (e : Expr) : Prop :=
  ∀ {Γ : Context} {c : Checker} {e' : Expr} {c' : Checker},
    Runs (expr Γ e) c e' c' → e'.slots = assigned Γ c e

theorem exprType_of_runs {e : Expr} (h : Runs (expr Γ e) c e' c') : exprType Γ c e = [e'.ty] :=
  after_of_runs h

theorem slots_exprs {es es' : List Expr} (h : ∀ e ∈ es, Fills e)
    (hrun : Runs (exprs Γ es) c es' c') : Expr.slotsAll es' = assignedAll Γ c es := by
  induction es generalizing c es' with
  | nil =>
    obtain ⟨rfl, -⟩ := runs_pure.mp hrun
    rfl
  | cons e es ih =>
    obtain ⟨a, c₁, as, ha, has, rfl⟩ := runs_exprs_cons hrun
    rw [Expr.slotsAll, assignedAll, after_of_runs ha, h e (by simp) ha,
      ih (fun d hd => h d (by simp [hd])) has]

theorem slots_optional {o o' : Option Expr} (h : ∀ e ∈ o, Fills e)
    (hrun : Runs (optional Γ o) c o' c') : Expr.slotsOption o' = assignedOption Γ c o := by
  cases o with
  | none =>
    obtain ⟨rfl, -⟩ := runs_pure.mp hrun
    rfl
  | some e =>
    obtain ⟨a, ha, rfl⟩ := runs_optional_some hrun
    exact h e rfl ha

theorem slots_arms {as as' : List Arm} {s r : Ty} {reachable : Bool}
    (h : ∀ a ∈ as, Fills a.body) (hrun : Runs (arms Γ s r reachable as) c as' c') :
    Expr.slotsArms as' = assignedArms Γ s r reachable c as := by
  induction as generalizing c as' reachable with
  | nil =>
    obtain ⟨rfl, -⟩ := runs_pure.mp hrun
    rfl
  | cons a as ih =>
    obtain ⟨p, e, span⟩ := a
    simp only [arms, runs_bind, runs_pure] at hrun
    obtain ⟨_, c₁, hr, _, c₂, hd, ⟨p', bs⟩, c₃, hp, _, c₄, hs, b, c₅, hb, _, c₆, he, rest, _,
      hrest, rfl, rfl⟩ := hrun
    have hstart : Runs (do checkReachable reachable span; checkDistinct [p]) c () c₂ :=
      runs_bind.mpr ⟨_, _, hr, hd⟩
    have henter : Runs (enterArm Γ s reachable p span) c (Γ.extend bs) c₄ := by
      simp only [enterArm, runs_bind, runs_pure]
      exact ⟨_, _, hr, _, _, hd, _, _, hp, _, _, hs, rfl, rfl⟩
    have hnext : Runs (do
        let Δ ← enterArm Γ s reachable p span
        let e ← expr Δ e
        expect r e.ty e.span "match arms") c () c₆ :=
      runs_bind.mpr ⟨_, _, henter, runs_bind.mpr ⟨_, _, hb, he⟩⟩
    rw [Expr.slotsArms, assignedArms, after_of_runs hstart, after_of_runs henter,
      after_of_runs hnext, slots_pattern p hp, h (.mk p e span) (by simp) hb,
      ih (fun a ha => h a (by simp [ha])) hrest]
    rfl

theorem exists_generalize (Γ : Context) (t : Ty) (c : Checker) :
    ∃ s, Runs (generalize Γ t) c s c := by
  simp only [generalize, runs_bind, runs_subst, runs_pure]
  exact ⟨_, _, _, ⟨rfl, rfl⟩, rfl, rfl⟩

/-- A `let` is its head, and then the rest, if there is one, with the name
generalized. -/
theorem runs_bind_head {n : Name} {h : Option Hint} {v : Expr} {b : Option Expr} {m : Mark}
    (hrun : Runs (expr Γ (.bind n h v b m)) c e' c') :
    ∃ v' t c₁ s b', Runs (letHead Γ h v m.span) c (v', t) c₁ ∧ Runs (generalize Γ t) c₁ s c₁ ∧
      Runs (optional (Γ.insert n.text s) b) c₁ b' c' ∧
      e' = .bind (n.typed t) h v' b' (m.typed e'.ty) := by
  cases b with
  | none =>
    simp only [expr, runs_bind, runs_pure] at hrun
    obtain ⟨v', c₁, hv, _, c₂, ha, t, c₃, ht, rfl, rfl⟩ := hrun
    obtain ⟨s, hs⟩ := exists_generalize Γ t c'
    refine ⟨v', t, c', s, none, ?_, hs, runs_pure.mpr ⟨rfl, rfl⟩, rfl⟩
    simp only [letHead, runs_bind, runs_pure]
    exact ⟨_, _, hv, _, _, ha, _, _, ht, rfl, rfl⟩
  | some b =>
    simp only [expr, runs_bind, runs_pure] at hrun
    obtain ⟨v', c₁, hv, _, c₂, ha, t, c₃, ht, s, c₄, hs, b', _, hb, rfl, rfl⟩ := hrun
    obtain rfl := (runs_generalize hs).1
    refine ⟨v', t, c₄, s, some b', ?_, hs, ?_, rfl⟩
    · simp only [letHead, runs_bind, runs_pure]
      exact ⟨_, _, hv, _, _, ha, _, _, ht, rfl, rfl⟩
    · simp only [optional, runs_bind, runs_pure]
      exact ⟨_, _, hb, rfl, rfl⟩

/-- The run of the head of a function, from the steps that it consists of. -/
theorem functionHead_of_runs {n : Option Name} {ps ps' : List Pattern} {bs : Bindings}
    {h : Option Hint} {b b' : Expr} {span : Span} {self t : Ty} {c₁ c₂ c₃ c₄ c₅ c₆ : Checker}
    {Δ : Context} (hΔ : Δ = (bindName Γ n (.mono self)).extend bs)
    (hself : Runs fresh c self c₁) (hd : Runs (checkDistinct ps) c₁ () c₂)
    (hps : Runs (patterns ps) c₂ (ps', bs) c₃) (hb : Runs (expr Δ b) c₃ b' c₄)
    (he : Runs (expect self (Ty.curried (ps'.map Pattern.ty) b'.ty) span
      "recursive use of the function") c₄ () c₅)
    (ha : Runs (annotate h (Ty.curried (ps'.map Pattern.ty) b'.ty) span) c₅ () c₆)
    (ht : Runs (resolve (Ty.curried (ps'.map Pattern.ty) b'.ty)) c₆ t c') :
    Runs (functionHead Γ n ps h b span) c (ps', b', t) c' := by
  subst hΔ
  simp only [functionHead, enterFunction, runs_bind, runs_pure]
  exact ⟨_, _, ⟨_, _, hself, _, _, hd, _, _, hps, rfl, rfl⟩, _, _, hb, _, _, he, _, _, ha, _, _, ht,
    rfl, rfl⟩

/-- A function is its head, and then the rest, if there is one, with the name
generalized. -/
theorem runs_lam_head {n : Option Name} {ps : List Pattern} {h : Option Hint} {b : Expr}
    {r : Option Expr} {m : Mark} (hrun : Runs (expr Γ (.lam n ps h b r m)) c e' c') :
    ∃ ps' b' t c₁ s r', Runs (functionHead Γ n ps h b m.span) c (ps', b', t) c₁ ∧
      Runs (generalize Γ t) c₁ s c₁ ∧ Runs (optional (bindName Γ n s) r) c₁ r' c' ∧
      e' = .lam (n.map (Name.typed · t)) ps' h b' r' (m.typed e'.ty) := by
  cases r with
  | none =>
    simp only [expr, runs_bind, runs_pure] at hrun
    obtain ⟨self, c₁, hself, _, c₂, hd, ⟨ps', bs⟩, c₃, hp, b', c₄, hb, _, c₅, he, _, c₆, ha, t, c₇,
      ht, rfl, rfl⟩ := hrun
    obtain ⟨s, hs⟩ := exists_generalize Γ t c'
    exact ⟨ps', b', t, c', s, none, functionHead_of_runs rfl hself hd hp hb he ha ht, hs,
      runs_pure.mpr ⟨rfl, rfl⟩, rfl⟩
  | some r =>
    simp only [expr, runs_bind, runs_pure] at hrun
    obtain ⟨self, c₁, hself, _, c₂, hd, ⟨ps', bs⟩, c₃, hp, b', c₄, hb, _, c₅, he, _, c₆, ha, t, c₇,
      ht, s, c₈, hs, r', _, hr, rfl, rfl⟩ := hrun
    obtain rfl := (runs_generalize hs).1
    refine ⟨ps', b', t, c₈, s, some r', functionHead_of_runs rfl hself hd hp hb he ha ht, hs, ?_,
      rfl⟩
    simp only [optional, runs_bind, runs_pure]
    exact ⟨_, _, hr, rfl, rfl⟩

/-- Inference fills every slot with what it assigns to it. -/
theorem slots_expr (e : Expr) : Fills e := by
  induction e with
  | const l m =>
    intro Γ c e' c' hrun
    rw [assigned, exprType_of_runs hrun]
    obtain ⟨rfl, -⟩ := runs_const hrun
    rfl
  | ident n =>
    intro Γ c e' c' hrun
    rw [assigned, exprType_of_runs hrun]
    obtain ⟨t, rfl, -⟩ := runs_ident hrun
    rfl
  | tuple es m ih =>
    intro Γ c e' c' hrun
    rw [assigned, exprType_of_runs hrun]
    obtain ⟨es', hes, rfl⟩ := runs_tuple hrun
    rw [Expr.slots, slots_exprs ih hes]
    rfl
  | unary op e m ih =>
    intro Γ c e' c' hrun
    rw [assigned, exprType_of_runs hrun]
    obtain ⟨a, c₁, x, d, t, ha, -, -, rfl⟩ := runs_unary hrun
    rw [Expr.slots, ih ha]
    rfl
  | binary op l r m hl hr =>
    intro Γ c e' c' hrun
    rw [assigned, exprType_of_runs hrun]
    obtain ⟨a, c₁, b, c₂, x, d, t, ha, hb, -, -, rfl⟩ := runs_binary hrun
    rw [Expr.slots, hl ha, hr hb, after_of_runs ha]
    rfl
  | app f es m hf ih =>
    intro Γ c e' c' hrun
    rw [assigned, exprType_of_runs hrun]
    obtain ⟨a, c₁, es', c₂, t, ha, hes, rfl, -⟩ := runs_app hrun
    rw [Expr.slots, hf ha, slots_exprs ih hes, after_of_runs ha]
    rfl
  | cond e y n m he hy hn =>
    intro Γ c e' c' hrun
    rw [assigned, exprType_of_runs hrun]
    simp only [expr, runs_bind, runs_pure] at hrun
    obtain ⟨a, c₁, ha, _, c₂, hc, b, c₃, hb, n', c₄, hn', _, _, -, _, _, -, rfl, -⟩ := hrun
    have htest : Runs (do let e ← expr Γ e; expect (.prim .bool) e.ty e.span "if condition")
        c () c₂ := runs_bind.mpr ⟨_, _, ha, hc⟩
    rw [Expr.slots, he ha, hy hb, slots_optional hn hn', after_of_runs htest, after_of_runs hb,
      List.append_assoc]
    rfl
  | cases e as m he has =>
    intro Γ c e' c' hrun
    rw [assigned, exprType_of_runs hrun]
    simp only [expr, runs_bind, runs_pure] at hrun
    obtain ⟨a, c₁, ha, t, c₂, ht, as', c₃, has', _, _, -, rfl, -⟩ := hrun
    have hstart : Runs (do let e ← expr Γ e; return (e.ty, ← fresh)) c (a.ty, t) c₂ := by
      simp only [runs_bind, runs_pure]
      exact ⟨_, _, ha, _, _, ht, rfl, rfl⟩
    rw [Expr.slots, he ha, slots_arms has has', after_of_runs hstart]
    rfl
  | bind n h v b m hv hb =>
    intro Γ c e' c' hrun
    rw [assigned, exprType_of_runs hrun]
    obtain ⟨v', t, c₁, s, b', hhead, hs, hb', he'⟩ := runs_bind_head hrun
    have hgen : Runs (do generalize Γ (← letHead Γ h v m.span).2) c s c₁ :=
      runs_bind.mpr ⟨_, _, hhead, hs⟩
    rw [after_of_runs hhead, after_of_runs hgen, ← slots_optional hb hb', he', Expr.slots]
    simp only [letHead, runs_bind, runs_pure, Prod.mk.injEq] at hhead
    obtain ⟨a, _, ha, _, _, -, _, _, -, ⟨rfl, -⟩, -⟩ := hhead
    rw [hv ha]
    rfl
  | lam n ps h b r m hb hr =>
    intro Γ c e' c' hrun
    rw [assigned, exprType_of_runs hrun]
    obtain ⟨ps', b', t, c₁, s, r', hhead, hs, hr', he'⟩ := runs_lam_head hrun
    have hgen : Runs (do generalize Γ (← functionHead Γ n ps h b m.span).2.2) c s c₁ :=
      runs_bind.mpr ⟨_, _, hhead, hs⟩
    rw [after_of_runs hhead, after_of_runs hgen, ← slots_optional hr hr', he', Expr.slots]
    simp only [functionHead, enterFunction, runs_bind, runs_pure, Prod.mk.injEq] at hhead
    obtain ⟨_, c₃, ⟨self, c₄, hself, _, c₅, hd, ⟨qs, bs⟩, _, hps, rfl, rfl⟩, a, _, ha, _, _, -, _, _,
      -, _, _, -, ⟨rfl, rfl, -⟩, -⟩ := hhead
    have hstart : Runs (do let _ ← fresh; checkDistinct ps) c () c₅ :=
      runs_bind.mpr ⟨_, _, hself, hd⟩
    have henter : Runs (enterFunction Γ n ps) c
        (self, ps', (bindName Γ n (.mono self)).extend bs) c₃ := by
      simp only [enterFunction, runs_bind, runs_pure]
      exact ⟨_, _, hself, _, _, hd, _, _, hps, rfl, rfl⟩
    rw [after_of_runs hstart, after_of_runs henter,
      slots_patterns (fun p _ => slots_pattern p) hps, hb ha]
    cases n <;> rfl

end Expressions

/-! ## Idempotence -/

/-- Only equations change the substitution, and they keep it idempotent. No
assumption about the context is needed for this. -/
theorem Draws.idempotent {α : Type} {x : Infer α} {vs : List TyVar} (h : Draws x c vs)
    (hc : c.subst.Idempotent) : (afterwards (x c)).subst.Idempotent := by
  induction h with
  | pure | get | push => exact hc
  | forget => exact Subst.idempotent_empty
  | equate t u c =>
    have hequate : Runs (Infer.equate t u) c _ _ := runs_equate.mpr ⟨rfl, rfl⟩
    rw [show Infer.equate t u c = _ from hequate]
    exact (unify_grows hc rfl).1
  | fresh h =>
    rw [show Infer.fresh _ = _ from h]
    obtain ⟨-, -, rfl⟩ := runs_fresh.mp h
    exact hc
  | exhausted h =>
    rw [h, (fresh_stuck h).2]
    exact hc
  | bind _ hx _ ih₁ ih₂ =>
    rw [bind_of_runs hx]
    rw [show _ = _ from hx] at ih₁
    exact ih₂ (ih₁ hc)
  | cut _ hx ih =>
    rw [bind_of_error hx]
    rw [hx] at ih
    exact ih hc

theorem idempotent_expr {e e' : Expr} (h : Runs (expr Γ e) c e' c') (hc : c.subst.Idempotent) :
    c'.subst.Idempotent := by
  obtain ⟨vs, hvs⟩ := (framed_expr Γ e).draws c
  have := hvs.idempotent hc
  rwa [show expr Γ e c = _ from h] at this

end Infer

/-! ## Declarations -/

namespace Check

/-- Whether a declaration passes or fails, in any environment and whatever its
slots held before: the tree that comes back is the one that was given, each of
its slots holds what the final substitution makes of the type that inference
assigned to it, and so no slot mentions a variable that is bound, and to apply
the substitution again changes nothing. -/
theorem declaration_slots {w w' : Workspace} {d d' : Expr} {passed : Bool}
    (h : declaration d w = .ok (passed, d') w') :
    d'.blank = d.blank ∧
      d'.slots = (Infer.assigned w.context (w.checker.knowing .empty) d).map
        w'.checker.subst.apply ∧
      (∀ t ∈ d'.slots, ∀ v ∈ t.leaves, w'.checker.subst.get? v = none) ∧
      d'.mapTypes w'.checker.subst.apply = d' ∧
      ∀ d₀ : Expr, d₀.blank = d.blank → declaration d₀ w = .ok (passed, d') w' := by
  obtain ⟨c, ds, hinfer, -, hc, -, -⟩ := runs_declaration h
  obtain ⟨e, he, -, rfl⟩ := Infer.runs_declaration hinfer
  have hsubst : w'.checker.subst = c.subst := by rw [hc]; rfl
  have hidem : c.subst.Idempotent := Infer.idempotent_expr he Subst.idempotent_empty
  rw [hsubst]
  refine ⟨?_, ?_, fun t ht v hv => ?_, ?_, fun d₀ hd₀ => ?_⟩
  · rw [Expr.blank, Expr.mapTypes_mapTypes]
    exact Infer.expr_blank d he
  · rw [Expr.mapTypes_slots, Infer.slots_expr d he]
  · rw [Expr.mapTypes_slots] at ht
    obtain ⟨u, -, rfl⟩ := List.mem_map.mp ht
    exact Subst.get?_of_mem_apply hidem hv
  · rw [Expr.mapTypes_mapTypes]
    exact Expr.mapTypes_congr fun t _ => Subst.apply_apply hidem t
  · rw [declaration_eq_of_blank hd₀, h]

/-- `fun f x = if x then 1 else "a"`, with something else in all slots: the
parameter is assigned a variable, which the condition turns out to be `bool`
later, and the branches do not go together. -/
theorem declaration_slots_failed :
    let old : Mark := { ty := .prim .char }
    let name (x : String) : Name := ⟨x, old⟩
    let d : Expr := .lam (some (name "f")) [.ident (name "x")] none
      (.cond (.ident (name "x")) (.const (.int 1) old) (some (.const (.string "a") old)) old) none
      old
    let w : Workspace := ⟨.root {}, .empty⟩
    let types : List Ty := [.fn (.prim .bool) .error, .fn (.prim .bool) .error, .var 2, .error,
      .var 2, .prim .int, .prim .string]
    Infer.assigned w.context (w.checker.knowing .empty) d = types ∧
      ∃ d' w', declaration d w = .ok (false, d') w' ∧ d'.blank = d.blank ∧
        d'.slots = [.fn (.prim .bool) .error, .fn (.prim .bool) .error, .prim .bool, .error,
          .prim .bool, .prim .int, .prim .string] := by
  intro old name d w types
  have hassigned : Infer.assigned w.context (w.checker.knowing .empty) d = types := by
    decide +kernel
  have hrun : (match declaration d w with
      | .ok r w' => some (r.1, types.map w'.checker.subst.apply)
      | .error _ _ => none) = some (false, [.fn (.prim .bool) .error, .fn (.prim .bool) .error,
        .prim .bool, .error, .prim .bool, .prim .int, .prim .string]) := by decide +kernel
  refine ⟨hassigned, ?_⟩
  cases h : declaration d w with
  | error e w' =>
    rw [h] at hrun
    cases hrun
  | ok r w' =>
    obtain ⟨passed, d'⟩ := r
    rw [h] at hrun
    simp only [Option.some.injEq, Prod.mk.injEq] at hrun
    obtain ⟨rfl, htypes⟩ := hrun
    obtain ⟨hblank, hslots, -⟩ := declaration_slots h
    exact ⟨d', w', rfl, hblank, by rw [hslots, hassigned, htypes]⟩

end Check
end MiniML
