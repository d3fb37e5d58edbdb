import Mathlib.Data.List.Nodup
import MiniML.Proofs.Ty.Solver
import MiniML.Proofs.Typing.Derivation
import MiniML.Typing.Declaration

/-!
# Runs of inference

`Runs x c a c'` says that the step `x` takes the checker `c` to `c'` with
result `a`; a step that runs out of type variables has no run. A run of a
`do` block is a chain of runs of its parts (`runs_bind`), and each primitive
step has one lemma that says all it can do.

Every rule that relates two types ends the same way: an equation is solved as
far as it can be, and a failure is reported (`Equated`).

Results:
* `runs_fresh`, `runs_instantiate`, `runs_generalize`, `runs_equate`: the
  primitive steps.
* `runs_tuple` to `runs_fun`: what a run of each rule of inference is made of.
-/
namespace MiniML

/-- The number of errors so far. -/
def Checker.errors (c : Checker) : Nat := c.diagnostics.errors

/-- The checker with other bindings. -/
def Checker.knowing (c : Checker) (σ : Subst) : Checker := { c with subst := σ }

/-- The checker with more diagnostics. -/
def Checker.noting (c : Checker) (ds : Diagnostics) : Checker :=
  { c with diagnostics := c.diagnostics ++ ds }

/-- `c'` is `c` with some variables drawn from the supply. -/
structure Checker.Drew (c c' : Checker) : Prop where
  le : c.next ≤ c'.next
  rest : c' = { c with next := c'.next }

theorem Checker.Drew.refl (c : Checker) : c.Drew c := ⟨Nat.le_refl _, rfl⟩

theorem Checker.Drew.trans {c d e : Checker} (h : c.Drew d) (h' : d.Drew e) : c.Drew e := by
  refine ⟨Nat.le_trans h.le h'.le, ?_⟩
  rw [h'.rest, h.rest]

theorem Checker.Drew.errors {c c' : Checker} (h : c.Drew c') : c'.errors = c.errors := by
  rw [h.rest]
  rfl

theorem Checker.drew_succ (c : Checker) : c.Drew { c with next := c.next + 1 } :=
  ⟨Nat.le_succ _, rfl⟩

/-- `x` takes the state `c` to `c'` with result `a`. -/
def Runs {σ α : Type} (x : EStateM Exhausted σ α) (c : σ) (a : α) (c' : σ) : Prop := x c = .ok a c'

section Runs

variable {σ α β : Type} {c c' : σ}

theorem runs_pure {a b : α} : Runs (pure a) c b c' ↔ b = a ∧ c' = c := by
  show EStateM.Result.ok a c = .ok b c' ↔ _
  simp [eq_comm]

theorem runs_bind {x : EStateM Exhausted σ α} {f : α → EStateM Exhausted σ β} {b : β} :
    Runs (x >>= f) c b c' ↔ ∃ a d, Runs x c a d ∧ Runs (f a) d b c' := by
  show EStateM.bind x f c = .ok b c' ↔ _
  unfold EStateM.bind Runs
  cases x c with
  | ok a d => simp
  | error e d => simp

theorem runs_map {x : EStateM Exhausted σ α} {f : α → β} {b : β} :
    Runs (f <$> x) c b c' ↔ ∃ a, Runs x c a c' ∧ b = f a := by
  show EStateM.map f x c = .ok b c' ↔ _
  unfold EStateM.map Runs
  cases x c with
  | ok a d => simp [eq_comm, and_comm]
  | error e d => simp

theorem error_bind {x : EStateM Exhausted σ α} {f : α → EStateM Exhausted σ β} {e : Exhausted} :
    (x >>= f) c = .error e c' ↔
      x c = .error e c' ∨ ∃ a d, Runs x c a d ∧ f a d = .error e c' := by
  show EStateM.bind x f c = .error e c' ↔ _
  unfold EStateM.bind Runs
  cases x c with
  | ok a d => simp
  | error e d => simp

theorem runs_get {d : σ} : Runs get c d c' ↔ d = c ∧ c' = c := by
  show EStateM.Result.ok c c = .ok d c' ↔ _
  simp [eq_comm]

theorem runs_modify {f : σ → σ} {r : Unit} : Runs (modify f) c r c' ↔ c' = f c := by
  show EStateM.Result.ok () (f c) = .ok r c' ↔ _
  simp [eq_comm]

end Runs

namespace Infer

variable {Γ : Context} {c c' : Checker} {t u : Ty}

theorem runs_subst {σ : Subst} : Runs subst c σ c' ↔ σ = c.subst ∧ c' = c := by
  simp only [subst, runs_bind, runs_get, runs_pure]
  grind

theorem runs_fresh :
    Runs fresh c t c' ↔
      c.next < lastVar ∧ t = .var c.next ∧ c' = { c with next := c.next + 1 } := by
  unfold Runs fresh succVar
  by_cases h : c.next < lastVar <;> simp [h, eq_comm]

theorem runs_resolve : Runs (resolve t) c u c' ↔ u = c.subst.apply t ∧ c' = c := by
  simp only [resolve, runs_bind, runs_subst, runs_pure]
  grind

theorem runs_push {d : Diagnostic} {r : Unit} : Runs (push d) c r c' ↔ c' = c.noting [d] :=
  runs_modify

theorem runs_report {e : TypeError} {r : Unit} :
    Runs (report e) c r c' ↔ c' = c.noting [e.toDiagnostic] := runs_push

theorem runs_equate {r : Option UnifyError} :
    Runs (equate t u) c r c' ↔
      r = (outcome (unify t u c.subst)).1 ∧ c' = c.knowing (outcome (unify t u c.subst)).2 := by
  unfold Runs equate
  cases unify t u c.subst with
  | ok a σ => simp [outcome, Checker.knowing, eq_comm]
  | error e σ => simp [outcome, Checker.knowing, eq_comm]

/-! ## Instances -/

/-- `f` renames the variables of a list, each to a variable of its own
between `n` and `m`. -/
structure Renaming (vs : List TyVar) (n m : TyVar) (f : TyVar → Ty) : Prop where
  le : n ≤ m
  outside : ∀ v ∉ vs, f v = .var v
  inside : ∀ v ∈ vs, ∃ w, f v = .var w ∧ n ≤ w ∧ w < m
  injective : ∀ v ∈ vs, ∀ w ∈ vs, f v = f w → v = w

theorem runs_freshFor {vs : List TyVar} {bs : List (TyVar × Ty)}
    (h : Runs (freshFor vs) c bs c') :
    c.Drew c' ∧ bs.map Prod.fst = vs ∧
      (bs.map Prod.snd).Nodup ∧ ∀ b ∈ bs, ∃ w, b.2 = .var w ∧ c.next ≤ w ∧ w < c'.next := by
  induction vs generalizing c bs with
  | nil =>
    obtain ⟨rfl, rfl⟩ := runs_pure.mp h
    exact ⟨.refl _, rfl, .nil, by simp⟩
  | cons v vs ih =>
    simp only [freshFor, runs_bind, runs_fresh, runs_pure] at h
    obtain ⟨_, _, ⟨-, rfl, rfl⟩, bs, d, hd, rfl, rfl⟩ := h
    obtain ⟨hdrew, hfst, hnd, hvar⟩ := ih hd
    refine ⟨c.drew_succ.trans hdrew, by rw [List.map_cons, hfst], ?_, ?_⟩
    · rw [List.map_cons, List.nodup_cons]
      refine ⟨fun hm => ?_, hnd⟩
      obtain ⟨b, hb, hbv⟩ := List.mem_map.mp hm
      obtain ⟨w, hw, hlt, -⟩ := hvar b hb
      rw [hw, Ty.var.injEq] at hbv
      exact Nat.lt_irrefl _ (hbv ▸ hlt)
    · intro b hb
      rcases List.mem_cons.mp hb with rfl | hb
      · exact ⟨_, rfl, Nat.le_refl _, hdrew.le⟩
      · obtain ⟨w, hw, h1, h2⟩ := hvar b hb
        exact ⟨w, hw, Nat.le_of_succ_le h1, h2⟩

/-- The renaming that a list of distinct variables for variables is. -/
theorem renaming_ofList {bs : List (TyVar × Ty)} {n m : TyVar} (hle : n ≤ m)
    (hnd : (bs.map Prod.snd).Nodup) (hvar : ∀ b ∈ bs, ∃ w, b.2 = .var w ∧ n ≤ w ∧ w < m) :
    Renaming (bs.map Prod.fst) n m fun v => ((FinMap.ofList bs).get? v).getD (.var v) := by
  have hget : ∀ v, (FinMap.ofList bs).get? v = FinMap.look v bs.reverse := fun v => by
    rw [FinMap.ofList, FinMap.get?_insertMany, FinMap.get?_empty, Option.or_none]
  have hsome : ∀ v ∈ bs.map Prod.fst, ∃ t, (v, t) ∈ bs ∧
      ((FinMap.ofList bs).get? v).getD (.var v) = t := by
    intro v hv
    rw [hget]
    cases hl : FinMap.look v bs.reverse with
    | none =>
      obtain ⟨⟨_, t⟩, hb, rfl⟩ := List.mem_map.mp hv
      exact absurd (List.mem_reverse.mpr hb) (FinMap.look_eq_none hl t)
    | some t => exact ⟨t, List.mem_reverse.mp (FinMap.look_eq_some hl), rfl⟩
  refine ⟨hle, fun v hv => ?_, fun v hv => ?_, fun v hv w hw heq => ?_⟩
  · rw [hget]
    cases hl : FinMap.look v bs.reverse with
    | none => rfl
    | some t =>
      exact absurd (List.mem_map_of_mem (List.mem_reverse.mp (FinMap.look_eq_some hl))) hv
  · obtain ⟨t, ht, heq⟩ := hsome v hv
    obtain ⟨w, hw⟩ := hvar _ ht
    exact ⟨w, by rw [← hw.1]; exact heq, hw.2⟩
  · obtain ⟨t, ht, hv⟩ := hsome v hv
    obtain ⟨u, hu, hw⟩ := hsome w hw
    have := List.inj_on_of_nodup_map hnd ht hu (by rw [← hv, ← hw]; exact heq)
    exact (Prod.mk.inj this).1

/-- `c'` is `c` with an instance of `s`. -/
def Instantiated (s : Scheme) (c : Checker) (t : Ty) (c' : Checker) : Prop :=
  c.Drew c' ∧ ∃ f, Renaming s.vars c.next c'.next f ∧ t = s.body.subst f

theorem runs_instantiate {s : Scheme} (h : Runs (instantiate s) c t c') :
    Instantiated s c t c' := by
  unfold instantiate at h
  split at h
  next hm =>
    obtain ⟨rfl, rfl⟩ := runs_pure.mp h
    have hv : s.vars = [] := List.isEmpty_iff.mp hm
    refine ⟨.refl _, .var, ⟨Nat.le_refl _, fun _ _ => rfl, ?_, ?_⟩, (Ty.subst_var _).symm⟩
    · simp [hv]
    · simp [hv]
  next =>
    simp only [runs_bind, runs_pure] at h
    obtain ⟨bs, d, hd, rfl, rfl⟩ := h
    obtain ⟨hdrew, hfst, hnd, hvar⟩ := runs_freshFor hd
    exact ⟨hdrew, _, hfst ▸ renaming_ofList hdrew.le hnd hvar, rfl⟩

/-- Quantified is what is in the type and not free in the context. -/
theorem runs_generalize {s : Scheme} (h : Runs (generalize Γ t) c s c') :
    c' = c ∧ s.body = c.subst.apply t ∧
      ∀ v, v ∈ s.vars ↔ v ∈ (c.subst.apply t).leaves ∧ v ∉ Γ.free c.subst := by
  simp only [generalize, runs_bind, runs_subst, runs_pure] at h
  obtain ⟨σ, _, ⟨rfl, rfl⟩, rfl, rfl⟩ := h
  exact ⟨rfl, rfl, fun v => by simp [List.mem_filter, Ty.mem_free]⟩

/-! ## Equations -/

/-- `c'` is `c` after an equation of `t` and `u`, which was solved, or
refused with a report. -/
inductive Equated (t u : Ty) (c : Checker) : Bool → Checker → Prop
  | solved {σ : Subst} : outcome (unify t u c.subst) = (none, σ) → Equated t u c true (c.knowing σ)
  | refused {e : UnifyError} {σ : Subst} {ds : Diagnostics} :
      outcome (unify t u c.subst) = (some e, σ) → 0 < ds.errors →
      Equated t u c false ((c.knowing σ).noting ds)

/-- What a rule makes of its type: the error type, if it was refused. -/
def settled (ok : Bool) (t : Ty) : Ty := if ok then t else .error

theorem errors_toDiagnostic (e : TypeError) : 0 < Diagnostics.errors [e.toDiagnostic] :=
  Nat.zero_lt_one

theorem runs_expect {span : Span} {context : String} {r : Unit}
    (h : Runs (expect t u span context) c r c') : ∃ ok, Equated t u c ok c' := by
  simp only [expect, runs_bind, runs_equate] at h
  obtain ⟨e, d, ⟨he, rfl⟩, h⟩ := h
  cases e with
  | none =>
    obtain ⟨-, rfl⟩ := runs_pure.mp h
    exact ⟨_, .solved (Prod.ext he.symm rfl)⟩
  | some e =>
    rw [runs_report.mp h]
    exact ⟨_, .refused (Prod.ext he.symm rfl) (errors_toDiagnostic _)⟩

theorem runs_expectHint {span : Span} {r : Unit} (h : Runs (expectHint t u span) c r c') :
    ∃ ok, Equated t u c ok c' := by
  simp only [expectHint, runs_bind, runs_equate] at h
  obtain ⟨e, d, ⟨he, rfl⟩, h⟩ := h
  cases e with
  | none =>
    obtain ⟨-, rfl⟩ := runs_pure.mp h
    exact ⟨_, .solved (Prod.ext he.symm rfl)⟩
  | some e =>
    simp only [runs_bind, runs_resolve] at h
    obtain ⟨_, _, ⟨-, rfl⟩, _, _, ⟨-, rfl⟩, h⟩ := h
    rw [runs_report.mp h]
    exact ⟨_, .refused (Prod.ext he.symm rfl) (errors_toDiagnostic _)⟩

/-- An equation whose type is `w`, and the report of its failure. -/
theorem runs_conclude {k : UnifyError → TypeError} {w r : Ty} {x : Except TypeError Ty}
    {d : Checker}
    (h : Runs (do
      match ← equate t u with
      | some e => return .error (k e)
      | none => return .ok (← resolve w)) c x d)
    (hs : Runs (settle x) d r c') :
    ∃ ok, Equated t u c ok c' ∧ r = settled ok (c'.subst.apply w) := by
  simp only [runs_bind, runs_equate] at h
  obtain ⟨e, d, ⟨he, rfl⟩, h⟩ := h
  cases e with
  | none =>
    simp only [runs_bind, runs_resolve, runs_pure] at h
    obtain ⟨_, _, ⟨rfl, rfl⟩, rfl, rfl⟩ := h
    obtain ⟨rfl, rfl⟩ := runs_pure.mp hs
    exact ⟨_, .solved (Prod.ext he.symm rfl), rfl⟩
  | some e =>
    obtain ⟨rfl, rfl⟩ := runs_pure.mp h
    simp only [settle, runs_bind, runs_report, runs_pure] at hs
    obtain ⟨_, _, rfl, rfl, rfl⟩ := hs
    exact ⟨_, .refused (Prod.ext he.symm rfl) (errors_toDiagnostic _), rfl⟩

/-- A rule that reports without an equation. -/
theorem runs_reject {e : TypeError} {r : Ty} (h : Runs (settle (.error e)) c r c') :
    r = .error ∧ ∃ ds : Diagnostics, 0 < ds.errors ∧ c' = c.noting ds := by
  simp only [settle, runs_bind, runs_report, runs_pure] at h
  obtain ⟨_, _, rfl, rfl, rfl⟩ := h
  exact ⟨rfl, _, errors_toDiagnostic e, rfl⟩

/-! ## The ends of the rules -/

/-- `c'` is `c` after an application of `f` to arguments, of type `r`: an
equation with a new variable for the result. -/
def Applied (f : Ty) (args : List Ty) (c : Checker) (r : Ty) (c' : Checker) : Prop :=
  c.next < lastVar ∧ ∃ ok,
    Equated f (.curried args (.var c.next)) { c with next := c.next + 1 } ok c' ∧
      r = settled ok (c'.subst.apply (.var c.next))

/-- `c'` is `c` after a rule that was refused. -/
def Refused (c : Checker) (r : Ty) (c' : Checker) : Prop :=
  r = .error ∧ ∃ ds : Diagnostics, 0 < ds.errors ∧ c' = c.noting ds

theorem runs_applyTo {args : List Ty} {span : Span} {context : String} {r : Ty}
    {x : Except TypeError Ty} {d : Checker} (h : Runs (applyTo t args span context) c x d)
    (hs : Runs (settle x) d r c') : Applied t args c r c' := by
  simp only [applyTo, runs_bind (x := fresh), runs_fresh] at h
  obtain ⟨_, _, ⟨hlt, rfl, rfl⟩, h⟩ := h
  obtain ⟨ok, he, hr⟩ := runs_conclude h hs
  exact ⟨hlt, ok, he, hr⟩

theorem runs_application {f : Expr} {es : List Expr} {span : Span} {r : Ty}
    {x : Except TypeError Ty} {d : Checker} (h : Runs (application f es span) c x d)
    (hs : Runs (settle x) d r c') :
    (neverFunction f = true ∧ Refused c r c') ∨
      (neverFunction f = false ∧ Applied f.ty (es.map Expr.ty) c r c') := by
  unfold application at h
  split at h
  next hf =>
    obtain ⟨rfl, rfl⟩ := runs_pure.mp h
    exact .inl ⟨hf, runs_reject hs⟩
  next hf => exact .inr ⟨by simpa using hf, runs_applyTo h hs⟩

/-- An operator is looked up, instantiated, and applied; it is refused if it
is unknown or has too few arguments. -/
theorem runs_applyOperator {name symbol : String} {args : List Ty} {span : Span} {r : Ty}
    {x : Except TypeError Ty} {d : Checker}
    (h : Runs (applyOperator name symbol args span) c x d) (hs : Runs (settle x) d r c') :
    (c.builtins.get? name = none ∧ Refused c r c') ∨
      ∃ s u c₁, c.builtins.get? name = some s ∧ Instantiated s c u c₁ ∧
        ((u.arity < args.length ∧ Refused c₁ r c') ∨
          args.length ≤ u.arity ∧ Applied u args c₁ r c') := by
  simp only [applyOperator, operator, runs_bind, runs_get] at h
  obtain ⟨y, d₁, ⟨_, c, ⟨rfl, rfl⟩, h⟩, hy⟩ := h
  cases hget : c.builtins.get? name with
  | none =>
    rw [hget] at h
    obtain ⟨rfl, rfl⟩ := runs_pure.mp h
    obtain ⟨rfl, rfl⟩ := runs_pure.mp hy
    exact .inl ⟨rfl, runs_reject hs⟩
  | some s =>
    rw [hget] at h
    simp only [runs_bind] at h
    obtain ⟨u, c₁, hu, h⟩ := h
    refine .inr ⟨s, u, c₁, rfl, runs_instantiate hu, ?_⟩
    split at h
    next hlt =>
      obtain ⟨rfl, rfl⟩ := runs_pure.mp h
      obtain ⟨rfl, rfl⟩ := runs_pure.mp hy
      exact .inl ⟨hlt, runs_reject hs⟩
    next hge =>
      obtain ⟨rfl, rfl⟩ := runs_pure.mp h
      exact .inr ⟨Nat.le_of_not_lt hge, runs_applyTo hy hs⟩

theorem runs_lookup {n : Name} {r : Ty} {x : Except TypeError Ty} {d : Checker}
    (h : Runs (lookup Γ n) c x d) (hs : Runs (settle x) d r c') :
    (Γ.get? n.text = none ∧ Refused c r c') ∨
      ∃ s, Γ.get? n.text = some s ∧ Instantiated s c r c' := by
  unfold lookup at h
  cases hget : Γ.get? n.text with
  | none =>
    rw [hget] at h
    obtain ⟨rfl, rfl⟩ := runs_pure.mp h
    exact .inl ⟨rfl, runs_reject hs⟩
  | some s =>
    rw [hget] at h
    simp only [runs_bind, runs_pure] at h
    obtain ⟨u, d, hu, rfl, rfl⟩ := h
    obtain ⟨rfl, rfl⟩ := runs_pure.mp hs
    exact .inr ⟨s, rfl, runs_instantiate hu⟩

/-- An annotation makes a type from unused variables, and an equation. -/
theorem runs_annotate {h : Hint} {span : Span} {r : Unit}
    (hrun : Runs (annotate (some h) t span) c r c') :
    ∃ u named d ok, Runs (hintType .empty h) c (u, named) d ∧ Equated u t d ok c' := by
  simp only [annotate, runs_bind] at hrun
  obtain ⟨⟨u, named⟩, d, hu, h⟩ := hrun
  obtain ⟨ok, he⟩ := runs_expectHint h
  exact ⟨u, named, d, ok, hu, he⟩

theorem runs_checkReachable {reachable : Bool} {span : Span} {r : Unit}
    (h : Runs (checkReachable reachable span) c r c') :
    ∃ ds : Diagnostics, ds.errors = 0 ∧ c' = c.noting ds := by
  unfold checkReachable at h
  split at h
  · obtain ⟨-, rfl⟩ := runs_pure.mp h
    exact ⟨[], rfl, by simp [Checker.noting]⟩
  · exact ⟨_, rfl, runs_push.mp h⟩

/-- No name is met again exactly if the names are distinct, and not among
those seen before. -/
theorem firstDuplicate_eq_none {seen : List String} {xs : List (String × Span)} :
    firstDuplicate seen xs = none ↔
      (xs.map Prod.fst).Nodup ∧ ∀ x ∈ xs.map Prod.fst, x ∉ seen := by
  induction xs generalizing seen with
  | nil => simp [firstDuplicate]
  | cons b xs ih =>
    obtain ⟨x, s⟩ := b
    by_cases hx : x ∈ seen
    · simp [firstDuplicate, hx]
    · simp only [firstDuplicate, List.contains_iff_mem, hx, if_false, ih, List.map_cons,
        List.nodup_cons, List.mem_cons, not_or, forall_eq_or_imp, not_false_eq_true, true_and]
      grind

theorem runs_checkDistinct {ps : List Pattern} {r : Unit} (h : Runs (checkDistinct ps) c r c') :
    ((ps.flatMap Pattern.names).Nodup ∧ c' = c) ∨
      (¬ (ps.flatMap Pattern.names).Nodup ∧
        ∃ ds : Diagnostics, 0 < ds.errors ∧ c' = c.noting ds) := by
  have hnames : ((ps.flatMap fun p => p.names.map fun x => (x, p.span)).map Prod.fst) =
      ps.flatMap Pattern.names := by
    simp [List.map_flatMap, Function.comp_def]
  have hiff := @firstDuplicate_eq_none []
    (ps.flatMap fun p => p.names.map fun x => (x, p.span))
  rw [hnames] at hiff
  unfold checkDistinct at h
  split at h
  next hn =>
    obtain ⟨-, rfl⟩ := runs_pure.mp h
    exact .inl ⟨(hiff.mp hn).1, rfl⟩
  next x span hs =>
    refine .inr ⟨fun hnd => ?_, _, errors_toDiagnostic _, runs_report.mp h⟩
    rw [hiff.mpr ⟨hnd, by simp⟩] at hs
    cases hs

/-! ## The rules -/

section Rules

variable {e' : Expr}

attribute [local simp] expr

theorem runs_const {l : Literal} {m : Mark} (h : Runs (expr Γ (.const l m)) c e' c') :
    e' = .const l (m.typed (.prim l.prim)) ∧ c' = c := by
  rw [expr] at h
  exact runs_pure.mp h

theorem runs_ident {n : Name} (h : Runs (expr Γ (.ident n)) c e' c') :
    ∃ t, e' = .ident (n.typed t) ∧
      ((Γ.get? n.text = none ∧ Refused c t c') ∨
        ∃ s, Γ.get? n.text = some s ∧ Instantiated s c t c') := by
  simp only [expr, runs_bind, runs_pure] at h
  obtain ⟨x, d, hx, t, _, ht, rfl, rfl⟩ := h
  exact ⟨t, rfl, runs_lookup hx ht⟩

theorem runs_tuple {es : List Expr} {m : Mark} (h : Runs (expr Γ (.tuple es m)) c e' c') :
    ∃ es', Runs (exprs Γ es) c es' c' ∧ e' = .tuple es' (m.typed (.tuple (es'.map Expr.ty))) := by
  simp only [expr, runs_bind, runs_pure] at h
  obtain ⟨es', _, hes, rfl, rfl⟩ := h
  exact ⟨es', hes, rfl⟩

theorem runs_unary {op : UnaryOp} {e : Expr} {m : Mark}
    (h : Runs (expr Γ (.unary op e m)) c e' c') :
    ∃ a c₁ x d t, Runs (expr Γ e) c a c₁ ∧
      Runs (applyOperator op.builtin op.symbol [a.ty] m.span) c₁ x d ∧ Runs (settle x) d t c' ∧
      e' = .unary op a (m.typed t) := by
  simp only [expr, runs_bind, runs_pure] at h
  obtain ⟨a, c₁, ha, x, d, hx, t, _, ht, rfl, rfl⟩ := h
  exact ⟨a, c₁, x, d, t, ha, hx, ht, rfl⟩

theorem runs_binary {op : BinaryOp} {l r : Expr} {m : Mark}
    (h : Runs (expr Γ (.binary op l r m)) c e' c') :
    ∃ a c₁ b c₂ x d t, Runs (expr Γ l) c a c₁ ∧ Runs (expr Γ r) c₁ b c₂ ∧
      Runs (applyOperator op.symbol op.symbol [a.ty, b.ty] m.span) c₂ x d ∧
      Runs (settle x) d t c' ∧ e' = .binary op a b (m.typed t) := by
  simp only [expr, runs_bind, runs_pure] at h
  obtain ⟨a, c₁, ha, b, c₂, hb, x, d, hx, t, _, ht, rfl, rfl⟩ := h
  exact ⟨a, c₁, b, c₂, x, d, t, ha, hb, hx, ht, rfl⟩

theorem runs_app {f : Expr} {es : List Expr} {m : Mark} (h : Runs (expr Γ (.app f es m)) c e' c') :
    ∃ a c₁ es' c₂ t, Runs (expr Γ f) c a c₁ ∧ Runs (exprs Γ es) c₁ es' c₂ ∧
      e' = .app a es' (m.typed t) ∧
      ((neverFunction a = true ∧ Refused c₂ t c') ∨
        (neverFunction a = false ∧ Applied a.ty (es'.map Expr.ty) c₂ t c')) := by
  simp only [expr, runs_bind, runs_pure] at h
  obtain ⟨a, c₁, ha, es', c₂, hes, x, d, hx, t, _, ht, rfl, rfl⟩ := h
  exact ⟨a, c₁, es', c₂, t, ha, hes, rfl, runs_application hx ht⟩

theorem runs_cond {e y : Expr} {n : Option Expr} {m : Mark}
    (h : Runs (expr Γ (.cond e y n m)) c e' c') :
    ∃ a c₁ ok c₂ b c₃ n' c₄ ok', Runs (expr Γ e) c a c₁ ∧ Equated (.prim .bool) a.ty c₁ ok c₂ ∧
      Runs (expr Γ y) c₂ b c₃ ∧ Runs (optional Γ n) c₃ n' c₄ ∧
      Equated b.ty (elseTy n') c₄ ok' c' ∧
      e' = .cond a b n' (m.typed (settled ok' (c'.subst.apply b.ty))) := by
  simp only [expr, runs_bind, runs_pure] at h
  obtain ⟨a, c₁, ha, _, c₂, hc, b, c₃, hb, n', c₄, hn, x, d, hx, t, _, ht, rfl, rfl⟩ := h
  obtain ⟨ok, he⟩ := runs_expect hc
  have ho : (otherwise b n').1 = elseTy n' := by cases n' <;> rfl
  obtain ⟨ok', he', rfl⟩ := runs_conclude hx ht
  exact ⟨a, c₁, ok, c₂, b, c₃, n', c₄, ok', ha, he, hb, hn, ho ▸ he', rfl⟩

theorem runs_cases {e : Expr} {as : List Arm} {m : Mark}
    (h : Runs (expr Γ (.cases e as m)) c e' c') :
    ∃ a c₁ as', Runs (expr Γ e) c a c₁ ∧ c₁.next < lastVar ∧
      Runs (arms Γ a.ty (.var c₁.next) true as) { c₁ with next := c₁.next + 1 } as' c' ∧
      e' = .cases a as' (m.typed (c'.subst.apply (.var c₁.next))) := by
  simp only [expr, runs_bind, runs_pure, runs_fresh, runs_resolve] at h
  obtain ⟨a, c₁, ha, _, _, ⟨hlt, rfl, rfl⟩, as', c₂, has, _, _, ⟨rfl, rfl⟩, rfl, rfl⟩ := h
  exact ⟨a, c₁, as', ha, hlt, has, rfl⟩

/-- What every form of `let` begins with: the value, and its annotation. -/
def BindHead (Γ : Context) (h : Option Hint) (v : Expr) (span : Span) (c : Checker)
    (v' : Expr) (c' : Checker) : Prop :=
  ∃ c₁, Runs (expr Γ v) c v' c₁ ∧ Runs (annotate h v'.ty span) c₁ () c'

theorem runs_declare {n : Name} {h : Option Hint} {v : Expr} {m : Mark}
    (hrun : Runs (expr Γ (.bind n h v none m)) c e' c') :
    ∃ v', BindHead Γ h v m.span c v' c' ∧
      e' = .bind (n.typed (c'.subst.apply v'.ty)) h v' none (m.typed (c'.subst.apply v'.ty)) := by
  simp only [expr, runs_bind, runs_pure, runs_resolve] at hrun
  obtain ⟨v', c₁, hv, _, c₂, ha, _, _, ⟨rfl, rfl⟩, rfl, rfl⟩ := hrun
  exact ⟨v', ⟨c₁, hv, ha⟩, rfl⟩

theorem runs_let {n : Name} {h : Option Hint} {v b : Expr} {m : Mark}
    (hrun : Runs (expr Γ (.bind n h v (some b) m)) c e' c') :
    ∃ v' c₁ s b', BindHead Γ h v m.span c v' c₁ ∧
      Runs (generalize Γ (c₁.subst.apply v'.ty)) c₁ s c₁ ∧
      Runs (expr (Γ.insert n.text s) b) c₁ b' c' ∧
      e' = .bind (n.typed (c₁.subst.apply v'.ty)) h v' (some b') (m.typed b'.ty) := by
  simp only [expr, runs_bind, runs_pure, runs_resolve] at hrun
  obtain ⟨v', c₁, hv, _, c₂, ha, _, _, ⟨rfl, rfl⟩, s, c₃, hs, b', _, hb, rfl, rfl⟩ := hrun
  obtain rfl := (runs_generalize hs).1
  exact ⟨v', c₃, s, b', ⟨c₁, hv, ha⟩, hs, hb, rfl⟩

/-- What every form of function begins with: its body, with a variable for
the function itself, and the annotation. -/
def LamHead (Γ : Context) (n : Option Name) (ps : List Pattern) (h : Option Hint) (b : Expr)
    (span : Span) (c : Checker) (ps' : List Pattern) (b' : Expr) (c' : Checker) : Prop :=
  ∃ c₁ bs c₂ c₃ ok c₄, c.next < lastVar ∧
    Runs (checkDistinct ps) { c with next := c.next + 1 } () c₁ ∧
    Runs (patterns ps) c₁ (ps', bs) c₂ ∧
    Runs (expr ((bindName Γ n (.mono (.var c.next))).extend bs) b) c₂ b' c₃ ∧
    Equated (.var c.next) (.curried (ps'.map Pattern.ty) b'.ty) c₃ ok c₄ ∧
    Runs (annotate h (.curried (ps'.map Pattern.ty) b'.ty) span) c₄ () c'

theorem runs_lam {n : Option Name} {ps : List Pattern} {h : Option Hint} {b : Expr} {m : Mark}
    (hrun : Runs (expr Γ (.lam n ps h b none m)) c e' c') :
    ∃ ps' b' t, LamHead Γ n ps h b m.span c ps' b' c' ∧
      t = c'.subst.apply (.curried (ps'.map Pattern.ty) b'.ty) ∧
      e' = .lam (n.map (Name.typed · t)) ps' h b' none (m.typed t) := by
  simp only [expr, runs_bind, runs_pure, runs_resolve, runs_fresh] at hrun
  obtain ⟨_, _, ⟨hlt, rfl, rfl⟩, _, c₁, hd, ⟨ps', bs⟩, c₂, hp, b', c₃, hb, _, c₄, he, _, c₅, ha,
    _, _, ⟨rfl, rfl⟩, rfl, rfl⟩ := hrun
  obtain ⟨ok, he⟩ := runs_expect he
  exact ⟨ps', b', _, ⟨c₁, bs, c₂, c₃, ok, c₄, hlt, hd, hp, hb, he, ha⟩, rfl, rfl⟩

theorem runs_fun {n : Option Name} {ps : List Pattern} {h : Option Hint} {b r : Expr} {m : Mark}
    (hrun : Runs (expr Γ (.lam n ps h b (some r) m)) c e' c') :
    ∃ ps' b' t c₁ s r', LamHead Γ n ps h b m.span c ps' b' c₁ ∧
      t = c₁.subst.apply (.curried (ps'.map Pattern.ty) b'.ty) ∧
      Runs (generalize Γ t) c₁ s c₁ ∧ Runs (expr (bindName Γ n s) r) c₁ r' c' ∧
      e' = .lam (n.map (Name.typed · t)) ps' h b' (some r') (m.typed r'.ty) := by
  simp only [expr, runs_bind, runs_pure, runs_resolve, runs_fresh] at hrun
  obtain ⟨_, _, ⟨hlt, rfl, rfl⟩, _, c₁, hd, ⟨ps', bs⟩, c₂, hp, b', c₃, hb, _, c₄, he, _, c₅, ha,
    _, _, ⟨rfl, rfl⟩, s, c₆, hs, r', _, hr, rfl, rfl⟩ := hrun
  obtain ⟨ok, he⟩ := runs_expect he
  obtain rfl := (runs_generalize hs).1
  exact ⟨ps', b', _, c₆, s, r', ⟨c₁, bs, c₂, c₃, ok, c₄, hlt, hd, hp, hb, he, ha⟩, rfl, hs, hr,
    rfl⟩

theorem runs_exprs_cons {e : Expr} {es es' : List Expr}
    (h : Runs (exprs Γ (e :: es)) c es' c') :
    ∃ a c₁ as, Runs (expr Γ e) c a c₁ ∧ Runs (exprs Γ es) c₁ as c' ∧ es' = a :: as := by
  simp only [exprs, runs_bind, runs_pure] at h
  obtain ⟨a, c₁, ha, as, _, has, rfl, rfl⟩ := h
  exact ⟨a, c₁, as, ha, has, rfl⟩

theorem runs_optional_some {e : Expr} {o : Option Expr} (h : Runs (optional Γ (some e)) c o c') :
    ∃ a, Runs (expr Γ e) c a c' ∧ o = some a := by
  simp only [optional, runs_bind, runs_pure] at h
  obtain ⟨a, _, ha, rfl, rfl⟩ := h
  exact ⟨a, ha, rfl⟩

theorem runs_arms_cons {scrutinee result : Ty} {reachable : Bool} {p : Pattern} {e : Expr}
    {span : Span} {as as' : List Arm}
    (h : Runs (arms Γ scrutinee result reachable (.mk p e span :: as)) c as' c') :
    ∃ ds c₁ p' bs c₂ ok c₃ b c₄ ok' c₅ rest, Diagnostics.errors ds = 0 ∧
      Runs (checkDistinct [p]) (c.noting ds) () c₁ ∧ Runs (pattern p) c₁ (p', bs) c₂ ∧
      Equated scrutinee p'.ty c₂ ok c₃ ∧ Runs (expr (Γ.extend bs) e) c₃ b c₄ ∧
      Equated result b.ty c₄ ok' c₅ ∧
      Runs (arms Γ scrutinee result (reachable && !p.irrefutable) as) c₅ rest c' ∧
      as' = .mk p' b span :: rest := by
  simp only [arms, runs_bind, runs_pure] at h
  obtain ⟨_, _, hr, _, c₁, hd, ⟨p', bs⟩, c₂, hp, _, c₃, he, b, c₄, hb, _, c₅, he', rest, _, hrest,
    rfl, rfl⟩ := h
  obtain ⟨ds, hds, rfl⟩ := runs_checkReachable hr
  obtain ⟨ok, he⟩ := runs_expect he
  obtain ⟨ok', he'⟩ := runs_expect he'
  exact ⟨ds, c₁, p', bs, c₂, ok, c₃, b, c₄, ok', c₅, rest, hds, hd, hp, he, hb, he', hrest, rfl⟩

end Rules

/-! ## Declarations -/

theorem runs_declaration {d d' : Expr} {passed : Bool}
    (h : Runs (Infer.declaration Γ d) c (passed, d') c') :
    ∃ e, Runs (expr Γ d) (c.knowing .empty) e c' ∧ passed = decide (c'.errors = c.errors) ∧
      d' = e.mapTypes c'.subst.apply := by
  simp only [Infer.declaration, runs_bind, runs_modify, runs_get, runs_subst, runs_pure] at h
  obtain ⟨_, _, rfl, _, _, ⟨rfl, rfl⟩, e, _, he, _, _, ⟨rfl, rfl⟩, _, _, ⟨rfl, rfl⟩, heq, rfl⟩ := h
  obtain ⟨rfl, rfl⟩ := Prod.mk.inj heq
  exact ⟨e, he, rfl, rfl⟩

theorem runs_reportType {name type : String} {span : Span} {r : Unit}
    (h : Runs (reportType name type span) c r c') :
    ∃ ds : Diagnostics, ds.errors = 0 ∧ c' = c.noting ds := by
  simp only [reportType, runs_bind, runs_get] at h
  obtain ⟨_, _, ⟨rfl, rfl⟩, h⟩ := h
  split at h
  · exact ⟨_, rfl, runs_push.mp h⟩
  · obtain ⟨-, rfl⟩ := runs_pure.mp h
    exact ⟨[], rfl, by simp [Checker.noting]⟩

end Infer

namespace Check

variable {w w' : Workspace}

theorem runs_inferring {α : Type} {step : Context → Infer α} {a : α}
    (h : Runs (inferring step) w a w') :
    Runs (step w.context) w.checker a w'.checker ∧ w'.context = w.context := by
  unfold Runs inferring at h
  unfold Runs
  cases hs : step w.context w.checker with
  | ok b c =>
    rw [hs] at h
    obtain ⟨rfl, rfl⟩ := EStateM.Result.ok.inj h
    exact ⟨rfl, rfl⟩
  | error e c =>
    rw [hs] at h
    cases h

/-- A declaration is inferred, and its name is bound: to its type, generalized,
if it passed, and to the error type otherwise. No error is reported on top of
those of inference. -/
theorem runs_declaration {d d' : Expr} {passed : Bool}
    (h : Runs (Check.declaration d) w (passed, d') w') :
    ∃ c ds, Runs (Infer.declaration w.context d) w.checker (passed, d') c ∧
      Diagnostics.errors ds = 0 ∧ w'.checker = c.noting ds ∧
      (d'.declared? = none → w'.context = w.context) ∧
      ∀ n, d'.declared? = some n → ∃ s, w'.context = w.context.insert n.text s ∧
        (passed = true → Runs (Infer.generalize w.context d'.ty) c s c) ∧
        (passed = false → s = .mono .error) := by
  have hnil : ∀ c : Checker, c = c.noting [] := fun c => by simp [Checker.noting]
  simp only [Check.declaration, runs_bind] at h
  obtain ⟨⟨p, e⟩, w₁, h₁, h⟩ := h
  obtain ⟨h₁, hctx⟩ := runs_inferring h₁
  cases hd : e.declared? with
  | none =>
    cases p with
    | true =>
      simp only [hd, if_true, runs_bind, runs_pure] at h
      obtain ⟨_, w₂, h₂, heq, rfl⟩ := h
      obtain ⟨rfl, rfl⟩ := Prod.mk.inj heq
      obtain ⟨h₂, hctx₂⟩ := runs_inferring h₂
      obtain ⟨ds, hds, hw⟩ := Infer.runs_reportType h₂
      exact ⟨_, ds, h₁, hds, hw, fun _ => hctx₂.trans hctx, by simp [hd]⟩
    | false =>
      simp only [hd] at h
      obtain ⟨heq, rfl⟩ := runs_pure.mp h
      obtain ⟨rfl, rfl⟩ := Prod.mk.inj heq
      exact ⟨_, [], h₁, rfl, hnil _, fun _ => hctx, by simp [hd]⟩
  | some n =>
    cases p with
    | true =>
      simp only [hd, if_true, runs_bind, runs_pure] at h
      obtain ⟨s, w₂, h₂, _, w₃, h₃, heq, rfl⟩ := h
      obtain ⟨rfl, rfl⟩ := Prod.mk.inj heq
      obtain ⟨h₂, hctx₂⟩ := runs_inferring h₂
      simp only [runs_bind, runs_pure] at h₂
      obtain ⟨_, _, hgen, _, _, hrep, rfl, rfl⟩ := h₂
      obtain rfl := (Infer.runs_generalize hgen).1
      obtain ⟨ds, hds, hw⟩ := Infer.runs_reportType hrep
      obtain rfl := runs_modify.mp h₃
      refine ⟨_, ds, h₁, hds, hw, by simp [hd], fun m hm => ?_⟩
      obtain rfl := Option.some.inj (hd.symm.trans hm)
      exact ⟨s, by rw [← hctx, ← hctx₂], fun _ => hctx ▸ hgen, by simp⟩
    | false =>
      simp only [hd] at h
      obtain ⟨_, w₂, h₂, h⟩ := runs_bind.mp h
      obtain ⟨heq, rfl⟩ := runs_pure.mp h
      obtain ⟨rfl, rfl⟩ := Prod.mk.inj heq
      obtain rfl := runs_modify.mp h₂
      refine ⟨_, [], h₁, rfl, hnil _, by simp [hd], fun m hm => ?_⟩
      obtain rfl := Option.some.inj (hd.symm.trans hm)
      exact ⟨_, by rw [hctx], by simp, fun _ => rfl⟩

end Check
end MiniML
