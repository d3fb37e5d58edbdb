import MiniML.Proofs.Tree.Scope
import MiniML.Proofs.Typing.Damage
import MiniML.Proofs.Typing.HasType
import MiniML.Proofs.Typing.Spans

/-!
# What inference reports about names

`Infer.Logs ds x` says what the step `x` may do: draw variables, look at what is
known and at the table of operators, solve equations and report errors and
warnings; and among its reports, those that are not about types are `ds`. Such a
step asks for neither the configuration nor earlier reports, so it does the same
whatever they are (`Logs.replay`).

Every rule of inference is such a step. Whatever becomes of the types of a tree,
each of its parts is visited once, in the scope that it stands in, and so what
is reported about names are the faults of scope in the tree (`logs_expr`).
-/
namespace MiniML

/-- What was reported about names and places, in order. -/
def Diagnostics.aboutScope (ds : Diagnostics) : Diagnostics := ds.filter (·.category.aboutScope)

theorem Diagnostics.aboutScope_append (ds es : Diagnostics) :
    Diagnostics.aboutScope (ds ++ es) = ds.aboutScope ++ es.aboutScope := List.filter_append ..

theorem Checker.aboutScope_noting (c : Checker) (ds : Diagnostics) :
    (c.noting ds).diagnostics.aboutScope = c.diagnostics.aboutScope ++ ds.aboutScope :=
  Diagnostics.aboutScope_append ..

/-- `scope` are the names that a context binds. -/
def Context.Binds (Γ : Context) (scope : List String) : Prop :=
  ∀ x, x ∈ scope ↔ (Γ.get? x).isSome

namespace Context.Binds

variable {Γ : Context} {scope : List String}

theorem insert (h : Γ.Binds scope) (x : String) (s : Scheme) :
    Context.Binds (Γ.insert x s) (x :: scope) := by
  intro y
  rw [FinMap.get?_insert, List.mem_cons, h y]
  by_cases hy : y = x <;> simp [hy]

theorem bindName (h : Γ.Binds scope) (n : Option Name) (s : Scheme) :
    (Infer.bindName Γ n s).Binds (n.toList.map Name.text ++ scope) := by
  cases n with
  | none => exact h
  | some n => exact h.insert n.text s

theorem extend (h : Γ.Binds scope) (bs : List (String × Scheme)) :
    (Γ.extend bs).Binds (bs.map Prod.fst ++ scope) := by
  intro y
  by_cases hy : y ∈ bs.map Prod.fst
  · have hsome : ((Γ.extend bs).get? y).isSome := by
      rw [Context.extend, FinMap.get?_insertMany, Option.isSome_or]
      refine Bool.or_eq_true_iff.mpr (.inl ?_)
      rw [Option.isSome_iff_ne_none]
      intro hnone
      obtain ⟨⟨_, s⟩, hb, rfl⟩ := List.mem_map.mp hy
      exact FinMap.look_eq_none hnone s (List.mem_reverse.mpr hb)
    exact iff_of_true (List.mem_append_left _ hy) hsome
  · rw [Context.get?_extend hy, List.mem_append, h y]
    exact or_iff_right hy

theorem keys (Γ : Context) : Γ.Binds Γ.keys := by
  intro x
  show x ∈ Γ.entries.map Prod.fst ↔ (FinMap.look x Γ.entries).isSome
  induction Γ.entries with
  | nil => simp [FinMap.look]
  | cons b es ih => by_cases hx : x = b.1 <;> simp_all [FinMap.look]

end Context.Binds

/-! ## Reports -/

/-- From `c` the step reports `ds` about names. If it comes to no end, it reports
the beginning of `ds`. -/
def Reports {σ α : Type} (notes : σ → Diagnostics) (ds : Diagnostics) (x : EStateM Exhausted σ α)
    (c : σ) : Prop :=
  ∃ es, es <+: ds ∧ (notes (afterwards (x c))).aboutScope = (notes c).aboutScope ++ es ∧
    ∀ {a c'}, Runs x c a c' → es = ds

section Reports

variable {σ α β : Type} {notes : σ → Diagnostics} {ds es : Diagnostics}
  {x : EStateM Exhausted σ α} {f : α → EStateM Exhausted σ β} {c : σ}

/-- A step that leaves all reports as they are reports nothing about names. -/
theorem reports_silent (h : notes (afterwards (x c)) = notes c) : Reports notes [] x c :=
  ⟨[], List.prefix_rfl, by rw [h, List.append_nil], fun _ => rfl⟩

theorem Reports.cast (h : Reports notes es x c) (hds : ds = es) : Reports notes ds x c := hds ▸ h

theorem Reports.bind (hx : Reports notes ds x c)
    (hf : ∀ {a d}, Runs x c a d → Reports notes es (f a) d) :
    Reports notes (ds ++ es) (x >>= f) c := by
  obtain ⟨ds', hpre, hds, hdone⟩ := hx
  cases hrun : x c with
  | error e d =>
    have hbind : (x >>= f) c = .error e d := bind_of_error hrun
    rw [hrun] at hds
    refine ⟨ds', hpre.trans (List.prefix_append ds es), by rw [hbind]; exact hds, fun h => ?_⟩
    cases hbind.symm.trans h
  | ok a d =>
    have hbind : (x >>= f) c = f a d := bind_of_runs hrun
    obtain rfl := hdone hrun
    obtain ⟨es', hpre', hes, hdone'⟩ := hf hrun
    rw [hrun] at hds
    refine ⟨ds' ++ es', (List.prefix_append_right_inj ds').mpr hpre', ?_, fun h => ?_⟩
    · rw [hbind, hes, show (notes d).aboutScope = _ from hds, List.append_assoc]
    · rw [hdone' (hbind.symm.trans h)]

/-- A step that reports nothing about names, and then another one. -/
theorem Reports.quiet_bind (hx : Reports notes [] x c)
    (hf : ∀ {a d}, Runs x c a d → Reports notes ds (f a) d) : Reports notes ds (x >>= f) c :=
  hx.bind hf

/-- A step, and then one that reports nothing about names. -/
theorem Reports.bind_quiet (hx : Reports notes ds x c)
    (hf : ∀ {a d}, Runs x c a d → Reports notes [] (f a) d) : Reports notes ds (x >>= f) c :=
  (hx.bind hf).cast (List.append_nil ds).symm

end Reports

namespace Infer

variable {α β : Type} {Γ : Context} {scope : List String} {ds es : Diagnostics}

theorem reports_push (d : Diagnostic) (c : Checker) :
    Reports Checker.diagnostics (Diagnostics.aboutScope [d]) (push d) c :=
  ⟨_, List.prefix_rfl, c.aboutScope_noting [d], fun _ => rfl⟩

/-- `x` is made of steps that ask for neither configuration nor reports, and
what it reports beside type errors is `ds`. -/
inductive Logs : {α : Type} → Diagnostics → Infer α → Prop
  | pure {α : Type} (a : α) : Logs [] (pure a)
  | fresh : Logs [] fresh
  | subst : Logs [] subst
  | table {α : Type} {f : Checker → Infer α} {ds : Diagnostics} :
      (∀ c, Logs ds (f c)) → (∀ c d, c.builtins = d.builtins → f c = f d) → Logs ds (get >>= f)
  | equate (t u : Ty) : Logs [] (equate t u)
  | typing {d : Diagnostic} :
      d.category.aboutScope = false → d.severity ≠ .info → Logs [] (push d)
  | scope {d : Diagnostic} :
      d.category.aboutScope = true → d.severity ≠ .info → Logs [d] (push d)
  | bind {α β : Type} {x : Infer α} {f : α → Infer β} {ds es : Diagnostics} :
      Logs ds x → (∀ {c a c'}, Runs x c a c' → Logs es (f a)) → Logs (ds ++ es) (x >>= f)

namespace Logs

variable {x : Infer α} {f : α → Infer β} {c c' : Checker}

theorem cast (h : Logs es x) (hds : ds = es) : Logs ds x := hds ▸ h

/-- A step that reports nothing about names, and then another one. -/
theorem quiet_bind (hx : Logs [] x) (hf : ∀ {c a c'}, Runs x c a c' → Logs ds (f a)) :
    Logs ds (x >>= f) := .bind hx hf

/-- A step, and then one that reports nothing about names. -/
theorem bind_quiet (hx : Logs ds x) (hf : ∀ a, Logs [] (f a)) : Logs ds (x >>= f) :=
  (Logs.bind hx fun _ => hf _).cast (List.append_nil ds).symm

theorem ite {p : Prop} [Decidable p] {y : Infer α} (hx : Logs ds x) (hy : Logs ds y) :
    Logs ds (if p then x else y) := by
  split
  · exact hx
  · exact hy

/-- What is reported about names is `ds`, or the beginning of it if the
variables run out. -/
theorem reports (h : Logs ds x) (c : Checker) : Reports Checker.diagnostics ds x c := by
  induction h generalizing c with
  | pure a => exact reports_silent rfl
  | fresh =>
    refine reports_silent ?_
    unfold Infer.fresh
    cases succVar c.next <;> rfl
  | subst => exact reports_silent rfl
  | table _ _ ih => exact ih c c
  | equate t u =>
    refine reports_silent ?_
    unfold Infer.equate
    cases unify t u c.subst <;> rfl
  | typing hd _ | scope hd _ => exact (reports_push _ c).cast (by simp [Diagnostics.aboutScope, hd])
  | bind _ _ ihx ihf => exact (ihx c).bind fun hx => ihf hx _

end Logs

/-! ## Steps -/

theorem logs_resolve (t : Ty) : Logs [] (resolve t) := .quiet_bind .subst fun _ => .pure _

theorem logs_freshFor (vs : List TyVar) : Logs [] (freshFor vs) := by
  induction vs with
  | nil => exact .pure _
  | cons v vs ih => exact .quiet_bind .fresh fun _ => .quiet_bind ih fun _ => .pure _

theorem logs_instantiate (s : Scheme) : Logs [] (instantiate s) :=
  .ite (.pure _) (.quiet_bind (logs_freshFor _) fun _ => .pure _)

theorem logs_generalize (Γ : Context) (t : Ty) : Logs [] (generalize Γ t) :=
  .quiet_bind .subst fun _ => .pure _

theorem logs_report {e : TypeError} (h : e.kind.category.aboutScope = true) :
    Logs [e.toDiagnostic] (report e) := .scope h nofun

theorem logs_report_type {e : TypeError} (h : e.kind.category.aboutScope = false) :
    Logs [] (report e) := .typing h nofun

theorem aboutScope_ofUnify (e : UnifyError) (span : Span) (context : String) :
    (TypeError.ofUnify e span context).kind.category.aboutScope = false := by
  cases e <;> rfl

theorem logs_expect (t u : Ty) (span : Span) (context : String) :
    Logs [] (expect t u span context) :=
  .quiet_bind (.equate t u) fun {_ r _} _ => by
    cases r with
    | none => exact .pure _
    | some e => exact logs_report_type (aboutScope_ofUnify e span context)

theorem logs_hintType (named : FinMap String Ty) (h : Hint) : Logs [] (hintType named h) := by
  have hs : ∀ hs : List Hint, (∀ h ∈ hs, ∀ named, Logs [] (hintType named h)) →
      ∀ named, Logs [] (hintTypes named hs) := by
    intro hs h
    induction hs with
    | nil => exact fun _ => .pure _
    | cons g gs ih =>
      exact fun named => .quiet_bind (h g (by simp) named) fun _ =>
        .quiet_bind (ih (fun k hk => h k (by simp [hk])) _) fun _ => .pure _
  induction h generalizing named with
  | prim p => exact .pure _
  | var x =>
    unfold hintType
    cases named.get? x with
    | some t => exact .pure _
    | none => exact .quiet_bind .fresh fun _ => .pure _
  | wildcard => exact .quiet_bind .fresh fun _ => .pure _
  | fn a b ha hb => exact .quiet_bind (ha _) fun _ => .quiet_bind (hb _) fun _ => .pure _
  | tuple gs ih => exact .quiet_bind (hs gs (fun g hg named => ih g hg named) _) fun _ => .pure _

theorem logs_annotate (h : Option Hint) (t : Ty) (span : Span) : Logs [] (annotate h t span) := by
  cases h with
  | none => exact .pure _
  | some h =>
    refine .quiet_bind (logs_hintType _ h) fun {_ a _} _ =>
      .quiet_bind (.equate a.1 t) fun {_ r _} _ => ?_
    cases r with
    | none => exact .pure _
    | some e =>
      exact .quiet_bind (logs_resolve _) fun _ => .quiet_bind (logs_resolve _) fun _ =>
        logs_report_type rfl

/-! ## Rules that end in a type or in an error -/

/-- The step reports nothing about names itself, and ends in no error about
names. -/
structure Typal (x : Infer (Except TypeError Ty)) : Prop where
  logs : Logs [] x
  error : ∀ {c e c'}, Runs x c (.error e) c' → e.kind.category.aboutScope = false

theorem typal_error {e : TypeError} (h : e.kind.category.aboutScope = false) :
    Typal (pure (.error e)) :=
  ⟨.pure _, fun hrun => by
    cases (runs_pure.mp hrun).1
    exact h⟩

theorem typal_ok (t : Ty) : Typal (pure (.ok t)) :=
  ⟨.pure _, fun hrun => nomatch (runs_pure.mp hrun).1⟩

theorem Typal.behind {x : Infer α} {f : α → Infer (Except TypeError Ty)} (hx : Logs [] x)
    (hf : ∀ a, Typal (f a)) : Typal (x >>= f) :=
  ⟨.quiet_bind hx fun _ => (hf _).logs, fun hrun => by
    obtain ⟨a, _, -, h⟩ := runs_bind.mp hrun
    exact (hf a).error h⟩

theorem Typal.settle {x : Infer (Except TypeError Ty)} {f : Ty → Infer α} (hx : Typal x)
    (hf : ∀ t, Logs [] (f t)) : Logs [] (x >>= fun r => settle r >>= f) :=
  .quiet_bind hx.logs fun {_ r _} hrun => .quiet_bind (by
    cases r with
    | ok t => exact .pure t
    | error e => exact .quiet_bind (logs_report_type (hx.error hrun)) fun _ => .pure _) fun _ => hf _

theorem typal_join (t u : Ty) (span : Span) (context : String) : Typal (join t u span context) :=
  .behind (.equate t u) fun r => by
    cases r with
    | none => exact .behind (logs_resolve _) fun _ => typal_ok _
    | some e => exact typal_error (aboutScope_ofUnify e span context)

theorem typal_applyTo (t : Ty) (args : List Ty) (span : Span) (context : String) :
    Typal (applyTo t args span context) :=
  .behind .fresh fun _ => .behind (.equate t _) fun r => by
    cases r with
    | none => exact .behind (logs_resolve _) fun _ => typal_ok _
    | some e => exact typal_error (aboutScope_ofUnify e span context)

theorem logs_operator (name : String) (n : Nat) (span : Span) :
    Logs [] (operator name n span) := by
  refine .table (fun c => ?_) fun c d hc => by rw [hc]
  cases c.builtins.get? name with
  | none => exact .pure _
  | some s => exact .quiet_bind (logs_instantiate s) fun _ => .ite (.pure _) (.pure _)

theorem operator_error {name : String} {n : Nat} {span : Span} {c c' : Checker} {e : TypeError}
    (h : Runs (operator name n span) c (.error e) c') : e.kind = .invalidOperator name n := by
  simp only [operator, runs_bind, runs_get] at h
  obtain ⟨_, _, ⟨rfl, rfl⟩, h⟩ := h
  cases hget : FinMap.get? _ name with
  | none =>
    rw [hget] at h
    cases (runs_pure.mp h).1
    rfl
  | some s =>
    rw [hget] at h
    obtain ⟨t, _, -, h⟩ := runs_bind.mp h
    split at h
    · cases (runs_pure.mp h).1
      rfl
    · cases (runs_pure.mp h).1

theorem typal_applyOperator (name symbol : String) (args : List Ty) (span : Span) :
    Typal (applyOperator name symbol args span) where
  logs := .quiet_bind (logs_operator _ _ _) fun {_ r _} _ => by
    cases r with
    | error e => exact .pure _
    | ok t => exact (typal_applyTo t args _ _).logs
  error h := by
    obtain ⟨r, _, hop, h⟩ := runs_bind.mp h
    cases r with
    | error e =>
      cases (runs_pure.mp h).1
      rw [operator_error hop]
      rfl
    | ok t => exact (typal_applyTo t args _ _).error h

/-! ## Names and patterns -/

/-- A name is reported if its context does not bind it. -/
theorem logs_ident (h : Γ.Binds scope) (n : Name) :
    Logs ((Expr.ident n).scopeFaults scope) (expr Γ (.ident n)) := by
  have hn := h n.text
  show Logs _ (lookup Γ n >>= fun r => settle r >>= fun t => pure (Expr.ident (n.typed t)))
  unfold lookup
  cases hget : Γ.get? n.text with
  | none =>
    have hout : n.text ∉ scope := by simpa [hget] using hn
    rw [Expr.scopeFaults, if_neg hout]
    exact .quiet_bind (.pure _) fun {_ r _} hrun => by
      cases (runs_pure.mp hrun).1
      exact .bind_quiet (.bind_quiet (logs_report rfl) fun _ => .pure _) fun _ => .pure _
  | some s =>
    have hin : n.text ∈ scope := by simpa [hget] using hn
    rw [Expr.scopeFaults, if_pos hin]
    exact Typal.settle (.behind (logs_instantiate s) fun _ => typal_ok _) fun _ => .pure _

theorem logs_checkDistinct (ps : List Pattern) : Logs (repeated ps) (checkDistinct ps) := by
  unfold checkDistinct repeated
  cases firstDuplicate [] _ with
  | none => exact .pure _
  | some b => exact logs_report rfl

theorem logs_checkReachable (reachable : Bool) (span : Span) :
    Logs (unreachableArm reachable span) (checkReachable reachable span) := by
  cases reachable with
  | true => exact .pure _
  | false => exact .scope rfl nofun

theorem logs_patterns {ps : List Pattern} (h : ∀ p ∈ ps, Logs [] (pattern p)) :
    Logs [] (patterns ps) := by
  induction ps with
  | nil => exact .pure _
  | cons p ps ih =>
    exact .quiet_bind (h p (by simp)) fun _ =>
      .quiet_bind (ih fun q hq => h q (by simp [hq])) fun _ => .pure _

theorem logs_pattern (p : Pattern) : Logs [] (pattern p) := by
  induction p with
  | ident n => exact .quiet_bind .fresh fun _ => .pure _
  | wildcard m => exact .quiet_bind .fresh fun _ => .pure _
  | literal l m => exact .pure _
  | tuple ps m ih => exact .quiet_bind (logs_patterns ih) fun _ => .pure _

theorem pattern_names {p : Pattern} {r : Pattern × Bindings} {c c' : Checker}
    (h : Runs (pattern p) c r c') : r.2.map Prod.fst = p.names := by
  have hrun : PatternRun p c r.1 r.2 c' := runs_pattern h
  rw [hrun.bindings, r.1.bindings_names, Pattern.names_of_blank hrun.blank]

theorem patterns_names {ps : List Pattern} {r : List Pattern × Bindings} {c c' : Checker}
    (h : Runs (patterns ps) c r c') : r.2.map Prod.fst = ps.flatMap Pattern.names := by
  have hrun : PatternsRun ps c r.1 r.2 c' := runs_patterns (fun _ _ => runs_pattern) h
  rw [hrun.bindings, Pattern.flatMap_bindings_names, Pattern.flatMap_names_of_blank hrun.blank]

/-! ## Expressions -/

/-- Inference on `e` reports the faults of scope in `e`. -/
def LogsExpr (e : Expr) : Prop :=
  ∀ ⦃Γ : Context⦄ ⦃scope : List String⦄, Γ.Binds scope → Logs (e.scopeFaults scope) (expr Γ e)

theorem logs_exprs {es : List Expr} (h : ∀ e ∈ es, LogsExpr e) (hΓ : Γ.Binds scope) :
    Logs (Expr.scopeFaultsAll scope es) (exprs Γ es) := by
  induction es with
  | nil => exact .pure _
  | cons e es ih =>
    exact .bind (h e (by simp) hΓ) fun _ =>
      .bind_quiet (ih fun d hd => h d (by simp [hd])) fun _ => .pure _

theorem logs_optional {o : Option Expr} (h : ∀ e ∈ o, LogsExpr e) (hΓ : Γ.Binds scope) :
    Logs (Expr.scopeFaultsOption scope o) (optional Γ o) := by
  cases o with
  | none => exact .pure _
  | some e => exact .bind_quiet (h e rfl hΓ) fun _ => .pure _

theorem describe_of_blank {d e : Expr} (h : d.blank = e.blank) : d.describe = e.describe := by
  rw [← Expr.mapTypes_describe (fun _ => .error) d, ← Expr.mapTypes_describe (fun _ => .error) e]
  exact congrArg Expr.describe h

/-- The application is refused by what the callee looks like, which inference
does not change. -/
theorem logs_application {f g : Expr} (h : g.blank = f.blank) (es : List Expr) (span : Span)
    {k : Ty → Infer Expr} (hk : ∀ t, Logs [] (k t)) :
    Logs f.misapplied (application g es span >>= fun r => settle r >>= k) := by
  unfold application Expr.misapplied
  rw [neverFunction_of_blank h]
  by_cases hf : neverFunction f = true
  · rw [if_pos hf, if_pos hf]
    refine .quiet_bind (.pure _) fun {_ r _} hrun => ?_
    cases (runs_pure.mp hrun).1
    rw [describe_of_blank h, Expr.span_of_blank h]
    exact .bind_quiet (.bind_quiet (logs_report rfl) fun _ => .pure _) hk
  · rw [if_neg hf, if_neg hf]
    exact (typal_applyTo _ _ _ _).settle hk

theorem logs_arms {as : List Arm} (h : ∀ a ∈ as, LogsExpr a.body) (hΓ : Γ.Binds scope)
    (t r : Ty) (reachable : Bool) :
    Logs (Expr.scopeFaultsArms scope reachable as) (arms Γ t r reachable as) := by
  induction as generalizing reachable with
  | nil => exact .pure _
  | cons a as ih =>
    obtain ⟨p, e, span⟩ := a
    refine Logs.cast (.bind (logs_checkReachable reachable span) fun _ =>
      .bind (logs_checkDistinct [p]) fun _ => .quiet_bind (logs_pattern p) fun {_ q _} hq =>
      .quiet_bind (logs_expect _ _ _ _) fun _ => .bind (h (.mk p e span) (by simp) ?_) fun _ =>
      .quiet_bind (logs_expect _ _ _ _) fun _ =>
      .bind_quiet (ih (fun b hb => h b (by simp [hb])) _) fun _ => .pure _)
      (by simp only [Expr.scopeFaultsArms, List.append_assoc]; rfl)
    exact pattern_names hq ▸ hΓ.extend q.2

/-- Whatever the types, inference reports the faults of scope in a tree. -/
theorem logs_expr (e : Expr) : LogsExpr e := by
  induction e with
  | const l m => exact fun Γ scope _ => .pure _
  | ident n => exact fun Γ scope hΓ => logs_ident hΓ n
  | tuple es m ih => exact fun Γ scope hΓ => .bind_quiet (logs_exprs ih hΓ) fun _ => .pure _
  | unary op e m ih =>
    exact fun Γ scope hΓ => .bind_quiet (ih hΓ) fun _ =>
      (typal_applyOperator _ _ _ _).settle fun _ => .pure _
  | binary op l r m hl hr =>
    exact fun Γ scope hΓ => .bind (hl hΓ) fun _ => .bind_quiet (hr hΓ) fun _ =>
      (typal_applyOperator _ _ _ _).settle fun _ => .pure _
  | app f es m hf ih =>
    intro Γ scope hΓ
    exact Logs.cast (.bind (hf hΓ) fun hrun => .bind (logs_exprs ih hΓ) fun _ =>
      logs_application (expr_blank f hrun) _ _ fun _ => .pure _) (List.append_assoc ..)
  | cond t y n m ht hy hn =>
    intro Γ scope hΓ
    exact Logs.cast (.bind (ht hΓ) fun _ => .quiet_bind (logs_expect _ _ _ _) fun _ =>
      .bind (hy hΓ) fun _ => .bind_quiet (logs_optional hn hΓ) fun _ =>
      (typal_join _ _ _ _).settle fun _ => .pure _) (List.append_assoc ..)
  | cases e as m he has =>
    exact fun Γ scope hΓ => .bind (he hΓ) fun _ => .quiet_bind .fresh fun _ =>
      .bind_quiet (logs_arms has hΓ _ _ _) fun _ => .quiet_bind (logs_resolve _) fun _ => .pure _
  | bind n h v b m hv hb =>
    intro Γ scope hΓ
    cases b with
    | none =>
      exact .bind (hv hΓ) fun _ => .quiet_bind (logs_annotate _ _ _) fun _ =>
        .quiet_bind (logs_resolve _) fun _ => .pure _
    | some b =>
      exact .bind (hv hΓ) fun _ => .quiet_bind (logs_annotate _ _ _) fun _ =>
        .quiet_bind (logs_resolve _) fun _ => .quiet_bind (logs_generalize _ _) fun _ =>
        .bind_quiet (hb b rfl (hΓ.insert n.text _)) fun _ => .pure _
  | lam n ps h b r m hb hr =>
    intro Γ scope hΓ
    have hinside {t : Ty} {q : List Pattern × Bindings} {c c' : Checker}
        (hq : Runs (patterns ps) c q c') :
        ((bindName Γ n (.mono t)).extend q.2).Binds (boundNames n ps ++ scope) := by
      have hbody := (hΓ.bindName n (.mono t)).extend q.2
      rw [patterns_names hq] at hbody
      intro x
      rw [← hbody x]
      simp only [boundNames, List.mem_append]
      tauto
    cases r with
    | none =>
      exact Logs.cast (.quiet_bind .fresh fun _ => .bind (logs_checkDistinct ps) fun _ =>
        .quiet_bind (logs_patterns fun p _ => logs_pattern p) fun hq =>
        .bind_quiet (hb (hinside hq)) fun _ => .quiet_bind (logs_expect _ _ _ _) fun _ =>
        .quiet_bind (logs_annotate _ _ _) fun _ => .quiet_bind (logs_resolve _) fun _ => .pure _)
        (List.append_nil _)
    | some r =>
      exact Logs.cast (.quiet_bind .fresh fun _ => .bind (logs_checkDistinct ps) fun _ =>
        .quiet_bind (logs_patterns fun p _ => logs_pattern p) fun hq =>
        .bind (hb (hinside hq)) fun _ => .quiet_bind (logs_expect _ _ _ _) fun _ =>
        .quiet_bind (logs_annotate _ _ _) fun _ => .quiet_bind (logs_resolve _) fun _ =>
        .quiet_bind (logs_generalize _ _) fun _ =>
        .bind_quiet (hr r rfl (hΓ.bindName n _)) fun _ => .pure _)
        (List.append_assoc ..)

end Infer
end MiniML
