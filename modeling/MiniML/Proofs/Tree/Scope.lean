import MiniML.Proofs.Tree.FreeNames

/-!
# Faults of scope

What is wrong with the names of a tree shows without any types: a name that is
used where nothing binds it, a name that one list of patterns binds twice, an
application of something that is never a function, and an arm behind one that
matches everything. `Expr.scopeFaults` walks a tree once, from left to right,
and lists what there is of this; `Program.scopeFaults` does so for declarations,
where a name is in scope in all that come after its own.

Results:
* `repeated_eq_nil`, `length_repeated`: a list of patterns has one report if it
  binds a name twice, and none otherwise.
* `Expr.unbound_scopeFaults`: the unbound names are the free occurrences of
  names that are not in scope.
-/
namespace MiniML

/-- Whether diagnostics of a category are about names and places rather than
types. -/
def Category.aboutScope : Category → Bool
  | .unbound | .duplicate | .notApplicable | .unreachable => true
  | _ => false

/-- The report of the first name that patterns bind more than once. -/
def repeated (ps : List Pattern) : Diagnostics :=
  match Infer.firstDuplicate [] (ps.flatMap fun p => p.names.map fun x => (x, p.span)) with
  | none => []
  | some (x, span) => [TypeError.toDiagnostic ⟨.duplicate x, span⟩]

/-- The warning about an arm behind one that matches everything. -/
def unreachableArm (reachable : Bool) (span : Span) : Diagnostics :=
  if reachable then []
  else
    [{ severity := .warning, category := .unreachable, message := "unreachable match arm", span,
       help := some "an earlier arm already matches every value" }]

namespace Expr

/-- The report of an application of something that is never a function. -/
def misapplied (f : Expr) : Diagnostics :=
  if Infer.neverFunction f then [TypeError.toDiagnostic ⟨.notApplicable f.describe, f.span⟩] else []

mutual
/-- The faults of scope in a tree, where `scope` are the names around it. -/
def scopeFaults (scope : List String) : Expr → Diagnostics
  | .const _ _ => []
  | .ident n =>
    if n.text ∈ scope then [] else [TypeError.toDiagnostic ⟨.unbound n.text, n.mark.span⟩]
  | .tuple es _ => scopeFaultsAll scope es
  | .unary _ e _ => scopeFaults scope e
  | .binary _ l r _ => scopeFaults scope l ++ scopeFaults scope r
  | .app f es _ => scopeFaults scope f ++ scopeFaultsAll scope es ++ f.misapplied
  | .cond t y n _ => scopeFaults scope t ++ scopeFaults scope y ++ scopeFaultsOption scope n
  | .cases e as _ => scopeFaults scope e ++ scopeFaultsArms scope true as
  | .bind n _ v b _ => scopeFaults scope v ++ scopeFaultsOption (n.text :: scope) b
  | .lam n ps _ b r _ =>
    repeated ps ++ scopeFaults (boundNames n ps ++ scope) b ++
      scopeFaultsOption (n.toList.map Name.text ++ scope) r
/-- The faults of scope in a list of trees. -/
def scopeFaultsAll (scope : List String) : List Expr → Diagnostics
  | [] => []
  | e :: es => scopeFaults scope e ++ scopeFaultsAll scope es
/-- The faults of scope in a part that may be missing. -/
def scopeFaultsOption (scope : List String) : Option Expr → Diagnostics
  | none => []
  | some e => scopeFaults scope e
/-- The faults of scope in alternatives, which can be reached if none before
them matches everything. -/
def scopeFaultsArms (scope : List String) (reachable : Bool) : List Arm → Diagnostics
  | [] => []
  | .mk p e span :: as =>
    unreachableArm reachable span ++ repeated [p] ++ scopeFaults (p.names ++ scope) e ++
      scopeFaultsArms scope (reachable && !p.irrefutable) as
end

end Expr

/-- The faults of scope in the declarations of a program. A declared name is in
scope in all later declarations. -/
def Program.scopeFaults (scope : List String) : Program → Diagnostics
  | [] => []
  | d :: ds =>
    d.scopeFaults scope ++ Program.scopeFaults (d.declared?.toList.map Name.text ++ scope) ds

/-! ## Repeated names -/

/-- Nothing is reported exactly if all names of the patterns are distinct. -/
theorem repeated_eq_nil {ps : List Pattern} :
    repeated ps = [] ↔ (ps.flatMap Pattern.names).Nodup := by
  have hnames : (ps.flatMap fun p => p.names.map fun x => (x, p.span)).map Prod.fst =
      ps.flatMap Pattern.names := by
    simp [List.map_flatMap, Function.comp_def]
  have hiff := @Infer.firstDuplicate_eq_none []
    (ps.flatMap fun p => p.names.map fun x => (x, p.span))
  rw [hnames] at hiff
  unfold repeated
  split
  next hn => simpa using (hiff.mp hn).1
  next hs => simpa [hs] using hiff

theorem length_repeated (ps : List Pattern) :
    (repeated ps).length = if (ps.flatMap Pattern.names).Nodup then 0 else 1 := by
  have hnil := @repeated_eq_nil ps
  unfold repeated at hnil ⊢
  split at hnil <;> simp_all

/-! ## Unbound names -/

namespace Expr

/-- The reports of names that nothing binds, as they read. -/
def unboundTexts (ds : Diagnostics) : List String :=
  (ds.filter (·.category = .unbound)).map Diagnostic.message

/-- The same for the free occurrences of names that are not in scope. -/
def outOfScope (scope names : List String) : List String :=
  (names.filter (· ∉ scope)).map fun x => (TypeErrorKind.unbound x).message

theorem unboundTexts_append (ds es : Diagnostics) :
    unboundTexts (ds ++ es) = unboundTexts ds ++ unboundTexts es := by
  simp [unboundTexts]

theorem unboundTexts_eq_nil {ds : Diagnostics} (h : ∀ d ∈ ds, d.category ≠ .unbound) :
    unboundTexts ds = [] := by
  simpa [unboundTexts] using h

theorem outOfScope_append (scope xs ys : List String) :
    outOfScope scope (xs ++ ys) = outOfScope scope xs ++ outOfScope scope ys := by
  simp [outOfScope]

theorem outOfScope_removeAll (scope xs ys : List String) :
    outOfScope scope (xs.removeAll ys) = outOfScope (ys ++ scope) xs := by
  simp only [outOfScope, List.removeAll, List.filter_filter]
  congr 1
  refine List.filter_congr fun x _ => ?_
  simp [and_comm]

theorem unboundTexts_repeated (ps : List Pattern) : unboundTexts (repeated ps) = [] := by
  refine unboundTexts_eq_nil fun d hd => ?_
  unfold repeated at hd
  split at hd
  · cases hd
  · rw [List.mem_singleton.mp hd]
    exact nofun

theorem unboundTexts_misapplied (f : Expr) : unboundTexts f.misapplied = [] := by
  unfold misapplied
  split <;> rfl

theorem unboundTexts_unreachableArm (reachable : Bool) (span : Span) :
    unboundTexts (unreachableArm reachable span) = [] := by
  cases reachable <;> rfl

/-- The unbound names of a tree are those among its free names that are not in
scope, one for each occurrence. -/
theorem unbound_scopeFaults (e : Expr) (scope : List String) :
    unboundTexts (e.scopeFaults scope) = outOfScope scope e.freeNames := by
  have hall {es : List Expr} (ih : ∀ e ∈ es, ∀ scope,
      unboundTexts (e.scopeFaults scope) = outOfScope scope e.freeNames) (scope : List String) :
      unboundTexts (scopeFaultsAll scope es) = outOfScope scope (freeNamesAll es) := by
    induction es with
    | nil => rfl
    | cons e es ihs =>
      rw [scopeFaultsAll, freeNamesAll, unboundTexts_append, outOfScope_append, ih e (by simp),
        ihs fun e he => ih e (by simp [he])]
  have hoption {o : Option Expr} (ih : ∀ e ∈ o, ∀ scope,
      unboundTexts (e.scopeFaults scope) = outOfScope scope e.freeNames) (scope : List String) :
      unboundTexts (scopeFaultsOption scope o) = outOfScope scope (freeNamesOption o) := by
    cases o with
    | none => rfl
    | some e => exact ih e rfl scope
  induction e generalizing scope with
  | const l m => rfl
  | ident n =>
    by_cases h : n.text ∈ scope <;>
      simp [scopeFaults, freeNames, outOfScope, h, unboundTexts, TypeError.toDiagnostic,
        TypeErrorKind.category]
  | tuple es m ih => exact hall ih scope
  | unary op e m ih => exact ih scope
  | binary op l r m hl hr =>
    rw [scopeFaults, freeNames, unboundTexts_append, outOfScope_append, hl, hr]
  | app f es m hf ih =>
    rw [scopeFaults, freeNames, unboundTexts_append, unboundTexts_append, outOfScope_append, hf,
      hall ih, unboundTexts_misapplied, List.append_nil]
  | cond t y n m ht hy hn =>
    rw [scopeFaults, freeNames, unboundTexts_append, unboundTexts_append, outOfScope_append,
      outOfScope_append, ht, hy, hoption hn]
  | cases e as m he has =>
    have harms (reachable : Bool) :
        unboundTexts (scopeFaultsArms scope reachable as) = outOfScope scope (freeNamesArms as) := by
      induction as generalizing reachable with
      | nil => rfl
      | cons a as ih =>
        obtain ⟨p, b, s⟩ := a
        rw [scopeFaultsArms, freeNamesArms, unboundTexts_append, unboundTexts_append,
          unboundTexts_append, unboundTexts_unreachableArm, unboundTexts_repeated,
          outOfScope_append, outOfScope_removeAll, ih fun a ha => has a (by simp [ha])]
        exact congrArg (· ++ _) (has (.mk p b s) (by simp) _)
    rw [scopeFaults, freeNames, unboundTexts_append, outOfScope_append, he, harms]
  | bind n h v b m hv hb =>
    rw [scopeFaults, freeNames, unboundTexts_append, outOfScope_append, outOfScope_removeAll, hv,
      hoption hb]
    rfl
  | lam n ps h b r m hb hr =>
    rw [scopeFaults, freeNames, unboundTexts_append, unboundTexts_append, unboundTexts_repeated,
      outOfScope_append, outOfScope_removeAll, outOfScope_removeAll, hb, hoption hr]
    rfl

end Expr
end MiniML
