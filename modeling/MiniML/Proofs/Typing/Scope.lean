import MiniML.Proofs.Typing.Logs
import MiniML.Proofs.Typing.Program

/-!
# Reports about names do not depend on types

Checking a program reports about its names what a walk over its trees finds
without any types: no more, no less, and in the same order
(`Check.program_scope`). It does so for programs that are well typed and for
others, in every context and with every table of operators. In particular an
error keeps no part of a tree from being visited, and a declaration that fails
still declares its name.
-/
namespace MiniML

/-- The reports of a workspace. -/
abbrev Workspace.notes (w : Workspace) : Diagnostics := w.checker.diagnostics

namespace Infer

theorem reports_reportType (name type : String) (span : Span) (c : Checker) :
    Reports Checker.diagnostics [] (reportType name type span) c := by
  show Reports _ _ (if c.config.reportTypes then _ else _) c
  split
  · exact (reports_push _ c).cast rfl
  · exact reports_silent rfl

theorem reports_declaration {Γ : Context} {scope : List String} (hΓ : Γ.Binds scope) (d : Expr)
    (c : Checker) :
    Reports Checker.diagnostics (d.scopeFaults scope) (Infer.declaration Γ d) c :=
  .quiet_bind (reports_silent rfl) fun _ => .quiet_bind (reports_silent rfl) fun _ =>
    ((logs_expr d hΓ).reports _).bind_quiet fun _ => .quiet_bind (reports_silent rfl) fun _ =>
    .quiet_bind (reports_silent rfl) fun _ => reports_silent rfl

end Infer

namespace Check

variable {α : Type} {w : Workspace} {ds : Diagnostics} {scope : List String}

theorem reports_inferring {step : Context → Infer α}
    (h : Reports Checker.diagnostics ds (step w.context) w.checker) :
    Reports Workspace.notes ds (inferring step) w := by
  obtain ⟨es, hpre, hes, hdone⟩ := h
  refine ⟨es, hpre, ?_, fun hrun => hdone (runs_inferring hrun).1⟩
  rw [Workspace.notes, afterwards_inferring]
  exact hes

theorem reports_define (name : String) (s : Scheme) :
    Reports Workspace.notes [] (define name s) w := reports_silent rfl

/-- A declaration reports the faults of scope in it. What is done behind its
inference is of no concern to names. -/
theorem reports_declaration (hw : w.context.Binds scope) (d : Expr) :
    Reports Workspace.notes (d.scopeFaults scope) (declaration d) w := by
  refine (reports_inferring (Infer.reports_declaration hw d w.checker)).bind_quiet
    fun {r v} _ => ?_
  obtain ⟨passed, d'⟩ := r
  dsimp only
  split
  next n hn =>
    split
    · refine .quiet_bind (reports_inferring ?_) fun _ =>
        .quiet_bind (reports_define _ _) fun _ => reports_silent rfl
      exact .quiet_bind (reports_silent rfl) fun _ =>
        .quiet_bind (Infer.reports_reportType _ _ _ _) fun _ => reports_silent rfl
    · exact .quiet_bind (reports_define _ _) fun _ => reports_silent rfl
  next =>
    split
    · exact .quiet_bind (reports_inferring (Infer.reports_reportType _ _ _ _)) fun _ =>
        reports_silent rfl
    · exact reports_silent rfl

/-- A program reports the faults of scope in it, where a name is in scope behind
its declaration. -/
theorem reports_program (hw : w.context.Binds scope) (p : Program) :
    Reports Workspace.notes (Program.scopeFaults scope p) (program p) w := by
  induction p generalizing w scope with
  | nil => exact reports_silent rfl
  | cons d ds ih =>
    refine (reports_declaration hw d).bind fun {r v} hrun => ?_
    obtain ⟨_, _, s, -, -, -, hctx, -⟩ := runs_declaration_bindName hrun
    exact (ih (hctx ▸ hw.bindName d.declared? s)).bind_quiet fun _ => reports_silent rfl

/-- Reports about names are complete, and independent of types. Whatever
program is checked, in whatever state, the reports about names, places of
patterns and callees that are added are the faults of scope in its trees, in
order. If the variables run out, they are as many of these as were met by then. -/
theorem program_scope (p : Program) (w : Workspace) :
    (∀ r w', Check.program p w = .ok r w' → w'.checker.diagnostics.aboutScope =
      w.checker.diagnostics.aboutScope ++ Program.scopeFaults w.context.keys p) ∧
    ∀ w', Check.program p w = .error .typeVariables w' → lastVar ≤ w'.checker.next ∧
      ∃ ds, ds <+: Program.scopeFaults w.context.keys p ∧
        w'.checker.diagnostics.aboutScope = w.checker.diagnostics.aboutScope ++ ds := by
  obtain ⟨ds, hpre, hds, hdone⟩ := reports_program (Context.Binds.keys w.context) p
  refine ⟨fun r w' hrun => ?_, fun w' hrun => ⟨(stops_program p).spent hrun, ds, hpre, ?_⟩⟩
  · rw [hrun] at hds
    rw [← hdone hrun]
    exact hds
  · rw [hrun] at hds
    exact hds

/-- `let a = (1 + "s") b` and `match a with x -> fun (y, y) -> x | _ -> y`. The
first fails, but declares its name. -/
theorem program_scope_failed :
    let w : Workspace := ⟨.root {}, Builtins.context⟩
    let name (x : String) : Name := ⟨x, {}⟩
    let value (x : String) : Expr := .ident (name x)
    let twice : Pattern := .tuple [.ident (name "y"), .ident (name "y")] {}
    let p : Program :=
      [.bind (name "a") none
        (.app (.binary .add (.const (.int 1) {}) (.const (.string "s") {}) {}) [value "b"] {})
        none {},
       .cases (value "a")
        [.mk (.ident (name "x")) (.lam none [twice] none (value "x") none {}) {},
         .mk (.wildcard {}) (value "y") {}] {}]
    ∃ as w', program p w = .ok (false, as) w' ∧
      w'.checker.diagnostics.aboutScope.map Diagnostic.category =
        [.unbound, .notApplicable, .duplicate, .unreachable, .unbound] := by
  intro w name value twice p
  have hfails : passes? p w = some false := by decide +kernel
  have hwalk : (Program.scopeFaults w.context.keys p).map Diagnostic.category =
      [.unbound, .notApplicable, .duplicate, .unreachable, .unbound] := by decide +kernel
  obtain ⟨as, w', hrun⟩ := exists_of_passes? hfails
  refine ⟨as, w', hrun, ?_⟩
  rw [(program_scope p w).1 _ w' hrun, List.map_append, hwalk]
  rfl

end Check
end MiniML
