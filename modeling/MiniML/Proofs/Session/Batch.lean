import MiniML.Session
import MiniML.Proofs.Typing.History
import MiniML.Proofs.Typing.Program

/-!
# A session is a check of what it accepted

A session keeps one checker for all inputs, and inputs that fail have used it
too: they have drawn variables and left a substitution behind, though their
bindings are dropped. A check of the inputs that passed, one program from a
new checker, knows nothing of this, and yet builds up the same context up to
the names of quantified variables (`Session.evalAll_batch`).

`Reruns b s` relates the two: what `b` has checked is what `s` has accepted,
at lower numbers. An input that passes takes both on; one that fails raises the
numbers of `s` alone.
-/
namespace MiniML

/-! ## Programs at different heights -/

section Heights

variable {k : Nat} {p p' : Diagnostics} {Γ Δ : Context} {b s : Workspace}

/-- Workspaces that differ in what they have drawn, and in what the last
declaration left behind. -/
def Workspace.Parallel (k : Nat) (p p' : Diagnostics) (b s : Workspace) : Prop :=
  Workspace.Shifted k p p' b.forget s.forget

theorem Workspace.Shifted.parallel (h : b.Shifted k p p' s) : b.Parallel k p p' s :=
  ⟨{ h.checker with subst := Subst.renamed_empty.symm }, h.context⟩

/-- Checking a program does the same at any height. -/
theorem Check.mirrored_program (ds : Program) :
    Mirrored (Workspace.Parallel k p p') (Prod.map id (List.map (Infer.raisedTree k)))
      (program ds) (program ds) := by
  have hdecl (d : Expr) : Mirrored (Workspace.Parallel k p p') (Prod.map id (Infer.raisedTree k))
      (declaration d) (declaration d) := by
    intro b s r s' hS hs
    obtain ⟨r₁, b', hb, hr, hS⟩ := mirrored_declaration d hS hs
    exact ⟨r₁, b', hb, hr, hS.parallel⟩
  induction ds with
  | nil => exact .pure rfl
  | cons d ds ih => exact .bind (hdecl d) fun _ => .bind ih fun _ => .pure rfl

/-- Closed contexts stand for each other at any height. -/
theorem Context.Shifted.change (h : Γ.Shifted k Δ) (hΓ : Γ.Closed) (k' : Nat) : Γ.Shifted k' Δ := by
  intro x
  have hx := h x
  cases hget : Γ.get? x <;> cases hget' : Δ.get? x <;> rw [hget, hget'] at hx
  · exact .none
  · cases hx
  · cases hx
  · cases hx with
    | some hs =>
      obtain ⟨ρ, rfl, -⟩ := hs.exists_renamed
      exact .some (.closed ρ (hΓ x _ hget))

/-- The schemes of closed contexts that stand for each other differ in the
names of quantified variables only. -/
theorem Context.Shifted.alphaEq (h : Γ.Shifted k Δ) (hΓ : Γ.Closed) (x : String) :
    Option.Rel (fun s s' => s.AlphaEq s' ∧ s'.text = s.text) (Γ.get? x) (Δ.get? x) := by
  have hx := h x
  cases hget : Γ.get? x <;> cases hget' : Δ.get? x <;> rw [hget, hget'] at hx
  · exact .none
  · cases hx
  · cases hx
  · cases hx with
    | some hs =>
      obtain ⟨ρ, rfl, -⟩ := hs.exists_renamed
      have halpha := (hΓ x _ hget).alphaEq ρ
      exact .some ⟨halpha, halpha.text⟩

end Heights

/-! ## One input -/

namespace Session

variable {s s' : Session} {b : Workspace} {input : String} {e : Evaluation} {passed : Bool}
  {found : Diagnostics}

/-- What a session makes of declarations is what a program makes of them. -/
theorem declarations_passed (ds : Program) :
    Evaluation.passed <$> declarations ds = Prod.fst <$> Check.program ds := by
  induction ds with
  | nil => rfl
  | cons d ds ih =>
    have hget (w : Workspace) : (get : Check Workspace) w = .ok w w := rfl
    funext w
    simp only [declarations, Check.program, map_bind, map_pure]
    simp only [bind, EStateM.bind]
    cases Check.declaration d w with
    | error x v => rfl
    | ok r v =>
      have hv := congrFun ih v
      simp only [Functor.map, EStateM.map] at hv
      simp only [hget]
      cases hds : declarations ds v <;> cases hp : Check.program ds v <;>
        simp only [hds, hp] at hv ⊢
      · obtain ⟨hpass, rfl⟩ := EStateM.Result.ok.inj hv
        rw [hpass]
      · cases hv
      · cases hv
      · cases hv
        rfl

theorem runs_declarations {ds : Program} {w w' : Workspace} {passed : Bool} :
    (∃ e, Runs (declarations ds) w e w' ∧ passed = e.passed) ↔
      ∃ r, Runs (Check.program ds) w r w' ∧ passed = r.1 := by
  rw [← runs_map, ← runs_map, declarations_passed]

/-- An input that cannot be read changes nothing. One that can is checked, and
its diagnostics are handed over; its bindings stay if it passed. -/
theorem runs_eval :
    (∃ e, Runs (eval input) s e s' ∧ passed = e.passed ∧ found = e.diagnostics) ↔
      ((readSource input).2 ≠ [] ∧ passed = false ∧ found = (readSource input).2 ∧ s' = s) ∨
      ((readSource input).2 = [] ∧ ∃ r w, Runs (Check.program (readSource input).1) s r w ∧
        passed = r.1 ∧ found = w.checker.diagnostics ∧
        s' = ⟨{ w.checker with diagnostics := [] }, if r.1 then w.context else s.context⟩) := by
  unfold Runs eval
  obtain ⟨program, ds⟩ := readSource input
  cases ds with
  | cons d ds =>
    simp only [ne_eq, reduceCtorEq, not_false_eq_true, true_and, false_and, or_false,
      EStateM.Result.ok.injEq]
    constructor
    · rintro ⟨_, ⟨rfl, rfl⟩, rfl, rfl⟩
      exact ⟨rfl, rfl, rfl⟩
    · rintro ⟨rfl, rfl, rfl⟩
      exact ⟨_, ⟨rfl, rfl⟩, rfl, rfl⟩
  | nil =>
    simp only [ne_eq, not_true_eq_false, false_and, true_and, false_or]
    constructor
    · rintro ⟨e, he, rfl, rfl⟩
      cases hrun : declarations program s with
      | error x w => rw [hrun] at he; cases he
      | ok r w =>
        rw [hrun] at he
        obtain ⟨rfl, rfl⟩ := EStateM.Result.ok.inj he
        obtain ⟨r', hr', hpass⟩ := runs_declarations.mp ⟨r, hrun, rfl⟩
        refine ⟨r', w, hr', hpass, rfl, ?_⟩
        rw [← hpass]
        rfl
    · rintro ⟨r, w, hr, rfl, rfl, rfl⟩
      obtain ⟨e, he, hpass⟩ := runs_declarations.mpr ⟨r, hr, rfl⟩
      refine ⟨{ e with diagnostics := w.checker.diagnostics }, ?_, hpass, rfl⟩
      rw [he, hpass]
      rfl

/-- What holds of a session between inputs. -/
structure Settled (s : Session) : Prop where
  supply : 1 ≤ s.checker.next
  table : s.checker.builtins = Builtins.context
  config : s.checker.config = {}
  sink : s.checker.diagnostics = []
  closed : s.context.Closed

theorem settled_new : Settled new := ⟨Nat.le_refl 1, rfl, rfl, rfl, Builtins.context_closed⟩

theorem Settled.eval (hs : s.Settled) (h : Runs (eval input) s e s') : s'.Settled := by
  rcases runs_eval.mp ⟨e, h, rfl, rfl⟩ with ⟨-, -, -, rfl⟩ | ⟨-, r, w, hw, -, -, rfl⟩
  · exact hs
  · have hf := Check.frame_program hw
    refine ⟨Nat.le_trans hs.supply hf.next_le, hf.builtins.trans hs.table,
      hf.config.trans hs.config, rfl, ?_⟩
    show (if r.1 then w.context else s.context).Closed
    split
    · exact Check.closed_program hw hs.closed
    · exact hs.closed

/-- An input that fails leaves the context as it was. -/
theorem eval_failed (h : Runs (eval input) s e s') (hfail : e.passed = false) :
    s'.context = s.context := by
  rcases runs_eval.mp ⟨e, h, rfl, rfl⟩ with ⟨-, -, -, rfl⟩ | ⟨-, r, w, -, hr, -, rfl⟩
  · rfl
  · rw [← hr, hfail]
    rfl

/-- `b` has checked what `s` has accepted. -/
structure Reruns (b : Workspace) (s : Session) : Prop where
  parallel : ∃ k, b.Parallel k b.checker.diagnostics s.checker.diagnostics s
  closed : b.context.Closed

/-- A new checker in the context of a session stands below the session. -/
theorem Settled.reruns (hs : s.Settled) : Reruns ⟨.root {}, s.context⟩ s := by
  refine ⟨⟨s.checker.next - 1, ⟨?_, rfl, hs.table, Builtins.context_closed, hs.config, [], [], ?_⟩,
    .self hs.closed _⟩, hs.closed⟩
  · exact (Nat.add_sub_cancel' hs.supply).symm
  · exact ⟨rfl, (List.append_nil _).symm, .nil⟩

/-- An input that passes, seen from the workspace that reruns the session. -/
theorem Reruns.accept (hb : Reruns b s) (h : Runs (eval input) s e s') (hpass : e.passed = true) :
    ∃ ds' b', Runs (Check.program (readSource input).1) b (true, ds') b' ∧ Reruns b' s' := by
  obtain ⟨⟨k, hS⟩, hclosed⟩ := hb
  rcases runs_eval.mp ⟨e, h, rfl, rfl⟩ with ⟨-, hfail, -⟩ | ⟨-, r, w, hw, hr, -, rfl⟩
  · rw [hpass] at hfail
    cases hfail
  · obtain ⟨⟨passed, ds'⟩, b', hb', heq, hS'⟩ := Check.mirrored_program _ hS hw
    have hpassed : passed = true := by
      rw [hpass, heq] at hr
      exact hr.symm
    subst hpassed
    refine ⟨ds', b', hb', ⟨k, ?_, ?_⟩, Check.closed_program hb' hclosed⟩
    · exact { hS'.checker with diagnostics := ⟨[], [], (List.append_nil _).symm, rfl, .nil⟩ }
    · rw [← hr, hpass]
      exact hS'.context

/-- An input that fails is not rerun. -/
theorem Reruns.reject (hb : Reruns b s) (h : Runs (eval input) s e s') (hfail : e.passed = false) :
    Reruns b s' := by
  obtain ⟨⟨k, hS⟩, hclosed⟩ := hb
  refine ⟨?_, hclosed⟩
  rcases runs_eval.mp ⟨e, h, rfl, rfl⟩ with ⟨-, -, -, rfl⟩ | ⟨-, r, w, hw, hr, -, rfl⟩
  · exact ⟨k, hS⟩
  · have hf := Check.frame_program hw
    have hnext : s.checker.next = b.checker.next + k := hS.checker.next
    have hle : b.checker.next ≤ w.checker.next :=
      Nat.le_trans (hnext ▸ Nat.le_add_right _ k) hf.next_le
    refine ⟨w.checker.next - b.checker.next,
      ⟨(Nat.add_sub_cancel' hle).symm, rfl, hf.builtins.trans hS.checker.builtins,
        hS.checker.closed, hf.config.trans hS.checker.config, [], [], ?_⟩, ?_⟩
    · exact ⟨(List.append_nil _).symm, rfl, .nil⟩
    · rw [← hr, hfail]
      exact hS.context.change hclosed _

/-! ## All inputs -/

/-- Evaluate inputs one after the other. -/
def evalAll (inputs : List String) : EStateM Exhausted Session (List Evaluation) :=
  inputs.mapM eval

/-- The declarations of the inputs that passed, in order. -/
def accepted (inputs : List String) (es : List Evaluation) : Program :=
  (inputs.zip es).flatMap fun p => if p.2.passed then (readSource p.1).1 else []

variable {inputs : List String} {es : List Evaluation}

theorem runs_evalAll_cons :
    Runs (evalAll (input :: inputs)) s es s' ↔ ∃ e v es', Runs (eval input) s e v ∧
      Runs (evalAll inputs) v es' s' ∧ es = e :: es' := by
  simp only [evalAll, List.mapM_cons, runs_bind, runs_pure]
  constructor
  · rintro ⟨e, v, he, es', _, hes, rfl, rfl⟩
    exact ⟨e, v, es', he, hes, rfl⟩
  · rintro ⟨e, v, es', he, hes, rfl⟩
    exact ⟨e, v, he, es', s', hes, rfl, rfl⟩

theorem Settled.evalAll (hs : s.Settled) (h : Runs (evalAll inputs) s es s') : s'.Settled := by
  induction inputs generalizing s es with
  | nil =>
    obtain ⟨-, rfl⟩ := runs_pure.mp h
    exact hs
  | cons input inputs ih =>
    obtain ⟨e, v, es', he, hes, -⟩ := runs_evalAll_cons.mp h
    exact ih (hs.eval he) hes

/-- All inputs, seen from the workspace that reruns the session. -/
theorem Reruns.evalAll (hb : Reruns b s) (h : Runs (evalAll inputs) s es s') :
    ∃ ds' b', Runs (Check.program (accepted inputs es)) b (true, ds') b' ∧ Reruns b' s' := by
  induction inputs generalizing b s es with
  | nil =>
    obtain ⟨rfl, rfl⟩ := runs_pure.mp h
    exact ⟨[], b, rfl, hb⟩
  | cons input inputs ih =>
    obtain ⟨e, v, es', he, hes, rfl⟩ := runs_evalAll_cons.mp h
    cases hpass : e.passed with
    | true =>
      obtain ⟨ds₁, b₁, hb₁, hv⟩ := hb.accept he hpass
      obtain ⟨ds₂, b₂, hb₂, hs'⟩ := ih hv hes
      refine ⟨ds₁ ++ ds₂, b₂, ?_, hs'⟩
      rw [accepted, List.zip_cons_cons, List.flatMap_cons, if_pos hpass]
      exact Check.runs_program_append.mpr ⟨_, b₁, _, hb₁, hb₂, rfl⟩
    | false =>
      have hskip : accepted (input :: inputs) (e :: es') = accepted inputs es' := by
        simp [accepted, hpass]
      rw [hskip]
      exact ih (hb.reject he hpass) hes

/-- Nothing that a session did before shows in an evaluation but its context:
a new checker in that context comes to the same verdict, and reports the same
up to the numbers of variables. -/
theorem eval_anew (hs : s.Settled) (h : Runs (eval input) s e s') :
    ∃ (e₀ : Evaluation) (s₀ : Session) (ρ : Equiv.Perm TyVar),
      Runs (eval input) ⟨.root {}, s.context⟩ e₀ s₀ ∧ e₀.passed = e.passed ∧
        List.Forall₂ (Diagnostic.Renamed ρ) e₀.diagnostics e.diagnostics := by
  rcases runs_eval.mp ⟨e, h, rfl, rfl⟩ with ⟨hread, hpass, hfound, -⟩ | ⟨hread, r, w, hw, hr, hfound, -⟩
  · obtain ⟨e₀, he₀, hpass₀, hfound₀⟩ :=
      (runs_eval (s := ⟨.root {}, s.context⟩)).mpr (.inl ⟨hread, rfl, rfl, rfl⟩)
    refine ⟨e₀, _, 1, he₀, hpass₀.symm.trans hpass.symm, ?_⟩
    rw [← hfound₀, hfound]
    exact List.forall₂_same.mpr fun d _ => .refl _ d
  · obtain ⟨k, hS⟩ := hs.reruns.parallel
    obtain ⟨r₀, w₀, hw₀, hr₀, hS₀⟩ := Check.mirrored_program _ hS hw
    obtain ⟨ds, ds', hds, hds', hrel⟩ := hS₀.checker.diagnostics
    obtain ⟨n, hn⟩ := Diagnostic.exists_bound hrel
    obtain ⟨ρ, hρ⟩ := exists_perm_eq (raise k) n
    obtain ⟨e₀, he₀, hpass₀, hfound₀⟩ := (runs_eval (s := ⟨.root {}, s.context⟩)).mpr
      (.inr ⟨hread, r₀, w₀, hw₀, rfl, rfl, rfl⟩)
    refine ⟨e₀, _, ρ, he₀, ?_, ?_⟩
    · rw [← hpass₀, hr, hr₀]
      rfl
    · have h₀ : w₀.checker.diagnostics = ds := hds
      have h₁ : w.checker.diagnostics = s.checker.diagnostics ++ ds' := hds'
      rw [← hfound₀, hfound, h₀, h₁, hs.sink]
      exact hn ρ hρ

/-- A session is a check of what it accepted. Whatever the inputs, and whatever
became of them: the declarations of those that passed, checked as one program,
pass too, and bind the same names to the same schemes up to the names of
quantified variables. An input that fails leaves the context as it was. No
input leaves a diagnostic behind, so that each evaluation reports what a new
checker would report in its place. -/
theorem evalAll_batch (h : evalAll inputs .new = .ok es s) :
    (∃ o, checkProgram (accepted inputs es) {} = .ok o ∧ o.passed = true ∧
      ∀ x, Option.Rel (fun t u => t.AlphaEq u ∧ u.text = t.text) (o.context.get? x)
        (s.context.get? x)) ∧
    s.checker.diagnostics = [] ∧
    ∀ input e s', eval input s = .ok e s' →
      s'.checker.diagnostics = [] ∧ (e.passed = false → s'.context = s.context) ∧
      ∃ (e₀ : Evaluation) (s₀ : Session) (ρ : Equiv.Perm TyVar),
        eval input ⟨.root {}, s.context⟩ = .ok e₀ s₀ ∧ e₀.passed = e.passed ∧
          List.Forall₂ (Diagnostic.Renamed ρ) e₀.diagnostics e.diagnostics := by
  have hs := settled_new.evalAll h
  refine ⟨?_, hs.sink, fun input e s' he => ⟨(hs.eval he).sink, eval_failed he, eval_anew hs he⟩⟩
  obtain ⟨ds', b, hb, ⟨k, hS⟩, hclosed⟩ := settled_new.reruns.evalAll h
  refine ⟨⟨ds', b.context, b.checker.diagnostics, true⟩, ?_, rfl, ?_⟩
  · have hrun : Check.program (accepted inputs es) ⟨.root {}, Builtins.context⟩ =
        .ok (true, ds') b := hb
    rw [checkProgram, hrun]
    rfl
  · exact hS.context.alphaEq hclosed

/-- Which inputs pass. -/
def verdicts? (inputs : List String) : Option (List Bool) :=
  match evalAll inputs .new with
  | .ok es _ => some (es.map (·.passed))
  | .error _ _ => none

/-- An unbound name, a declaration that breaks off, and an unfinished string
between two declarations, of which the second uses the first. -/
theorem evalAll_batch_mixed :
    let inputs := ["let id = fun x -> x", "let y = id z", "let", "\"", "let one = id 1"]
    ∃ es s o, evalAll inputs .new = .ok es s ∧
      es.map (·.passed) = [true, false, false, false, true] ∧ s.checker.diagnostics = [] ∧
      checkProgram (accepted inputs es) {} = .ok o ∧ o.passed = true := by
  intro inputs
  have hverdicts : verdicts? inputs = some [true, false, false, false, true] := by decide +kernel
  unfold verdicts? at hverdicts
  split at hverdicts
  next es s hrun =>
    obtain ⟨⟨o, ho, hpass, -⟩, hsink, -⟩ := evalAll_batch hrun
    exact ⟨es, s, o, hrun, Option.some.inj hverdicts, hsink, ho, hpass⟩
  next => cases hverdicts

end Session
end MiniML
