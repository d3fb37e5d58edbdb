import MiniML.Proofs.Typing.Principal

/-!
# Checking programs

A program is checked declaration by declaration, and a name stays in the
context for the declarations behind it. `TypedProgram Γ as Γ'` says that `as`
are derivations one behind the other, and that `Γ'` is what they make of `Γ`.

Results:
* `Check.program_derives`: a program that passes comes back as derivations.
* `Check.program_leads`: a program that has derivations passes, in every
  context that covers the one of the derivations, and leaves one that does.
-/
namespace MiniML

/-! ## Running through a program -/

namespace Check

variable {w w' : Workspace} {d : Expr} {ds ds₁ ds₂ : Program} {r : Bool × Program}

theorem runs_program_cons :
    Runs (program (d :: ds)) w r w' ↔ ∃ passed d' v rest ds',
      Runs (declaration d) w (passed, d') v ∧ Runs (program ds) v (rest, ds') w' ∧
        r = (passed && rest, d' :: ds') := by
  simp only [program, runs_bind, runs_pure]
  constructor
  · rintro ⟨⟨passed, d'⟩, v, hd, ⟨rest, ds'⟩, _, hds, rfl, rfl⟩
    exact ⟨passed, d', v, rest, ds', hd, hds, rfl⟩
  · rintro ⟨passed, d', v, rest, ds', hd, hds, rfl⟩
    exact ⟨(passed, d'), v, hd, (rest, ds'), w', hds, rfl, rfl⟩

theorem runs_program_append :
    Runs (program (ds₁ ++ ds₂)) w r w' ↔ ∃ r₁ v r₂, Runs (program ds₁) w r₁ v ∧
      Runs (program ds₂) v r₂ w' ∧ r = (r₁.1 && r₂.1, r₁.2 ++ r₂.2) := by
  induction ds₁ generalizing w r with
  | nil =>
    simp only [List.nil_append, program, runs_pure]
    constructor
    · intro h
      exact ⟨_, w, r, ⟨rfl, rfl⟩, h, by simp⟩
    · rintro ⟨_, _, r₂, ⟨rfl, rfl⟩, h, rfl⟩
      simpa using h
  | cons d ds₁ ih =>
    simp only [List.cons_append, runs_program_cons, ih]
    constructor
    · rintro ⟨passed, d', v, _, _, hd, ⟨r₁, u, r₂, h₁, h₂, heq⟩, rfl⟩
      obtain ⟨rfl, rfl⟩ := Prod.mk.inj heq
      exact ⟨_, u, r₂, ⟨passed, d', v, _, _, hd, h₁, rfl⟩, h₂, by simp [Bool.and_assoc]⟩
    · rintro ⟨_, u, r₂, ⟨passed, d', v, _, _, hd, h₁, rfl⟩, h₂, rfl⟩
      exact ⟨passed, d', v, _, _, hd, ⟨_, u, r₂, h₁, h₂, rfl⟩, by simp [Bool.and_assoc]⟩

/-- What every declaration keeps, a program keeps. -/
theorem program_induct {P : Workspace → Prop}
    (step : ∀ {d r w w'}, Runs (declaration d) w r w' → P w → P w')
    (h : Runs (program ds) w r w') (hw : P w) : P w' := by
  induction ds generalizing w r with
  | nil =>
    obtain ⟨-, rfl⟩ := runs_pure.mp h
    exact hw
  | cons d ds ih =>
    obtain ⟨_, _, v, _, _, hd, hds, -⟩ := runs_program_cons.mp h
    exact ih hds (step hd hw)

theorem frame_declaration {r : Bool × Expr} (h : Runs (declaration d) w r w') :
    Frame w.checker w'.checker := by
  obtain ⟨c, ds, hinfer, -, hw, -⟩ := runs_declaration h
  rw [hw]
  exact ((Infer.framed_declaration _ _).frame hinfer).trans (.noting c ds)

theorem frame_program (h : Runs (program ds) w r w') : Frame w.checker w'.checker :=
  program_induct (P := fun v => Frame w.checker v.checker)
    (fun hd hv => hv.trans (frame_declaration hd)) h (.refl _)

theorem closed_program (h : Runs (program ds) w r w') (hw : w.context.Closed) :
    w'.context.Closed :=
  program_induct (P := fun v => v.context.Closed) (fun hd hv => closed_declaration hv hd) h hw

theorem stops_program (ds : Program) : Stops (program ds) := by
  induction ds with
  | nil => exact .pure _
  | cons d ds ih => exact .bind (stops_declaration d) fun _ => .bind ih fun _ => .pure _

/-- Whether a program passes, if it is checked to its end. -/
def passes? (ds : Program) (w : Workspace) : Option Bool :=
  match program ds w with
  | .ok r _ => some r.1
  | .error _ _ => none

theorem exists_of_passes? {b : Bool} (h : passes? ds w = some b) :
    ∃ as w', program ds w = .ok (b, as) w' := by
  unfold passes? at h
  split at h
  next r w' heq =>
    cases h
    exact ⟨r.2, w', heq⟩
  next => cases h

end Check

/-! ## Names of declarations -/

namespace Infer

/-- Trees that differ in their slots only declare the same name. -/
theorem bindName_of_blank {d e : Expr} (h : d.blank = e.blank) (Γ : Context) (s : Scheme) :
    bindName Γ d.declared? s = bindName Γ e.declared? s :=
  bindName_congr (Expr.declared?_of_blank h) Γ s

theorem declaration_blank {c c' : Checker} {d d' : Expr} {passed : Bool}
    (h : Runs (Infer.declaration Γ d) c (passed, d') c') : d'.blank = d.blank := by
  obtain ⟨e, he, -, rfl⟩ := runs_declaration h
  rw [Expr.blank, Expr.mapTypes_mapTypes]
  exact expr_blank d he

end Infer

/-- A declaration is inferred, and then its name is bound; to its type,
generalized, or to the error type. -/
theorem Check.runs_declaration_bindName {w w' : Workspace} {d d' : Expr} {passed : Bool}
    (h : Runs (Check.declaration d) w (passed, d') w') :
    ∃ c ds s, Runs (Infer.declaration w.context d) w.checker (passed, d') c ∧
      Diagnostics.errors ds = 0 ∧ w'.checker = c.noting ds ∧
      w'.context = Infer.bindName w.context d.declared? s ∧
      (passed = true → Runs (Infer.generalize w.context d'.ty) c s c) ∧
      (passed = false → s = .mono .error) := by
  obtain ⟨c, ds, hinfer, hds, hw, hplain, hnamed⟩ := runs_declaration h
  simp only [← Infer.bindName_of_blank (Infer.declaration_blank hinfer)]
  cases hd : d'.declared? with
  | some n =>
    obtain ⟨s, hs⟩ := hnamed n hd
    exact ⟨c, ds, s, hinfer, hds, hw, hs⟩
  | none =>
    -- nothing is bound, so any scheme will do
    cases passed with
    | true => exact ⟨c, ds, _, hinfer, hds, hw, hplain hd, fun _ => rfl, nofun⟩
    | false => exact ⟨c, ds, _, hinfer, hds, hw, hplain hd, nofun, fun _ => rfl⟩

/-- A declaration passes if it reports no error. -/
theorem Check.passed_iff {w w' : Workspace} {d d' : Expr} {passed : Bool}
    (h : Check.declaration d w = .ok (passed, d') w') :
    passed = true ↔ w'.checker.errors = w.checker.errors := by
  obtain ⟨_, ds, _, hinfer, hds, hw, -⟩ := runs_declaration_bindName h
  obtain ⟨_, _, hpass, -⟩ := Infer.runs_declaration hinfer
  rw [hw, Checker.errors_noting, hds, hpass]
  exact decide_eq_true_iff

theorem Check.errors_of_passed {w w' : Workspace} {d d' : Expr}
    (h : Check.declaration d w = .ok (true, d') w') : w'.checker.errors = w.checker.errors :=
  (passed_iff h).mp rfl

/-! ## Programs as derivations -/

/-- Derivations of declarations, each in the context that those before it
leave, without the error type. -/
inductive TypedProgram : Context → Program → Context → Prop
  | nil (Γ : Context) : TypedProgram Γ [] Γ
  | cons {Γ Γ' : Context} {a : Expr} {as : Program} {s : Scheme} :
      Typed Γ a → a.Clean → Generalizes Γ a.ty s →
      TypedProgram (Infer.bindName Γ a.declared? s) as Γ' → TypedProgram Γ (a :: as) Γ'

/-- A workspace in which everything that passes has a derivation: no scheme has
a free variable or the error type. -/
structure Workspace.Clean (w : Workspace) : Prop where
  table : w.checker.builtins = Builtins.context
  closed : w.context.Closed
  errorFree : w.context.ErrorFree

/-- A workspace in which everything passes that has a derivation in `Δ`. -/
structure Workspace.Covers (p : Prop) (w : Workspace) (Δ : Context) : Prop where
  table : w.checker.builtins = Builtins.context
  closed : w.context.Closed
  covers : w.context.Covers p .var Δ

theorem Workspace.Clean.covers {p : Prop} {w : Workspace} (hw : w.Clean) :
    w.Covers p w.context where
  table := hw.table
  closed := hw.closed
  covers := .closed hw.closed (fun x s hx _ => hw.errorFree x s hx) .var

namespace Check

variable {p : Prop} {k : Diagnostics} {Δ Δ' : Context} {w w' : Workspace} {d d' : Expr} {T : Ty}
  {passed : Bool} {ds as : Program} {r : Bool × Program}

/-- A declaration that passes comes back as a derivation, and its name is bound
as generally as that allows. -/
theorem declaration_derives (hw : w.Clean) (h : Runs (declaration d) w (true, d') w') :
    w'.Clean ∧ d'.blank = d.blank ∧ Typed w.context d' ∧ d'.Clean ∧
      ∃ s, Generalizes w.context d'.ty s ∧
        w'.context = Infer.bindName w.context d'.declared? s := by
  have htable := (frame_declaration h).builtins.trans hw.table
  have hclosed := closed_declaration hw.closed h
  obtain ⟨c, ds, s, hinfer, -, -, hctx, hgen, -⟩ := runs_declaration_bindName h
  obtain ⟨hs, hblank, htyped, hclean, hfix⟩ :=
    Infer.declaration_derives hw.table hw.closed hw.errorFree hinfer
  obtain ⟨hbody, hvars⟩ :=
    Infer.generalize_closed hw.closed hs (hfix _ d'.ty_mem_slots) (hgen rfl)
  refine ⟨⟨htable, hclosed, ?_⟩, hblank, htyped, hclean, s, ⟨hbody, fun v => ?_⟩, ?_⟩
  · rw [hctx]
    exact hw.errorFree.bindName (hbody ▸ hclean.ty)
  · rw [hvars]
    exact ⟨fun hv => ⟨hv, fun ⟨x, s, hx, hfree⟩ => hw.closed x s hx v hfree⟩, And.left⟩
  · rw [hctx, Infer.bindName_of_blank hblank]

/-- A program that passes comes back as derivations. -/
theorem program_derives (hw : w.Clean) (h : Runs (program ds) w (true, as) w') :
    w'.Clean ∧ as.map Expr.blank = ds.map Expr.blank ∧ TypedProgram w.context as w'.context := by
  induction ds generalizing w as with
  | nil =>
    obtain ⟨heq, rfl⟩ := runs_pure.mp h
    cases heq
    exact ⟨hw, rfl, .nil _⟩
  | cons d ds ih =>
    obtain ⟨passed, d', v, rest, as', hd, hds, heq⟩ := runs_program_cons.mp h
    obtain ⟨hpass, rfl⟩ := Prod.mk.inj heq
    obtain ⟨rfl, rfl⟩ : passed = true ∧ rest = true := by simpa using hpass.symm
    obtain ⟨hv, hblank, htyped, hclean, s, hgen, hctx⟩ := declaration_derives hw hd
    obtain ⟨hw', hblanks, has⟩ := ih hv hds
    refine ⟨hw', by rw [List.map_cons, List.map_cons, hblank, hblanks], ?_⟩
    exact .cons htyped hclean hgen (hctx ▸ has)

/-- A declaration that has a derivation, perhaps except for some part that
reports `k`, reports that and nothing else; and its name is bound at least as
generally as in the derivation. -/
theorem declaration_leads (hw : w.Covers p Δ) (hd : Infer.Complete p Δ k d T) (hp : k ≠ [] → p)
    (h : Runs (declaration d) w (passed, d') w') :
    passed = decide (k = []) ∧ w'.checker.faults = w.checker.faults ++ k ∧
      ∀ s, Generalizes Δ T s → w'.Covers p (Infer.bindName Δ d.declared? s) := by
  have htable := (frame_declaration h).builtins.trans hw.table
  have hclosed := closed_declaration hw.closed h
  obtain ⟨c, ds, s', hinfer, hds, hchecker, hctx, hpass, hfail⟩ := runs_declaration_bindName h
  have hf := Infer.follows_start hw.table hw.closed hw.covers
  obtain ⟨rfl, θ, l, hty⟩ := Infer.declaration_leads hf hd hinfer
  refine ⟨rfl, ?_, fun s hs => ⟨htable, hclosed, ?_⟩⟩
  · rw [hchecker, Checker.faults_quiet c hds, l.faults]
    rfl
  · rw [hctx]
    refine hw.covers.bindName ?_ _
    by_cases hk : k = []
    · have hgen := hpass (decide_eq_true hk)
      have hcov := covers_generalize (hf.step l).covers l.suits.sane.idem l.suits.exact
        l.suits.blurred hgen hty.blur hty.exact hs
      -- nothing is free in the scheme that is found, so `θ` does not matter
      exact hcov.congr .var fun v hv =>
        absurd ((Infer.mem_vars_generalize hw.closed hgen v).mpr hv.1) hv.2
    · rw [hfail (decide_eq_false hk)]
      exact .lost (hp hk) .var (hs.body ▸ hty.exact)

/-- Derivations pass, also where more can be used than in their context, and
they report no error. -/
theorem program_leads (has : TypedProgram Δ as Δ')
    (hblank : as.map Expr.blank = ds.map Expr.blank) (hw : w.Covers p Δ)
    (h : Runs (program ds) w r w') :
    r.1 = true ∧ w'.checker.faults = w.checker.faults ∧ w'.Covers p Δ' := by
  induction has generalizing w ds r with
  | nil Γ =>
    obtain rfl := List.map_eq_nil_iff.mp hblank.symm
    obtain ⟨rfl, rfl⟩ := runs_pure.mp h
    exact ⟨rfl, rfl, hw⟩
  | @cons Γ Γ' a as s htyped hclean hgen _ ih =>
    obtain ⟨d, ds, rfl⟩ := List.exists_cons_of_ne_nil (l := ds) (by rintro rfl; cases hblank)
    obtain ⟨hd, hds⟩ := List.cons.inj hblank
    obtain ⟨passed, d', v, rest, ds', hrun, hruns, rfl⟩ := runs_program_cons.mp h
    have hcomplete : Infer.Complete p Γ [] d a.ty :=
      (Infer.expr_complete htyped fun t ht _ => hclean t ht).of_blank hd
    obtain ⟨rfl, hfaults, hv⟩ := declaration_leads hw hcomplete (absurd rfl) hrun
    obtain ⟨hrest, hfaults', hw'⟩ := ih hds (Infer.bindName_of_blank hd Γ s ▸ hv s hgen) hruns
    refine ⟨hrest, ?_, hw'⟩
    rw [hfaults', hfaults, List.append_nil]

end Check
end MiniML
