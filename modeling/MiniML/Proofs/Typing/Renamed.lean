import Mathlib.Data.List.Forall2
import Mathlib.Logic.Equiv.Defs
import MiniML.Proofs.Ty.Rename
import MiniML.Typing.Error

/-!
# Diagnostics up to the numbers of variables

A message shows the variables of its types by their numbers, so that two
checkers that have drawn different variables word the same finding
differently. `Diagnostic.Renamed ρ d d'` says that this is the only difference:
both messages fill in one template, `d` with the variables of the template
and `d'` with those that `ρ` takes them to.

Results:
* `TypeError.renamed`: a type error about renamed types is reported as before,
  up to the renaming.
* `Diagnostic.Renamed.symm`: a permutation can be undone.
* `Diagnostic.exists_bound`: only finitely many variables matter.
-/
namespace MiniML

/-! ## Templates -/

/-- A text with gaps, each for the number of a variable. -/
abbrev Template := List (String ⊕ TyVar)

namespace Template

/-- The text with every gap filled by the name of its variable. -/
def fill (name : TyVar → String) : Template → String
  | [] => ""
  | .inl s :: ps => s ++ fill name ps
  | .inr v :: ps => name v ++ fill name ps

/-- The same text with gaps for other variables. -/
def rename (ρ : TyVar → TyVar) (ps : Template) : Template := ps.map (Sum.map id ρ)

variable {name : TyVar → String}

theorem fill_append (ps qs : Template) : fill name (ps ++ qs) = fill name ps ++ fill name qs := by
  induction ps with
  | nil => simp [fill]
  | cons p ps ih =>
    rcases p with s | v
    · simp only [List.cons_append, fill, ih, String.append_assoc]
    · simp only [List.cons_append, fill, ih, String.append_assoc]

theorem fill_rename (ρ : TyVar → TyVar) (ps : Template) :
    fill name (ps.rename ρ) = fill (fun v => name (ρ v)) ps := by
  induction ps with
  | nil => rfl
  | cons p ps ih =>
    rcases p with s | v
    · exact congrArg (s ++ ·) ih
    · exact congrArg (name (ρ v) ++ ·) ih

theorem fill_congr {name' : TyVar → String} {ps : Template}
    (h : ∀ v, .inr v ∈ ps → name v = name' v) : fill name ps = fill name' ps := by
  induction ps with
  | nil => rfl
  | cons p ps ih =>
    have ih := ih fun v hv => h v (List.mem_cons_of_mem _ hv)
    rcases p with s | v
    · exact congrArg (s ++ ·) ih
    · rw [fill, fill, ih, h v List.mem_cons_self]

/-- A text that depends on the names of variables only through its gaps. -/
def Describes (ps : Template) (f : (TyVar → String) → String) : Prop :=
  ∀ name, f name = ps.fill name

variable {f g : (TyVar → String) → String}

theorem describes_const (s : String) : ∃ ps, Describes ps fun _ => s :=
  ⟨[.inl s], fun _ => by simp [fill]⟩

theorem describes_var (v : TyVar) : ∃ ps, Describes ps fun name => name v :=
  ⟨[.inr v], fun _ => by simp [fill]⟩

theorem describes_append (hf : ∃ ps, Describes ps f) (hg : ∃ ps, Describes ps g) :
    ∃ ps, Describes ps fun name => f name ++ g name := by
  obtain ⟨ps, hf⟩ := hf
  obtain ⟨qs, hg⟩ := hg
  exact ⟨ps ++ qs, fun name => by rw [fill_append, ← hf name, ← hg name]⟩

theorem describes_parens (b : Bool) (hf : ∃ ps, Describes ps f) :
    ∃ ps, Describes ps fun name => if b then Ty.parens (f name) else f name := by
  cases b with
  | true => exact describes_append (describes_append (describes_const "(") hf) (describes_const ")")
  | false => exact hf

theorem describes_intercalate (sep : String) {fs : List ((TyVar → String) → String)}
    (h : ∀ f ∈ fs, ∃ ps, Describes ps f) :
    ∃ ps, Describes ps fun name => sep.intercalate (fs.map (· name)) := by
  induction fs with
  | nil => exact describes_const ""
  | cons f fs ih =>
    have hf := h f List.mem_cons_self
    have ih := ih fun g hg => h g (List.mem_cons_of_mem _ hg)
    cases fs with
    | nil => simpa using hf
    | cons g gs =>
      simp only [List.map_cons, String.intercalate_cons_cons] at ih ⊢
      exact describes_append (describes_append hf (describes_const sep)) ih

end Template

/-- The text of a type shows its variables and nothing else about them. -/
theorem Ty.describes_text (t : Ty) : ∃ ps, Template.Describes ps fun name => t.text name := by
  induction t with
  | var v => exact Template.describes_var v
  | fn a b ha hb =>
    simp only [text]
    exact Template.describes_append
      (Template.describes_append (Template.describes_parens _ ha) (Template.describes_const _)) hb
  | tuple ts ih =>
    cases hts : ts.isEmpty with
    | true => simpa only [text, hts, if_true] using Template.describes_const "()"
    | false =>
      -- the texts of the items, each as a function of the names
      let texts : List ((TyVar → String) → String) :=
        ts.map fun t name => if t.isFn || t.isTuple then parens (t.text name) else t.text name
      have htexts : ∀ f ∈ texts, ∃ ps, Template.Describes ps f := by
        intro f hf
        obtain ⟨t, ht, rfl⟩ := List.mem_map.mp hf
        exact Template.describes_parens _ (ih t ht)
      simpa [texts, text, hts, itemTexts_eq, Function.comp_def] using
        Template.describes_intercalate " * " htexts
  | prim p => exact Template.describes_const _
  | error => exact Template.describes_const _

/-! ## Diagnostics -/

/-- `d'` is `d` with the variables that its message shows renamed. -/
structure Diagnostic.Renamed (ρ : TyVar → TyVar) (d d' : Diagnostic) : Prop where
  severity : d'.severity = d.severity
  category : d'.category = d.category
  span : d'.span = d.span
  help : d'.help = d.help
  message : ∃ ps : Template, d.message = ps.fill Ty.varText ∧
    d'.message = (ps.rename ρ).fill Ty.varText

namespace Diagnostic

variable {ρ : TyVar → TyVar} {d d' : Diagnostic}

theorem Renamed.refl (ρ : TyVar → TyVar) (d : Diagnostic) : d.Renamed ρ d :=
  ⟨rfl, rfl, rfl, rfl, [.inl d.message], by simp [Template.fill], by
    simp [Template.fill, Template.rename]⟩

theorem Renamed.symm {π : Equiv.Perm TyVar} (h : d.Renamed π d') : d'.Renamed π.symm d := by
  obtain ⟨ps, h1, h2⟩ := h.message
  refine ⟨h.severity.symm, h.category.symm, h.span.symm, h.help.symm, ps.rename π, h2, ?_⟩
  rw [h1, Template.fill_rename, Template.fill_rename]
  simp only [Equiv.symm_apply_apply]

/-- Only the variables up to some bound matter for a renaming. -/
theorem Renamed.exists_bound (h : d.Renamed ρ d') :
    ∃ n, ∀ π : TyVar → TyVar, (∀ v < n, π v = ρ v) → d.Renamed π d' := by
  obtain ⟨ps, h1, h2⟩ := h.message
  obtain ⟨n, hn⟩ := exists_above (ps.filterMap Sum.getRight?)
  refine ⟨n, fun π hπ => ⟨h.severity, h.category, h.span, h.help, ps, h1, ?_⟩⟩
  rw [h2, Template.fill_rename, Template.fill_rename]
  exact Template.fill_congr fun v hv => by
    rw [hπ v (hn v (List.mem_filterMap.mpr ⟨_, hv, rfl⟩))]

theorem exists_bound {ds ds' : Diagnostics} (h : List.Forall₂ (Renamed ρ) ds ds') :
    ∃ n, ∀ π : TyVar → TyVar, (∀ v < n, π v = ρ v) → List.Forall₂ (Renamed π) ds ds' := by
  induction h with
  | nil => exact ⟨0, fun _ _ => .nil⟩
  | cons hd _ ih =>
    obtain ⟨n, hn⟩ := hd.exists_bound
    obtain ⟨m, hm⟩ := ih
    refine ⟨max n m, fun π hπ => .cons (hn π fun v hv => ?_) (hm π fun v hv => ?_)⟩
    · exact hπ v (Nat.lt_of_lt_of_le hv (Nat.le_max_left n m))
    · exact hπ v (Nat.lt_of_lt_of_le hv (Nat.le_max_right n m))

/-- Diagnostics that differ in variables only have as many errors. -/
theorem errors_renamed {ds ds' : Diagnostics} (h : List.Forall₂ (Renamed ρ) ds ds') :
    Diagnostics.errors ds' = Diagnostics.errors ds := by
  induction h with
  | nil => rfl
  | cons hd _ ih =>
    simp only [Diagnostics.errors, Diagnostics.count, List.countP_cons, hd.severity] at ih ⊢
    rw [ih]

end Diagnostic

/-! ## Type errors -/

/-- What is wrong, with variables renamed. -/
def TypeErrorKind.rename (ρ : TyVar → TyVar) : TypeErrorKind → TypeErrorKind
  | .occurs v t => .occurs (ρ v) (t.rename ρ)
  | .mismatch s t context => .mismatch (s.rename ρ) (t.rename ρ) context
  | .hintMismatch s t => .hintMismatch (s.rename ρ) (t.rename ρ)
  | k => k

/-- A type error with variables renamed. -/
def TypeError.rename (ρ : TyVar → TyVar) (e : TypeError) : TypeError := ⟨e.kind.rename ρ, e.span⟩

section Errors

variable (ρ : TyVar → TyVar)

theorem TypeError.ofUnify_rename (e : UnifyError) (span : Span) (context : String) :
    ofUnify (e.rename ρ) span context = (ofUnify e span context).rename ρ := by
  cases e <;> rfl

theorem TypeErrorKind.describes_message (k : TypeErrorKind) :
    ∃ ps : Template, ∀ ρ : TyVar → TyVar, (k.rename ρ).message = (ps.rename ρ).fill Ty.varText := by
  have hty (t : Ty) : ∃ ps, Template.Describes ps fun name => t.text name := t.describes_text
  -- every message is a template filled by the names that `ρ` gives the variables
  suffices h : ∃ f, (∃ ps, Template.Describes ps f) ∧
      ∀ ρ : TyVar → TyVar, (k.rename ρ).message = f fun v => Ty.varText (ρ v) by
    obtain ⟨f, ⟨ps, hps⟩, hf⟩ := h
    exact ⟨ps, fun ρ => by rw [hf, hps, Template.fill_rename]⟩
  cases k with
  | unbound _ | invalidOperator _ _ | notApplicable _ | duplicate _ =>
    exact ⟨_, Template.describes_const _, fun _ => rfl⟩
  | occurs v t =>
    refine ⟨fun name => "cannot construct infinite type: " ++ name v ++ " = " ++ t.text name, ?_,
      fun ρ => by simp only [← Ty.text_rename]; rfl⟩
    exact Template.describes_append (Template.describes_append (Template.describes_append
      (Template.describes_const _) (Template.describes_var v)) (Template.describes_const _)) (hty t)
  | mismatch s t context =>
    -- the context is told at the end, whatever the types are
    obtain ⟨rest, hrest⟩ : ∃ rest : String, ∀ s t : Ty, (mismatch s t context).message =
        "cannot unify " ++ s.pretty ++ " with " ++ t.pretty ++ rest := ⟨_, fun _ _ => rfl⟩
    refine ⟨fun name => "cannot unify " ++ s.text name ++ " with " ++ t.text name ++ rest, ?_,
      fun ρ => by simp only [← Ty.text_rename]; exact hrest _ _⟩
    exact Template.describes_append (Template.describes_append (Template.describes_append
      (Template.describes_append (Template.describes_const _) (hty s)) (Template.describes_const _))
      (hty t)) (Template.describes_const _)
  | hintMismatch s t =>
    refine ⟨fun name => "type annotation mismatch: declared " ++ s.text name ++ ", inferred " ++
      t.text name, ?_, fun ρ => by simp only [← Ty.text_rename]; rfl⟩
    exact Template.describes_append (Template.describes_append
      (Template.describes_append (Template.describes_const _) (hty s)) (Template.describes_const _))
      (hty t)

/-- A type error about renamed types is reported as before, up to the
renaming. -/
theorem TypeError.renamed (e : TypeError) : e.toDiagnostic.Renamed ρ (e.rename ρ).toDiagnostic := by
  obtain ⟨ps, hps⟩ := e.kind.describes_message
  have hid : e.kind.rename id = e.kind := by
    cases e.kind <;> simp [TypeErrorKind.rename, Ty.rename_id]
  refine ⟨rfl, ?_, rfl, ?_, ps, ?_, hps ρ⟩
  · show (e.kind.rename ρ).category = e.kind.category
    cases e.kind <;> rfl
  · show (e.kind.rename ρ).help = e.kind.help
    cases e.kind <;> rfl
  · show e.kind.message = _
    have := hps id
    rwa [hid, Template.fill_rename] at this

end Errors

end MiniML
