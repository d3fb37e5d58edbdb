import MiniML.Proofs.Typing.Shape
import MiniML.Proofs.Typing.Sound

/-!
# Soundness of checking

A declaration that passes is well typed: its slots, as they are returned, are
a derivation of its type (`Check.declaration_sound`).
-/
namespace MiniML

/-- The type of a declaration that passes. -/
def Check.type? (d : Expr) (w : Workspace) : Option Ty :=
  match Check.declaration d w with
  | .ok (true, d') _ => some d'.ty
  | _ => none

theorem Check.exists_of_type? {d : Expr} {w : Workspace} {t : Ty} (h : Check.type? d w = some t) :
    ∃ d' w', Check.declaration d w = .ok (true, d') w' ∧ d'.ty = t := by
  unfold Check.type? at h
  split at h
  next d' w' heq => exact ⟨d', w', heq, Option.some.inj h⟩
  next => cases h

/-- A checker that has bound nothing yet may touch every variable. -/
theorem tracked_knowing_empty {c : Checker} {Γ : Context}
    (htable : c.builtins = Builtins.context) (hclosed : Γ.Closed) (herr : Γ.ErrorFree) :
    Tracked (fun _ => True) Γ (c.knowing .empty) where
  sane := c.sane_knowing_empty
  errorFree := Subst.errorFree_empty
  supply _ _ := trivial
  table := htable
  context x s hx := (hclosed x s hx).tracked (herr x s hx)

/-- A tree that is declared without an error is a derivation. -/
theorem Infer.declaration_derives {Γ : Context} {c c' : Checker} {d d' : Expr}
    (htable : c.builtins = Builtins.context) (hclosed : Γ.Closed) (herr : Γ.ErrorFree)
    (hrun : Runs (Infer.declaration Γ d) c (true, d') c') :
    c'.Sane ∧ d'.blank = d.blank ∧ Typed Γ d' ∧ d'.Clean ∧
      ∀ t ∈ d'.slots, c'.subst.apply t = t := by
  obtain ⟨e, he, hpass, rfl⟩ := runs_declaration hrun
  have hq : c'.errors = c.errors := of_decide_eq_true hpass.symm
  obtain ⟨B, s⟩ := expr_sound d (tracked_knowing_empty htable hclosed herr) he hq
  have hs := s.yields.reach.sane
  refine ⟨hs, ?_, ?_, ?_, ?_⟩
  · rw [Expr.blank, Expr.mapTypes_mapTypes]
    exact expr_blank d he
  · have htyped := s.typed c' (.refl hs) e (by simp)
    rwa [Context.resolved_closed hclosed] at htyped
  · intro t ht
    rw [Expr.mapTypes_slots] at ht
    obtain ⟨u, hu, rfl⟩ := List.mem_map.mp ht
    exact Subst.errorFree_apply hs.idem s.errorFree (s.clean e (by simp) u hu)
  · intro t ht
    rw [Expr.mapTypes_slots] at ht
    obtain ⟨u, -, rfl⟩ := List.mem_map.mp ht
    exact Subst.apply_apply hs.idem u

/-- In a closed context every variable is quantified. -/
theorem Infer.generalize_closed {Γ : Context} {c : Checker} {t : Ty} {s : Scheme}
    (hΓ : Γ.Closed) (_ : c.Sane) (ht : c.subst.apply t = t) (h : Runs (generalize Γ t) c s c) :
    s.body = t ∧ ∀ v, v ∈ s.vars ↔ v ∈ t.leaves := by
  have hbody : s.body = t := (runs_generalize h).2.1.trans ht
  exact ⟨hbody, fun v => hbody ▸ mem_vars_generalize hΓ h v⟩

/-- Checking is sound: a declaration that passes comes back as a derivation,
in which no slot has the error type or can still change, and its name is
bound to its type with all variables quantified. -/
theorem Check.declaration_sound {w w' : Workspace} {d d' : Expr}
    (htable : w.checker.builtins = Builtins.context) (hclosed : w.context.Closed)
    (herr : w.context.ErrorFree) (hrun : Check.declaration d w = .ok (true, d') w') :
    d'.blank = d.blank ∧ Typed w.context d' ∧
      (∀ t ∈ d'.slots, t.errorFree = true ∧ w'.checker.subst.apply t = t) ∧
      (∀ n, d.declared? = some n → ∃ s, w'.context = w.context.insert n.text s ∧
        s.body = d'.ty ∧ ∀ v, v ∈ s.vars ↔ v ∈ d'.ty.leaves) ∧
      (d.declared? = none → w'.context = w.context) := by
  obtain ⟨c, ds, hinfer, -, hw, hplain, hnamed⟩ := runs_declaration hrun
  obtain ⟨hs, hblank, htyped, hclean, hfix⟩ :=
    Infer.declaration_derives htable hclosed herr hinfer
  have hname := Expr.declared?_of_blank hblank
  refine ⟨hblank, htyped, fun t ht => ⟨hclean t ht, hw ▸ hfix t ht⟩, fun n hn => ?_,
    fun hn => ?_⟩
  · rw [hn, Option.map_some, Option.map_eq_some_iff] at hname
    obtain ⟨n', hn', htext⟩ := hname
    obtain ⟨s, hctx, hgen, -⟩ := hnamed n' hn'
    exact ⟨s, htext ▸ hctx,
      Infer.generalize_closed hclosed hs (hfix _ d'.ty_mem_slots) (hgen rfl)⟩
  · rw [hn, Option.map_none, Option.map_eq_none_iff] at hname
    exact hplain hname

/-- `let pair = let f : 'a -> _ = fun x -> id x in (f (), f)`: the local function
is used at two types, and remains polymorphic in the pair. -/
theorem Check.declaration_sound_pair :
    let w : Workspace := ⟨.root {}, .singleton "id" ⟨[0], .fn (.var 0) (.var 0)⟩⟩
    let name (x : String) : Name := ⟨x, {}⟩
    let value (x : String) : Expr := .ident (name x)
    let d : Expr := .bind (name "pair") none
      (.bind (name "f") (some (.fn (.var "a") .wildcard))
        (.lam none [.ident (name "x")] none (.app (value "id") [value "x"] {}) none {})
        (some (.tuple [.app (value "f") [.const .unit {}] {}, value "f"] {})) {}) none {}
    ∃ d' w', w.context.Closed ∧ w.context.ErrorFree ∧
      Check.declaration d w = .ok (true, d') w' ∧ Typed w.context d' ∧
      ∃ v s, d'.ty = .tuple [.unit, .fn (.var v) (.var v)] ∧
        w'.context = w.context.insert "pair" s ∧ s.body = d'.ty ∧ v ∈ s.vars := by
  intro w name value d
  have hall : ∀ {P : Scheme → Prop}, P ⟨[0], .fn (.var 0) (.var 0)⟩ → w.context.All P := by
    intro P hP x s hx
    rw [FinMap.get?_singleton] at hx
    split at hx
    · cases hx; exact hP
    · cases hx
  have hclosed : w.context.Closed := hall fun v hv => hv.2 (by simpa [Ty.leaves] using hv.1)
  have herr : w.context.ErrorFree := hall rfl
  have htype : Check.type? d w = some (.tuple [.unit, .fn (.var 9) (.var 9)]) := by decide +kernel
  obtain ⟨d', w', hrun, hty⟩ := Check.exists_of_type? htype
  obtain ⟨-, htyped, -, hname, -⟩ := Check.declaration_sound rfl hclosed herr hrun
  obtain ⟨s, hctx, hbody, hvars⟩ := hname (name "pair") rfl
  exact ⟨d', w', hclosed, herr, hrun, htyped, 9, s, hty, hctx, hbody,
    (hvars 9).mpr (by simp [hty])⟩

end MiniML
