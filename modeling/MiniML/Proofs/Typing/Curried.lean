import MiniML.Proofs.Typing.Inline

/-!
# Several arguments at once

An application to several arguments is typed by one equation of the callee with a chain
of arrows, after all arguments have been inferred. To apply to the first arguments and
what comes of it to the others takes two equations with arguments inferred in between.
The order in which equations are solved does not show in the types of a tree, so that
both ways of writing have the same.

Results:
* `HasType.app_append`: both have the same types.
* `Check.declaration_curried`: so they get the same verdict, and their types read the same.
-/
namespace MiniML

variable {Γ : Context}

theorem Ty.curried_append (ts us : List Ty) (t : Ty) :
    curried (ts ++ us) t = curried ts (curried us t) :=
  List.foldr_append

/-- Arguments may be given in two portions. -/
theorem HasType.app_append {f : Expr} {xs ys : List Expr} {m k l : Mark} {T : Ty}
    (hxs : xs ≠ []) (hys : ys ≠ []) :
    HasType Γ (.app f (xs ++ ys) m) T ↔ HasType Γ (.app (.app f xs k) ys l) T := by
  constructor
  · intro h
    obtain ⟨ts, hf, hargs, -⟩ := HasType.app.mp h
    have hfirst : List.Forall₂ (HasType Γ) xs (ts.take xs.length) :=
      (List.forall₂_take_append _ _ _ hargs.flip).flip
    have hothers : List.Forall₂ (HasType Γ) ys (ts.drop xs.length) :=
      (List.forall₂_drop_append _ _ _ hargs.flip).flip
    rw [← List.take_append_drop xs.length ts, Ty.curried_append] at hf
    have hinner : HasType Γ (.app f xs k) (.curried (ts.drop xs.length) T) :=
      HasType.app.mpr ⟨_, hf, hfirst, fun h => absurd h hxs⟩
    exact HasType.app.mpr ⟨_, hinner, hothers, fun h => absurd h hys⟩
  · intro h
    obtain ⟨us, hinner, hothers, -⟩ := HasType.app.mp h
    obtain ⟨ts, hf, hfirst, -⟩ := HasType.app.mp hinner
    rw [← Ty.curried_append] at hf
    exact HasType.app.mpr ⟨_, hf, List.rel_append hfirst hothers,
      fun h => absurd (List.append_eq_nil_iff.mp h).1 hxs⟩

namespace Check

variable {c₁ c₂ : Checker}

/-- Application is curried. To apply to arguments `xs ++ ys`, and to apply to `xs` and the
result to `ys`, reports no error either way or some error both ways, in a closed context
without the error type and unless the type variables run out; and if none is reported,
the types read the same. -/
theorem declaration_curried {f : Expr} {xs ys : List Expr} {m k l : Mark}
    (ht₁ : c₁.builtins = Builtins.context) (ht₂ : c₂.builtins = Builtins.context)
    (hΓ : Γ.Closed) (herr : Γ.ErrorFree) (hxs : xs ≠ []) (hys : ys ≠ []) :
    (∃ w, Check.declaration (.app f (xs ++ ys) m) ⟨c₁, Γ⟩ = .error .typeVariables w ∧
        lastVar ≤ w.checker.next) ∨
    (∃ w, Check.declaration (.app (.app f xs k) ys l) ⟨c₂, Γ⟩ = .error .typeVariables w ∧
        lastVar ≤ w.checker.next) ∨
    ∃ p₁ p₂ d₁ d₂ w₁ w₂,
      Check.declaration (.app f (xs ++ ys) m) ⟨c₁, Γ⟩ = .ok (p₁, d₁) w₁ ∧
      Check.declaration (.app (.app f xs k) ys l) ⟨c₂, Γ⟩ = .ok (p₂, d₂) w₂ ∧
      (w₁.checker.errors = c₁.errors ↔ w₂.checker.errors = c₂.errors) ∧
      (p₁ = true ↔ w₁.checker.errors = c₁.errors) ∧ (p₂ = true ↔ w₂.checker.errors = c₂.errors) ∧
      (w₁.checker.errors = c₁.errors → d₁.ty.normalized = d₂.ty.normalized) := by
  rcases declaration_agree ht₁ ht₂ hΓ herr
    (fun T => HasType.app_append (f := f) (m := m) (k := k) (l := l) hxs hys) with
    hstop | hstop | ⟨p, d₁, d₂, w₁, w₂, h₁, h₂, hty⟩
  · exact .inl hstop
  · exact .inr (.inl hstop)
  · have hp₁ := passed_iff h₁
    have hp₂ := passed_iff h₂
    exact .inr (.inr ⟨p, p, d₁, d₂, w₁, w₂, h₁, h₂, hp₁.symm.trans hp₂, hp₁, hp₂,
      fun h => hty (hp₁.mpr h)⟩)

/-- `(fun x y -> (x, y)) (fun z -> z) (fun z -> z)`, where the type variables of the second
argument have other numbers if the first argument has been applied to before. -/
theorem declaration_curried_pair :
    let w : Workspace := ⟨.root {}, Builtins.context⟩
    let name (x : String) : Name := ⟨x, {}⟩
    let f : Expr := .lam none [.ident (name "x"), .ident (name "y")] none
      (.tuple [.ident (name "x"), .ident (name "y")] {}) none {}
    let same : Expr := .lam none [.ident (name "z")] none (.ident (name "z")) none {}
    ([same] : List Expr) ≠ [] ∧
      ∃ d₁ d₂ w₁ w₂, declaration (.app f ([same] ++ [same]) {}) w = .ok (true, d₁) w₁ ∧
        declaration (.app (.app f [same] {}) [same] {}) w = .ok (true, d₂) w₂ ∧
        w₁.checker.errors = w.checker.errors ∧ w₂.checker.errors = w.checker.errors ∧
        d₁.ty ≠ d₂.ty ∧ d₁.ty.normalized = d₂.ty.normalized := by
  intro w name f same
  have htype₁ : type? (.app f ([same] ++ [same]) {}) w =
      some (.tuple [.fn (.var 5) (.var 5), .fn (.var 7) (.var 7)]) := by decide +kernel
  have htype₂ : type? (.app (.app f [same] {}) [same] {}) w =
      some (.tuple [.fn (.var 5) (.var 5), .fn (.var 8) (.var 8)]) := by decide +kernel
  obtain ⟨d₁, w₁, hrun₁, hty₁⟩ := exists_of_type? htype₁
  obtain ⟨d₂, w₂, hrun₂, hty₂⟩ := exists_of_type? htype₂
  have hne : ([same] : List Expr) ≠ [] := nofun
  rcases declaration_curried (f := f) (m := {}) (k := {}) (l := {})
    (rfl : w.checker.builtins = _) (rfl : w.checker.builtins = _) Builtins.context_closed
    Builtins.context_errorFree hne hne with
    ⟨_, hstop, -⟩ | ⟨_, hstop, -⟩ | ⟨p₁, p₂, a, b, v, u, h₁, h₂, -, hp₁, hp₂, hty⟩
  · cases hrun₁.symm.trans hstop
  · cases hrun₂.symm.trans hstop
  · cases hrun₁.symm.trans h₁
    cases hrun₂.symm.trans h₂
    refine ⟨hne, d₁, d₂, w₁, w₂, hrun₁, hrun₂, hp₁.mp rfl, hp₂.mp rfl, ?_, hty (hp₁.mp rfl)⟩
    rw [hty₁, hty₂]
    decide

end Check
end MiniML
