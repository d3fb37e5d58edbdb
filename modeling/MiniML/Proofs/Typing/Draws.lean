import MiniML.Proofs.Typing.Run

/-!
# The variables that a run draws

`Infer.Draws x c vs` says that `vs` are the variables that `fresh` returns,
in order, while the step `x` is carried out from `c`. A step is made of
primitive ones, and `fresh` is the only one of them that draws; a step that
runs out of variables has drawn those that it got before. `Check.Draws` says
the same of a step of checking.

What is drawn is always the next part of the supply (`Infer.Draws.consecutive`,
`Check.Draws.consecutive`).
-/
namespace MiniML

/-- `vs` are the numbers from `n` up to `m`, in order. -/
structure Consecutive (n : TyVar) (vs : List TyVar) (m : TyVar) : Prop where
  eq : vs = List.range' n vs.length
  next : m = n + vs.length

namespace Consecutive

variable {n m k : TyVar} {vs ws : List TyVar}

theorem nil (n : TyVar) : Consecutive n [] n := ⟨rfl, rfl⟩

theorem append (h : Consecutive n vs m) (h' : Consecutive m ws k) :
    Consecutive n (vs ++ ws) k where
  eq := by
    rw [List.length_append, ← List.range'_append_1, ← h.eq, ← h.next, ← h'.eq]
  next := by rw [h'.next, h.next, List.length_append, Nat.add_assoc]

theorem le (h : Consecutive n vs m) : n ≤ m := h.next ▸ Nat.le_add_right _ _

theorem mem (h : Consecutive n vs m) {v : TyVar} : v ∈ vs ↔ n ≤ v ∧ v < m := by
  rw [h.eq, h.next, List.mem_range'_1]

theorem nodup (h : Consecutive n vs m) : vs.Nodup := by
  rw [h.eq]
  exact List.nodup_range'

end Consecutive

/-- The state after a step, whether or not it came to its end. -/
def afterwards {σ α : Type} : EStateM.Result Exhausted σ α → σ
  | .ok _ s => s
  | .error _ s => s

section Bind

variable {σ α β : Type} {x : EStateM Exhausted σ α} {f : α → EStateM Exhausted σ β} {c d : σ}

theorem bind_of_runs {a : α} (h : Runs x c a d) : (x >>= f) c = f a d := by
  show EStateM.bind x f c = _
  rw [EStateM.bind, show x c = _ from h]

theorem bind_of_error {e : Exhausted} (h : x c = .error e d) : (x >>= f) c = .error e d :=
  error_bind.mpr (.inl h)

end Bind

namespace Infer

/-- `x` draws `vs` from the supply of `c`. -/
inductive Draws : {α : Type} → Infer α → Checker → List TyVar → Prop
  | pure {α : Type} (a : α) (c : Checker) : Draws (pure a) c []
  | get (c : Checker) : Draws get c []
  | forget (c : Checker) : Draws (modify fun c => { c with subst := .empty }) c []
  | push (d : Diagnostic) (c : Checker) : Draws (push d) c []
  | equate (t u : Ty) (c : Checker) : Draws (equate t u) c []
  | fresh {c : Checker} {v : TyVar} {c' : Checker} :
      Runs fresh c (.var v) c' → Draws fresh c [v]
  | exhausted {c : Checker} {e : Exhausted} {c' : Checker} :
      fresh c = .error e c' → Draws fresh c []
  | bind {α β : Type} {x : Infer α} {f : α → Infer β} {c d : Checker} {a : α}
      {vs ws : List TyVar} :
      Draws x c vs → Runs x c a d → Draws (f a) d ws → Draws (x >>= f) c (vs ++ ws)
  | cut {α β : Type} {x : Infer α} {f : α → Infer β} {c d : Checker} {e : Exhausted}
      {vs : List TyVar} :
      Draws x c vs → x c = .error e d → Draws (x >>= f) c vs

variable {α : Type} {x : Infer α} {c c' : Checker} {vs : List TyVar}

theorem fresh_stuck {e : Exhausted} (h : fresh c = .error e c') : lastVar ≤ c.next ∧ c' = c := by
  unfold fresh succVar at h
  by_cases hlt : c.next < lastVar
  · simp [hlt] at h
  · simp only [hlt, if_false] at h
    cases h
    exact ⟨Nat.le_of_not_lt hlt, rfl⟩

/-- What is drawn is the next part of the supply. -/
theorem Draws.consecutive (h : Draws x c vs) : Consecutive c.next vs (afterwards (x c)).next := by
  induction h with
  | pure | get | forget | push => exact .nil _
  | equate t u c =>
    have hc : (afterwards (Infer.equate t u c)).next = c.next := by
      unfold Infer.equate
      cases unify t u c.subst <;> rfl
    exact hc ▸ .nil _
  | @fresh c v c' h =>
    have hc : afterwards (Infer.fresh c) = c' := congrArg afterwards (show Infer.fresh c = _ from h)
    obtain ⟨-, hv, rfl⟩ := runs_fresh.mp h
    rw [hc, Ty.var.inj hv]
    exact ⟨rfl, rfl⟩
  | exhausted h =>
    rw [h, (fresh_stuck h).2]
    exact .nil _
  | bind _ hx _ ih₁ ih₂ =>
    rw [bind_of_runs hx]
    rw [show _ = _ from hx] at ih₁
    exact ih₁.append ih₂
  | cut _ hx ih =>
    rw [bind_of_error hx]
    rwa [hx] at ih

end Infer

namespace Check

/-- `x` draws `vs` from the supply of the checker of `w`. -/
inductive Draws : {α : Type} → Check α → Workspace → List TyVar → Prop
  | pure {α : Type} (a : α) (w : Workspace) : Draws (pure a) w []
  | get (w : Workspace) : Draws get w []
  | define (name : String) (s : Scheme) (w : Workspace) : Draws (define name s) w []
  | inferring {α : Type} {step : Context → Infer α} {w : Workspace} {vs : List TyVar} :
      Infer.Draws (step w.context) w.checker vs → Draws (inferring step) w vs
  | bind {α β : Type} {x : Check α} {f : α → Check β} {w v : Workspace} {a : α}
      {vs ws : List TyVar} :
      Draws x w vs → Runs x w a v → Draws (f a) v ws → Draws (x >>= f) w (vs ++ ws)
  | cut {α β : Type} {x : Check α} {f : α → Check β} {w v : Workspace} {e : Exhausted}
      {vs : List TyVar} :
      Draws x w vs → x w = .error e v → Draws (x >>= f) w vs

variable {α : Type} {x : Check α} {w : Workspace} {vs : List TyVar}

theorem afterwards_inferring (step : Context → Infer α) (w : Workspace) :
    (afterwards (inferring step w)).checker = afterwards (step w.context w.checker) := by
  unfold inferring
  cases step w.context w.checker <;> rfl

theorem Draws.consecutive (h : Draws x w vs) :
    Consecutive w.checker.next vs (afterwards (x w)).checker.next := by
  induction h with
  | pure | get | define => exact .nil _
  | inferring h => exact afterwards_inferring _ _ ▸ h.consecutive
  | bind _ hx _ ih₁ ih₂ =>
    rw [bind_of_runs hx]
    rw [show _ = _ from hx] at ih₁
    exact ih₁.append ih₂
  | cut _ hx ih =>
    rw [bind_of_error hx]
    rwa [hx] at ih

end Check
end MiniML
