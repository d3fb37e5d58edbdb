import Mathlib.Data.List.Forall2
import MiniML.Proofs.Ty.Substitution

/-!
# Idempotent substitutions

A substitution is idempotent when no variable that it binds occurs in a type
that it binds one to. Applying it is then a single replacement
(`apply_eq_subst`), and the chains that `Subst.apply` follows have length
one.

`σ.Avoids ρ` says that `σ` mentions no variable that `ρ` binds. Then
`Subst.compose σ ρ` is idempotent and first does what `ρ` does, then what `σ`
does (`compose_composes`). To bind one variable is a case of this: it keeps a
substitution idempotent if the new type is resolved and does not contain the
new variable (`Idempotent.assign`).

`σ.RefinedBy θ` says that `θ` knows all that `σ` knows: to apply `σ` before
`θ` changes nothing.

`Resolves σ t u` is the recursion that follows bindings to the end, without
a bound on their number; a derivation is a run that ends. For an idempotent
substitution every type has exactly one, and it ends in `σ.apply t`
(`resolves_iff`).
-/
namespace MiniML

namespace FinMap

variable {κ α : Type} [DecidableEq κ]

theorem ext_entries {m n : FinMap κ α} (h : m.entries = n.entries) : m = n := by
  cases m; cases n; cases h; rfl

theorem look_eq_some {k : κ} {a : α} {es : List (κ × α)} (h : look k es = some a) :
    (k, a) ∈ es := by
  induction es with
  | nil => simp [look] at h
  | cons e es ih =>
    obtain ⟨j, b⟩ := e
    by_cases hk : k = j <;> simp_all [look]

theorem look_of_mem {k : κ} {a : α} {es : List (κ × α)} (hn : (es.map Prod.fst).Nodup)
    (h : (k, a) ∈ es) : look k es = some a := by
  induction es with
  | nil => simp at h
  | cons e es ih =>
    obtain ⟨j, b⟩ := e
    simp only [List.map_cons, List.nodup_cons, List.mem_map, not_exists, not_and] at hn
    rcases List.mem_cons.mp h with h | h
    · obtain ⟨rfl, rfl⟩ := Prod.mk.inj h
      simp [look]
    · have hk : k ≠ j := fun e => hn.1 (k, a) h e
      simp only [look, hk, if_false]
      exact ih hn.2 h

theorem mem_values {m : FinMap κ α} {a : α} : a ∈ m.values ↔ ∃ k, m.get? k = some a := by
  simp only [values, List.mem_map]
  constructor
  · rintro ⟨⟨k, b⟩, hm, rfl⟩
    exact ⟨k, look_of_mem m.nodup hm⟩
  · rintro ⟨k, hk⟩
    exact ⟨(k, a), look_eq_some hk, rfl⟩

theorem get?_eq_none_of_size_eq_zero {m : FinMap κ α} (h : m.size = 0) (k : κ) :
    m.get? k = none := by
  have he : m.entries = [] := List.length_eq_zero_iff.mp h
  simp [get?, he, look]

/-- A list is put into a map from left to right, so one more entry at the
front is an entry below. -/
theorem get?_insertMany (m : FinMap κ α) (es : List (κ × α)) (k : κ) :
    (m.insertMany es).get? k = (look k es.reverse).or (m.get? k) := by
  have happ : ∀ xs ys : List (κ × α), look k (xs ++ ys) = (look k xs).or (look k ys) := by
    intro xs ys
    induction xs with
    | nil => simp [look]
    | cons e xs ih => by_cases hk : k = e.1 <;> simp_all [look]
  induction es generalizing m with
  | nil => simp [insertMany, look]
  | cons e es ih =>
    have h : m.insertMany (e :: es) = (m.insert e.1 e.2).insertMany es := rfl
    rw [h, ih, get?_insert, List.reverse_cons, happ]
    by_cases hk : k = e.1 <;> simp [look, hk]

end FinMap

namespace Subst

/-- No bound variable occurs in a bound type. -/
def Idempotent (σ : Subst) : Prop :=
  ∀ v t, σ.get? v = some t → ∀ w ∈ t.leaves, σ.get? w = none

/-- What a substitution has for a variable; itself, if it is not bound. -/
def image (σ : Subst) (v : TyVar) : Ty := (σ.get? v).getD (.var v)

/-- `θ` knows all that `σ` knows. -/
def RefinedBy (σ : Subst) (θ : TyVar → Ty) : Prop :=
  ∀ t : Ty, (σ.apply t).subst θ = t.subst θ

/-- No bound type contains the error type. -/
def ErrorFree (σ : Subst) : Prop := ∀ v t, σ.get? v = some t → t.errorFree = true

variable {σ : Subst} {v w : TyVar} {t u : Ty}

@[simp] theorem image_of_none (h : σ.get? v = none) : σ.image v = .var v := by simp [image, h]

theorem image_of_some (h : σ.get? v = some t) : σ.image v = t := by simp [image, h]

theorem idempotent_iff : σ.Idempotent ↔ ∀ e ∈ σ.entries, ∀ v ∈ e.2.leaves, σ.get? v = none :=
  ⟨fun h _ he => h _ _ (FinMap.look_of_mem σ.nodup he),
    fun h _ _ hv => h _ (FinMap.look_eq_some hv)⟩

instance : Decidable σ.Idempotent := decidable_of_iff _ idempotent_iff.symm

theorem idempotent_empty : Idempotent .empty := by intro v t h; simp at h

theorem errorFree_empty : ErrorFree .empty := by intro v t h; simp at h

/-! ## Applying -/

theorem follow_fixed (h : ∀ v ∈ t.leaves, σ.get? v = none) (n : Nat) : σ.follow n t = t := by
  cases n with
  | zero => rfl
  | succ n => exact Ty.subst_eq_self fun v hv => by simp [h v hv]

/-- Every positive number of rounds is enough, since chains have length one. -/
theorem follow_eq_subst (hσ : σ.Idempotent) (n : Nat) : σ.follow (n + 1) t = t.subst σ.image := by
  refine Ty.subst_congr fun v _ => ?_
  cases h : σ.get? v with
  | none => simp [h]
  | some u =>
    rw [image_of_some h]
    exact follow_fixed (hσ v u h) n

theorem apply_eq_subst (hσ : σ.Idempotent) (t : Ty) : σ.apply t = t.subst σ.image := by
  unfold apply
  cases hn : σ.size with
  | zero =>
    exact (Ty.subst_eq_self fun v _ =>
      image_of_none (FinMap.get?_eq_none_of_size_eq_zero hn v)).symm
  | succ n => exact follow_eq_subst hσ n

theorem apply_var (hσ : σ.Idempotent) (v : TyVar) : σ.apply (.var v) = σ.image v :=
  apply_eq_subst hσ _

theorem apply_curried (hσ : σ.Idempotent) (ts : List Ty) (t : Ty) :
    σ.apply (Ty.curried ts t) = Ty.curried (ts.map σ.apply) (σ.apply t) := by
  simp only [apply_eq_subst hσ, Ty.subst_curried, funext (apply_eq_subst hσ)]

/-- The types in the range of a substitution mention no bound variable. -/
theorem get?_of_mem_apply (hσ : σ.Idempotent) (h : v ∈ (σ.apply t).leaves) : σ.get? v = none := by
  rw [apply_eq_subst hσ, Ty.mem_leaves_subst] at h
  obtain ⟨w, -, hv⟩ := h
  cases hw : σ.get? w with
  | none =>
    rw [image_of_none hw, Ty.leaves_var, List.mem_singleton] at hv
    rw [hv, hw]
  | some u => exact hσ w u hw v (by rwa [image_of_some hw] at hv)

theorem apply_fixed (hσ : σ.Idempotent) (h : ∀ v ∈ t.leaves, σ.get? v = none) :
    σ.apply t = t := by
  rw [apply_eq_subst hσ]
  exact Ty.subst_eq_self fun v hv => image_of_none (h v hv)

theorem apply_apply (hσ : σ.Idempotent) (t : Ty) : σ.apply (σ.apply t) = σ.apply t :=
  apply_fixed hσ fun _ hv => get?_of_mem_apply hσ hv

theorem mem_leaves_apply (hσ : σ.Idempotent) :
    w ∈ (σ.apply t).leaves ↔ ∃ v ∈ t.leaves, w ∈ (σ.apply (.var v)).leaves := by
  simp only [apply_eq_subst hσ, Ty.mem_leaves_subst, Ty.leaves_var, List.mem_singleton,
    exists_eq_left]

theorem errorFree_apply (hσ : σ.Idempotent) (he : σ.ErrorFree) (ht : t.errorFree = true) :
    (σ.apply t).errorFree = true := by
  rw [apply_eq_subst hσ, Ty.errorFree_subst]
  refine ⟨ht, fun v _ => ?_⟩
  cases h : σ.get? v with
  | none => simp [h]
  | some u => rw [image_of_some h]; exact he v u h

/-! ## Following bindings without a bound -/

/-- Follow bindings to the end: `u` is what becomes of `t`. -/
inductive Resolves (σ : Subst) : Ty → Ty → Prop
  | bound {v : TyVar} {t u : Ty} : σ.get? v = some t → Resolves σ t u → Resolves σ (.var v) u
  | unbound {v : TyVar} : σ.get? v = none → Resolves σ (.var v) (.var v)
  | fn {a b c d : Ty} : Resolves σ a c → Resolves σ b d → Resolves σ (.fn a b) (.fn c d)
  | tuple {ts us : List Ty} : List.Forall₂ (Resolves σ) ts us → Resolves σ (.tuple ts) (.tuple us)
  | prim (p : Prim) : Resolves σ (.prim p) (.prim p)
  | error : Resolves σ .error .error

theorem resolves_fixed (h : ∀ v ∈ t.leaves, σ.get? v = none) : Resolves σ t t := by
  induction t with
  | var v => exact .unbound (h v (by simp))
  | fn a b ha hb =>
    simp only [Ty.leaves_fn, List.mem_append] at h
    exact .fn (ha fun v hv => h v (.inl hv)) (hb fun v hv => h v (.inr hv))
  | tuple ts ih =>
    simp only [Ty.leaves_tuple, List.mem_flatMap] at h
    exact .tuple (List.forall₂_same.mpr fun t ht => ih t ht fun v hv => h v ⟨t, ht, hv⟩)
  | prim p => exact .prim p
  | error => exact .error

theorem resolves_apply (hσ : σ.Idempotent) (t : Ty) : Resolves σ t (σ.apply t) := by
  rw [apply_eq_subst hσ]
  induction t with
  | var v =>
    cases h : σ.get? v with
    | none => simpa [Ty.subst, h] using Resolves.unbound h
    | some u =>
      simp only [Ty.subst, image_of_some h]
      exact .bound h (resolves_fixed (hσ v u h))
  | fn a b ha hb => exact .fn ha hb
  | tuple ts ih =>
    rw [Ty.subst_tuple]
    exact .tuple (List.forall₂_map_right_iff.mpr (List.forall₂_same.mpr ih))
  | prim p => exact .prim p
  | error => exact .error

theorem resolves_unique {u u' : Ty} (h : Resolves σ t u) (h' : Resolves σ t u') : u = u' := by
  refine Resolves.rec (motive_1 := fun t u _ => ∀ u', Resolves σ t u' → u = u')
    (motive_2 := fun ts us _ => ∀ us', List.Forall₂ (Resolves σ) ts us' → us = us')
    ?_ ?_ ?_ ?_ ?_ ?_ ?_ ?_ h u' h'
  · intro v t u hv _ ih u' h'
    cases h' with
    | bound hv' h' =>
      rw [hv] at hv'
      cases hv'
      exact ih u' h'
    | unbound hv' => rw [hv] at hv'; cases hv'
  · intro v hv u' h'
    cases h' with
    | bound hv' _ => rw [hv] at hv'; cases hv'
    | unbound _ => rfl
  · intro a b c d _ _ ha hb u' h'
    cases h' with
    | fn h1 h2 => rw [ha _ h1, hb _ h2]
  · intro ts us _ ih u' h'
    cases h' with
    | tuple h => rw [ih _ h]
  · intro p u' h'
    cases h'
    rfl
  · intro u' h'
    cases h'
    rfl
  · intro us' h'
    cases h'
    rfl
  · intro t u ts us _ _ iht ihts us' h'
    cases h' with
    | cons h1 h2 => rw [iht _ h1, ihts _ h2]

theorem resolves_iff (hσ : σ.Idempotent) : Resolves σ t u ↔ u = σ.apply t :=
  ⟨fun h => resolves_unique h (resolves_apply hσ t), fun h => h ▸ resolves_apply hσ t⟩

/-! ## Refinement -/

theorem refinedBy_image (hσ : σ.Idempotent) : σ.RefinedBy σ.image := fun t => by
  rw [← apply_eq_subst hσ, ← apply_eq_subst hσ, apply_apply hσ]

/-- To apply one substitution before another that refines it changes
nothing. -/
theorem RefinedBy.apply {ρ : Subst} (h : σ.RefinedBy ρ.image) (hρ : ρ.Idempotent) (t : Ty) :
    ρ.apply (σ.apply t) = ρ.apply t := by
  rw [apply_eq_subst hρ, apply_eq_subst hρ, h t]

theorem RefinedBy.trans {ρ : Subst} {θ : TyVar → Ty} (h : σ.RefinedBy ρ.image)
    (hρ : ρ.Idempotent) (hθ : ρ.RefinedBy θ) : σ.RefinedBy θ := fun t => by
  rw [← hθ (σ.apply t), h.apply hρ, hθ t]

/-! ## Composition -/

theorem get?_compose (σ ρ : Subst) (v : TyVar) :
    (compose σ ρ).get? v = (σ.get? v).or ((ρ.get? v).map σ.apply) := by
  rw [compose, FinMap.get?_override, FinMap.get?_mapValues]

/-- No variable that `ρ` binds is bound by `σ` or occurs in a type that `σ`
binds one to. -/
structure Avoids (σ ρ : Subst) : Prop where
  unbound : ∀ {v t}, ρ.get? v = some t → σ.get? v = none
  absent : ∀ {v w t u}, ρ.get? v = some t → σ.get? w = some u → v ∉ u.leaves

section Composition

variable {ρ τ : Subst}

theorem avoids_iff : σ.Avoids ρ ↔ ∀ e ∈ ρ.entries, σ.get? e.1 = none ∧
    ∀ d ∈ σ.entries, e.1 ∉ d.2.leaves := by
  constructor
  · intro h e he
    have hρ := FinMap.look_of_mem ρ.nodup he
    exact ⟨h.unbound hρ, fun d hd => h.absent hρ (FinMap.look_of_mem σ.nodup hd)⟩
  · intro h
    refine ⟨fun hρ => (h _ (FinMap.look_eq_some hρ)).1, fun hρ hσ => ?_⟩
    exact (h _ (FinMap.look_eq_some hρ)).2 _ (FinMap.look_eq_some hσ)

instance : Decidable (σ.Avoids ρ) := decidable_of_iff _ avoids_iff.symm

/-- What `σ` makes of a type mentions no more variables that `ρ` binds. -/
theorem Avoids.get?_of_mem_apply (h : σ.Avoids ρ) (hσ : σ.Idempotent)
    (ht : ∀ v ∈ t.leaves, ρ.get? v = none) (hw : w ∈ (σ.apply t).leaves) : ρ.get? w = none := by
  rw [apply_eq_subst hσ, Ty.mem_leaves_subst] at hw
  obtain ⟨v, hv, hw⟩ := hw
  cases hs : σ.get? v with
  | none =>
    rw [image_of_none hs, Ty.leaves_var, List.mem_singleton] at hw
    exact hw ▸ ht v hv
  | some u =>
    rw [image_of_some hs] at hw
    exact Option.eq_none_iff_forall_ne_some.mpr fun _ hρ => h.absent hρ hs hw

theorem Idempotent.compose (hσ : σ.Idempotent) (hρ : ρ.Idempotent) (h : σ.Avoids ρ) :
    (compose σ ρ).Idempotent := by
  have hkeep : ∀ w, σ.get? w = none → ρ.get? w = none → (Subst.compose σ ρ).get? w = none := by
    intro w hw hw'
    rw [get?_compose, hw, hw']
    rfl
  intro v t ht w hw
  rw [get?_compose, Option.or_eq_some_iff] at ht
  rcases ht with hs | ⟨-, hr⟩
  · refine hkeep w (hσ v t hs w hw) ?_
    exact Option.eq_none_iff_forall_ne_some.mpr fun _ hρw => h.absent hρw hs hw
  · obtain ⟨u, hu, rfl⟩ := Option.map_eq_some_iff.mp hr
    exact hkeep w (get?_of_mem_apply hσ hw) (h.get?_of_mem_apply hσ (hρ v u hu) hw)

theorem compose_apply (hσ : σ.Idempotent) (hρ : ρ.Idempotent) (h : σ.Avoids ρ) (t : Ty) :
    (compose σ ρ).apply t = σ.apply (ρ.apply t) := by
  rw [apply_eq_subst (hσ.compose hρ h), apply_eq_subst hρ, apply_eq_subst hσ, Ty.subst_subst]
  refine Ty.subst_congr fun v _ => ?_
  cases hv : ρ.get? v with
  | none =>
    rw [image_of_none hv, image, get?_compose, hv, Option.map_none, Option.or_none]
    rfl
  | some u =>
    rw [image_of_some hv, image_of_some (t := σ.apply u), apply_eq_subst hσ]
    rw [get?_compose, hv, h.unbound hv]
    rfl

/-- Under these conditions `compose` is composition. What it makes of two
idempotent substitutions is idempotent, binds what either of them binds, and
following its bindings ends in what `σ` makes of what `ρ` makes of a type. Of
three substitutions it does not matter which two are composed first. -/
theorem compose_composes (hσ : σ.Idempotent) (hρ : ρ.Idempotent) (h : σ.Avoids ρ) :
    (Subst.compose σ ρ).Idempotent ∧
    (∀ v, (Subst.compose σ ρ).contains v = (σ.contains v || ρ.contains v)) ∧
    (∀ t, (Subst.compose σ ρ).apply t = σ.apply (ρ.apply t)) ∧
    (∀ t u, (Subst.compose σ ρ).Resolves t u ↔ u = σ.apply (ρ.apply t)) ∧
    ∀ τ : Subst, τ.Idempotent → (Subst.compose σ ρ).Avoids τ → ρ.Avoids τ →
      σ.Avoids (Subst.compose ρ τ) → ∀ t, (Subst.compose (Subst.compose σ ρ) τ).apply t =
        (Subst.compose σ (Subst.compose ρ τ)).apply t := by
  have hi := hσ.compose hρ h
  refine ⟨hi, fun v => ?_, compose_apply hσ hρ h, fun t u => ?_, fun τ hτ h₁ h₂ h₃ t => ?_⟩
  · rw [FinMap.contains, get?_compose, Option.isSome_or, Option.isSome_map]
    rfl
  · rw [resolves_iff hi, compose_apply hσ hρ h]
  · calc (Subst.compose (Subst.compose σ ρ) τ).apply t
        = σ.apply (ρ.apply (τ.apply t)) := by
          rw [compose_apply hi hτ h₁, compose_apply hσ hρ h]
      _ = (Subst.compose σ (Subst.compose ρ τ)).apply t := by
          rw [compose_apply hσ (hρ.compose hτ h₂) h₃, compose_apply hρ hτ h₂]

/-- Three substitutions of which each uses variables that the one before it binds. -/
theorem compose_composes_three :
    let σ : Subst := .ofList [(1, .prim .int), (3, .fn (.var 4) (.var 4))]
    let ρ : Subst := .ofList [(0, .tuple [.var 1, .var 2]), (6, .fn (.var 3) .error)]
    let τ : Subst := .ofList [(5, .fn (.var 0) (.var 6))]
    σ.Idempotent ∧ ρ.Idempotent ∧ σ.Avoids ρ ∧ τ.Idempotent ∧ (Subst.compose σ ρ).Avoids τ ∧
      ρ.Avoids τ ∧ σ.Avoids (Subst.compose ρ τ) ∧ (Subst.compose σ ρ).Idempotent ∧
      (Subst.compose σ ρ).apply (.var 0) = .tuple [.prim .int, .var 2] ∧
      (Subst.compose (Subst.compose σ ρ) τ).apply (.var 5) =
        (Subst.compose σ (Subst.compose ρ τ)).apply (.var 5) ∧
      (Subst.compose σ (Subst.compose ρ τ)).apply (.var 5) =
        .fn (.tuple [.prim .int, .var 2]) (.fn (.fn (.var 4) (.var 4)) .error) := by
  intro σ ρ τ
  have hσ : σ.Idempotent := by decide
  have hρ : ρ.Idempotent := by decide
  have hτ : τ.Idempotent := by decide
  have h : σ.Avoids ρ := by decide
  have h₁ : (Subst.compose σ ρ).Avoids τ := by decide
  have h₂ : ρ.Avoids τ := by decide
  have h₃ : σ.Avoids (Subst.compose ρ τ) := by decide
  obtain ⟨hi, -, happly, -, hassoc⟩ := compose_composes hσ hρ h
  refine ⟨hσ, hρ, h, hτ, h₁, h₂, h₃, hi, (happly _).trans ?_, hassoc τ hτ h₁ h₂ h₃ _, ?_⟩
  · decide
  · decide

end Composition

/-! ## Binding a variable -/

/-- A single binding is followed once. -/
theorem apply_singleton (v : TyVar) (t u : Ty) :
    Subst.apply (FinMap.singleton v t) u = u.replace v t := by
  refine Ty.subst_congr fun w _ => ?_
  rw [FinMap.get?_singleton]
  by_cases hw : w = v
  · simp only [hw, if_true]; rfl
  · simp only [hw, if_false]

theorem get?_assign (σ : Subst) (v : TyVar) (t : Ty) (w : TyVar) :
    (σ.assign v t).get? w = if w = v then some t else (σ.get? w).map (Ty.replace · v t) := by
  have happ : Subst.apply (FinMap.singleton v t) = (Ty.replace · v t) :=
    funext (apply_singleton v t)
  unfold assign compose
  rw [FinMap.get?_override, FinMap.get?_singleton, FinMap.get?_mapValues, happ]
  by_cases hw : w = v <;> simp [hw]

theorem mem_leaves_replace (h : w ∈ (t.replace v u).leaves) :
    (w ∈ t.leaves ∧ w ≠ v) ∨ w ∈ u.leaves := by
  rw [Ty.replace, Ty.mem_leaves_subst] at h
  obtain ⟨x, hx, hw⟩ := h
  by_cases hxv : x = v
  · rw [if_pos hxv] at hw
    exact .inr hw
  · rw [if_neg hxv, Ty.leaves_var, List.mem_singleton] at hw
    subst hw
    exact .inl ⟨hx, hxv⟩

/-- What `θ` makes equal may be replaced before `θ`. -/
theorem subst_replace {θ : TyVar → Ty} (h : θ v = u.subst θ) (t : Ty) :
    (t.replace v u).subst θ = t.subst θ := by
  rw [Ty.replace, Ty.subst_subst]
  refine Ty.subst_congr fun w _ => ?_
  by_cases hw : w = v
  · rw [if_pos hw, hw, h]
  · rw [if_neg hw]; rfl

/-- What a new binding has to satisfy: variable and type are resolved, and
the variable does not occur in the type. -/
structure Bindable (σ : Subst) (v : TyVar) (t : Ty) : Prop where
  unbound : σ.get? v = none
  resolved : ∀ w ∈ t.leaves, σ.get? w = none
  acyclic : v ∉ t.leaves

theorem idempotent_singleton (h : v ∉ t.leaves) : Idempotent (FinMap.singleton v t) := by
  intro x u hx w hw
  rw [FinMap.get?_singleton] at hx ⊢
  split at hx
  · obtain rfl := Option.some.inj hx
    refine if_neg fun e => h ?_
    rwa [← e]
  · cases hx

/-- To bind a variable is to compose with a single binding. -/
theorem Bindable.avoids (h : σ.Bindable v t) : Avoids (FinMap.singleton v t) σ where
  unbound {w _} hw := by
    rw [FinMap.get?_singleton]
    refine if_neg fun e => ?_
    rw [e, h.unbound] at hw
    cases hw
  absent {w x _ u} hw hx hmem := by
    rw [FinMap.get?_singleton] at hx
    split at hx
    · obtain rfl := Option.some.inj hx
      rw [h.resolved w hmem] at hw
      cases hw
    · cases hx

theorem Idempotent.assign (hσ : σ.Idempotent) (h : σ.Bindable v t) :
    Idempotent (σ.assign v t) :=
  (idempotent_singleton h.acyclic).compose hσ h.avoids

theorem assign_apply (hσ : σ.Idempotent) (h : σ.Bindable v t) (u : Ty) :
    (σ.assign v t).apply u = (σ.apply u).replace v t := by
  rw [assign, compose_apply (idempotent_singleton h.acyclic) hσ h.avoids, apply_singleton]

theorem refinedBy_assign (hσ : σ.Idempotent) (h : σ.Bindable v t) :
    σ.RefinedBy (σ.assign v t).image := fun u => by
  rw [← apply_eq_subst (hσ.assign h), ← apply_eq_subst (hσ.assign h), assign_apply hσ h,
    assign_apply hσ h, apply_apply hσ]

theorem ErrorFree.assign (he : σ.ErrorFree) (ht : t.errorFree = true) :
    ErrorFree (σ.assign v t) := by
  intro w u hw
  rw [get?_assign] at hw
  by_cases hwv : w = v
  · rw [if_pos hwv, Option.some.injEq] at hw
    rw [← hw]; exact ht
  · rw [if_neg hwv, Option.map_eq_some_iff] at hw
    obtain ⟨s, hs, rfl⟩ := hw
    refine Ty.errorFree_subst.mpr ⟨he w s hs, fun x _ => ?_⟩
    by_cases hx : x = v <;> simp [hx, ht]

end Subst
end MiniML
