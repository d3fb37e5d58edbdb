import Mathlib.Data.List.Forall2
import MiniML.Ty.Unify
import MiniML.Proofs.Ty.Substitution

/-!
# Equations between types

What is left of an equation when equal constructors are taken apart
(`residue`), and what it means for an equation to hold.

`Agree s t` is equality except where one of the two has the error type, which
is what unification achieves in general; without the error type it is
equality (`Agree.eq`). What is left of an equation is `Stuck`: no map makes
the sides equal unless one of them is a variable.

Results:
* `agree_of_residue`: a map that reconciles the residue reconciles the types.
* `UnifyError.Conflict.subst_ne`: no map makes the sides of a conflict equal.
-/
namespace MiniML

/-! ## Heads and conflicts -/

/-- The outermost constructor of a type. -/
inductive Head where
  | var (v : TyVar)
  | fn
  | tuple
  | prim (p : Prim)
  | error
  deriving DecidableEq, Repr

/-- The outermost constructor of a type. -/
def Ty.head : Ty → Head
  | .var v => .var v
  | .fn _ _ => .fn
  | .tuple _ => .tuple
  | .prim p => .prim p
  | .error => .error

/-- Whether a type is a variable. -/
def Ty.isVar : Ty → Bool
  | .var _ => true
  | _ => false

theorem Ty.head_subst {t : Ty} (h : t.isVar = false) (θ : TyVar → Ty) :
    (t.subst θ).head = t.head := by
  cases t <;> first | rfl | simp [isVar] at h

/-- The two sides that an error speaks of do not go together: they have
different constructors, or are tuples of different length, or the one is a
variable that occurs properly in the other. -/
def UnifyError.Conflict : UnifyError → Prop
  | .mismatch s t =>
    s.isVar = false ∧ t.isVar = false ∧ s ≠ .error ∧ t ≠ .error ∧ s.head ≠ t.head
  | .tupleArity s t => ∃ ts us, s = .tuple ts ∧ t = .tuple us ∧ ts.length ≠ us.length
  | .occurs v t => v ∈ t.leaves ∧ t ≠ .var v

/-- The two sides that an error speaks of. -/
def UnifyError.sides : UnifyError → Ty × Ty
  | .mismatch s t | .tupleArity s t => (s, t)
  | .occurs v t => (.var v, t)

/-- No map makes the two sides of a conflict equal. -/
theorem UnifyError.Conflict.subst_ne {e : UnifyError} (h : e.Conflict) (θ : TyVar → Ty) :
    e.sides.1.subst θ ≠ e.sides.2.subst θ := by
  intro he
  cases e with
  | mismatch s t =>
    obtain ⟨hs, ht, -, -, hne⟩ := h
    have := congrArg Ty.head he
    rw [sides, Ty.head_subst hs, Ty.head_subst ht] at this
    exact hne this
  | tupleArity s t =>
    obtain ⟨ts, us, rfl, rfl, hl⟩ := h
    simp only [sides, Ty.subst_tuple, Ty.tuple.injEq] at he
    exact hl (by simpa using congrArg List.length he)
  | occurs v t => exact Ty.subst_ne_of_mem h.1 h.2 θ he

/-- An equation that cannot be taken apart. -/
structure Stuck (e : Equation) : Prop where
  left : e.1 ≠ .error
  right : e.2 ≠ .error
  differ : e.1.head ≠ e.2.head ∨
    ∃ ts us, e.1 = .tuple ts ∧ e.2 = .tuple us ∧ ts.length ≠ us.length

/-! ## Agreement up to the error type -/

/-- Two types are the same at every position, except where at least one of
them is the error type. -/
inductive Agree : Ty → Ty → Prop
  | error_left (t : Ty) : Agree .error t
  | error_right (t : Ty) : Agree t .error
  | var (v : TyVar) : Agree (.var v) (.var v)
  | prim (p : Prim) : Agree (.prim p) (.prim p)
  | fn {a b c d : Ty} : Agree a c → Agree b d → Agree (.fn a b) (.fn c d)
  | tuple {ts us : List Ty} : List.Forall₂ Agree ts us → Agree (.tuple ts) (.tuple us)

/-- Pairs of items of two lists may be compared by what holds of items. -/
theorem forall₂_imp_mem {R S : Ty → Ty → Prop} {ts us : List Ty} (h : List.Forall₂ R ts us)
    (hRS : ∀ t ∈ ts, ∀ u ∈ us, R t u → S t u) : List.Forall₂ S ts us := by
  induction h with
  | nil => exact .nil
  | cons htu _ ih =>
    refine .cons (hRS _ (by simp) _ (by simp) htu) (ih fun t ht u hu => hRS t ?_ u ?_)
    · exact List.mem_cons_of_mem _ ht
    · exact List.mem_cons_of_mem _ hu

/-- What is related to an item of a list. -/
theorem exists_mem_of_forall₂ {α β : Type} {R : α → β → Prop} {ts : List α} {us : List β}
    (h : List.Forall₂ R ts us) {t : α} (ht : t ∈ ts) : ∃ u ∈ us, R t u := by
  induction h with
  | nil => cases ht
  | @cons _ u _ _ htu _ ih =>
    rcases List.mem_cons.mp ht with rfl | ht
    · exact ⟨u, by simp, htu⟩
    · obtain ⟨u, hu, htu⟩ := ih ht
      exact ⟨u, List.mem_cons_of_mem _ hu, htu⟩

namespace Agree

theorem refl (t : Ty) : Agree t t := by
  induction t with
  | var v => exact .var v
  | fn a b ha hb => exact .fn ha hb
  | tuple ts ih => exact .tuple (List.forall₂_same.mpr ih)
  | prim p => exact .prim p
  | error => exact .error_left _

theorem subst {s t : Ty} (h : Agree s t) (θ : TyVar → Ty) : Agree (s.subst θ) (t.subst θ) := by
  induction s generalizing t with
  | var v =>
    cases h with
    | error_right => exact .error_right _
    | var => exact refl _
  | fn a b ha hb =>
    cases h with
    | error_right => exact .error_right _
    | fn h1 h2 => exact .fn (ha h1) (hb h2)
  | tuple ts ih =>
    cases h with
    | error_right => exact .error_right _
    | tuple h =>
      rw [Ty.subst_tuple, Ty.subst_tuple]
      refine .tuple (List.forall₂_map_left_iff.mpr (List.forall₂_map_right_iff.mpr ?_))
      exact forall₂_imp_mem h fun t ht u _ htu => ih t ht htu
  | prim p =>
    cases h with
    | error_right => exact .error_right _
    | prim => exact .prim p
  | error => exact .error_left _

/-- Without the error type, to agree is to be equal. -/
theorem eq {s t : Ty} (h : Agree s t) (hs : s.errorFree = true) (ht : t.errorFree = true) :
    s = t := by
  induction s generalizing t with
  | var v =>
    cases h with
    | error_right => simp at ht
    | var => rfl
  | fn a b ha hb =>
    cases h with
    | error_right => simp at ht
    | fn h1 h2 =>
      rw [Ty.errorFree_fn] at hs ht
      rw [ha h1 hs.1 ht.1, hb h2 hs.2 ht.2]
  | tuple ts ih =>
    cases h with
    | error_right => simp at ht
    | tuple h =>
      rw [Ty.errorFree_tuple] at hs ht
      have heq : List.Forall₂ (· = ·) ts _ :=
        forall₂_imp_mem h fun t ht' u hu' htu => ih t ht' htu (hs t ht') (ht u hu')
      rw [List.forall₂_eq_eq_eq] at heq
      rw [heq]
  | prim p =>
    cases h with
    | error_right => simp at ht
    | prim => rfl
  | error => simp at hs

end Agree

/-! ## Taking an equation apart -/

/-- A map solves equations up to the error type. -/
def Reconciles (θ : TyVar → Ty) (eqs : List Equation) : Prop :=
  ∀ e ∈ eqs, Agree (e.1.subst θ) (e.2.subst θ)

theorem residues_eq (ts us : List Ty) :
    residues ts us = (ts.zip us).flatMap fun p => residue p.1 p.2 := by
  induction ts generalizing us with
  | nil => cases us <;> simp [residues]
  | cons t ts ih => cases us <;> simp [residues, ih]

/-- What is left of an equation, by the constructors of its sides. -/
inductive Parts : Ty → Ty → List Equation → Prop
  | error_left (t : Ty) : Parts .error t []
  | error_right (s : Ty) : Parts s .error []
  | var (v : TyVar) : Parts (.var v) (.var v) []
  | prim (p : Prim) : Parts (.prim p) (.prim p) []
  | fn {a b c d : Ty} {r r' : List Equation} : Parts a c r → Parts b d r' →
      Parts (.fn a b) (.fn c d) (r ++ r')
  | tuple {ts us : List Ty} : ts.length = us.length →
      (∀ p ∈ ts.zip us, Parts p.1 p.2 (residue p.1 p.2)) →
      Parts (.tuple ts) (.tuple us) ((ts.zip us).flatMap fun p => residue p.1 p.2)
  | stuck {s t : Ty} : Stuck (s, t) → Parts s t [(s, t)]

theorem parts_residue (s t : Ty) : Parts s t (residue s t) := by
  induction s generalizing t with
  | error => simp only [residue]; exact .error_left t
  | var v =>
    cases t with
    | error => simp only [residue]; exact .error_right _
    | var w =>
      simp only [residue]
      split
      · rename_i h; subst h; exact .var v
      · rename_i h; exact .stuck ⟨by simp, by simp, .inl (by simpa [Ty.head] using h)⟩
    | fn c d => exact .stuck ⟨by simp, by simp, .inl (by simp [Ty.head])⟩
    | tuple us => exact .stuck ⟨by simp, by simp, .inl (by simp [Ty.head])⟩
    | prim q => exact .stuck ⟨by simp, by simp, .inl (by simp [Ty.head])⟩
  | fn a b ha hb =>
    cases t with
    | error => simp only [residue]; exact .error_right _
    | fn c d => simp only [residue]; exact .fn (ha c) (hb d)
    | var w => exact .stuck ⟨by simp, by simp, .inl (by simp [Ty.head])⟩
    | tuple us => exact .stuck ⟨by simp, by simp, .inl (by simp [Ty.head])⟩
    | prim q => exact .stuck ⟨by simp, by simp, .inl (by simp [Ty.head])⟩
  | tuple ts ih =>
    cases t with
    | error => simp only [residue]; exact .error_right _
    | tuple us =>
      simp only [residue]
      split
      · rename_i h; rw [residues_eq]; exact .tuple h fun p hp => ih p.1 (List.of_mem_zip hp).1 p.2
      · rename_i h; exact .stuck ⟨by simp, by simp, .inr ⟨ts, us, rfl, rfl, h⟩⟩
    | var w => exact .stuck ⟨by simp, by simp, .inl (by simp [Ty.head])⟩
    | fn c d => exact .stuck ⟨by simp, by simp, .inl (by simp [Ty.head])⟩
    | prim q => exact .stuck ⟨by simp, by simp, .inl (by simp [Ty.head])⟩
  | prim p =>
    cases t with
    | error => simp only [residue]; exact .error_right _
    | prim q =>
      simp only [residue]
      split
      · rename_i h; subst h; exact .prim p
      · rename_i h; exact .stuck ⟨by simp, by simp, .inl (by simpa [Ty.head] using h)⟩
    | var w => exact .stuck ⟨by simp, by simp, .inl (by simp [Ty.head])⟩
    | fn c d => exact .stuck ⟨by simp, by simp, .inl (by simp [Ty.head])⟩
    | tuple us => exact .stuck ⟨by simp, by simp, .inl (by simp [Ty.head])⟩

section Residue

variable {s t : Ty} {e : Equation} {θ : TyVar → Ty} {v : TyVar}

/-- An invariant of equations that passes to the parts holds of the residue. -/
theorem residue_induct {P : Ty → Ty → Prop} (hfn : ∀ a b c d, P (.fn a b) (.fn c d) → P a c ∧ P b d)
    (htuple : ∀ ts us, ts.length = us.length → P (.tuple ts) (.tuple us) →
      ∀ p ∈ ts.zip us, P p.1 p.2) (h : P s t) :
    ∀ e ∈ residue s t, P e.1 e.2 ∧ Stuck e := by
  have hp := parts_residue s t
  generalize residue s t = r at hp ⊢
  induction hp with
  | error_left | error_right | var | prim => simp
  | @fn a b c d _ _ _ _ ha hb =>
    have hcd := hfn a b c d h
    rw [List.forall_mem_append]
    exact ⟨ha hcd.1, hb hcd.2⟩
  | @tuple ts us hl _ ih =>
    intro e he
    obtain ⟨p, hp, he⟩ := List.mem_flatMap.mp he
    exact ih p hp (htuple ts us hl h p hp) e he
  | stuck hs => exact List.forall_mem_singleton.mpr ⟨h, hs⟩

theorem stuck_of_mem_residue (he : e ∈ residue s t) : Stuck e :=
  (residue_induct (P := fun _ _ => True) (by simp) (by simp) trivial e he).2

/-- The variables of the residue are variables of the equation. -/
theorem leaves_residue {A : TyVar → Prop} (hs : ∀ v ∈ s.leaves, A v) (ht : ∀ v ∈ t.leaves, A v)
    (he : e ∈ residue s t) : (∀ v ∈ e.1.leaves, A v) ∧ ∀ v ∈ e.2.leaves, A v := by
  refine (residue_induct (P := fun s t => (∀ v ∈ s.leaves, A v) ∧ ∀ v ∈ t.leaves, A v)
    ?_ ?_ ⟨hs, ht⟩ e he).1
  · intro a b c d
    simp only [Ty.leaves_fn, List.mem_append]
    exact fun h => ⟨⟨fun v hv => h.1 v (.inl hv), fun v hv => h.2 v (.inl hv)⟩,
      fun v hv => h.1 v (.inr hv), fun v hv => h.2 v (.inr hv)⟩
  · intro ts us _
    simp only [Ty.leaves_tuple, List.mem_flatMap]
    exact fun h p hp => ⟨fun v hv => h.1 v ⟨p.1, (List.of_mem_zip hp).1, hv⟩,
      fun v hv => h.2 v ⟨p.2, (List.of_mem_zip hp).2, hv⟩⟩

theorem errorFree_residue (hs : s.errorFree = true) (ht : t.errorFree = true)
    (he : e ∈ residue s t) : e.1.errorFree = true ∧ e.2.errorFree = true := by
  refine (residue_induct (P := fun s t => s.errorFree = true ∧ t.errorFree = true)
    ?_ ?_ ⟨hs, ht⟩ e he).1
  · intro a b c d
    simp only [Ty.errorFree_fn]
    exact fun h => ⟨⟨h.1.1, h.2.1⟩, h.1.2, h.2.2⟩
  · intro ts us _
    simp only [Ty.errorFree_tuple]
    exact fun h p hp => ⟨h.1 p.1 (List.of_mem_zip hp).1, h.2 p.2 (List.of_mem_zip hp).2⟩

/-- To reconcile what is left of an equation is to reconcile the equation. -/
theorem agree_of_residue (h : Reconciles θ (residue s t)) : Agree (s.subst θ) (t.subst θ) := by
  have hp := parts_residue s t
  generalize residue s t = r at hp h
  induction hp with
  | error_left t => exact .error_left _
  | error_right s => exact .error_right _
  | var v => exact .refl _
  | prim p => exact .refl _
  | fn _ _ ha hb =>
    exact .fn (ha fun e he => h e (List.mem_append_left _ he))
      (hb fun e he => h e (List.mem_append_right _ he))
  | @tuple ts us hl _ ih =>
    rw [Ty.subst_tuple, Ty.subst_tuple]
    refine .tuple (List.forall₂_map_left_iff.mpr (List.forall₂_map_right_iff.mpr ?_))
    refine List.forall₂_iff_zip.mpr ⟨hl, fun {t u} htu => ?_⟩
    exact ih (t, u) htu fun e he => h e (List.mem_flatMap.mpr ⟨(t, u), htu, he⟩)
  | stuck _ => exact h _ (List.mem_singleton.mpr rfl)

end Residue

end MiniML
