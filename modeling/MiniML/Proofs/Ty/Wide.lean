import Mathlib.Data.List.Basic
import MiniML.Proofs.Ty.Substitution

/-!
# Types with tuples of at least two items

A tuple of less than two items has no text of its own. `Ty.widen` does away with
such tuples: what has no items becomes unit, and what has one becomes its item.
It commutes with substitutions, so that it may be applied to all types of a
derivation at once.

Results:
* `wide_widen`, `widen_of_wide`: the types that `widen` makes, and that it keeps.
* `widen_subst`: it commutes with substitutions.
* `wide_of_subst`: a type whose instance has wide tuples has wide tuples.
-/
namespace MiniML.Ty

variable {f : TyVar → Ty} {t u : Ty} {ts : List Ty}

mutual
/-- Whether each tuple has at least two items. -/
def wide : Ty → Bool
  | .var _ | .prim _ | .error => true
  | .fn a b => wide a && wide b
  | .tuple ts => 2 ≤ ts.length && wideItems ts
/-- Whether each tuple in a list of types has at least two items. -/
def wideItems : List Ty → Bool
  | [] => true
  | t :: ts => wide t && wideItems ts
end

@[simp] theorem wide_var (v : TyVar) : (var v).wide = true := rfl

@[simp] theorem wide_prim (p : Prim) : (prim p).wide = true := rfl

@[simp] theorem wide_error : error.wide = true := rfl

@[simp] theorem wide_fn {a b : Ty} : (fn a b).wide = true ↔ a.wide = true ∧ b.wide = true :=
  Bool.and_eq_true_iff

@[simp] theorem wide_tuple : (tuple ts).wide = true ↔ 2 ≤ ts.length ∧ ∀ t ∈ ts, t.wide = true := by
  have h : ∀ us, wideItems us = true ↔ ∀ t ∈ us, t.wide = true := by
    intro us
    induction us with
    | nil => simp [wideItems]
    | cons u us ih => simp [wideItems, ih]
  rw [wide, Bool.and_eq_true, decide_eq_true_eq, h]

theorem wide_of_subst (h : (t.subst f).wide = true) : t.wide = true := by
  induction t with
  | var v => rfl
  | fn a b ha hb =>
    rw [subst, wide_fn] at h
    exact wide_fn.mpr ⟨ha h.1, hb h.2⟩
  | tuple ts ih =>
    rw [subst_tuple, wide_tuple, List.length_map] at h
    exact wide_tuple.mpr ⟨h.1, fun t ht => ih t ht (h.2 _ (List.mem_map_of_mem ht))⟩
  | prim p => rfl
  | error => rfl

/-- The type of a row of types: unit, a single type, or their tuple. -/
def row : List Ty → Ty
  | [] => unit
  | [t] => t
  | ts => .tuple ts

theorem row_of_two_le (h : 2 ≤ ts.length) : row ts = .tuple ts := by
  rcases ts with _ | ⟨t, _ | ⟨u, ts⟩⟩
  · cases h
  · exact absurd h (by simp)
  · rfl

theorem leaves_row (ts : List Ty) : (row ts).leaves = ts.flatMap leaves := by
  rcases ts with _ | ⟨t, _ | ⟨u, ts⟩⟩
  · rfl
  · exact (List.append_nil _).symm
  · exact leaves_tuple _

theorem subst_row (f : TyVar → Ty) (ts : List Ty) : (row ts).subst f = row (ts.map (subst f)) := by
  rcases ts with _ | ⟨t, _ | ⟨u, ts⟩⟩
  · rfl
  · rfl
  · exact subst_tuple f _

theorem wide_row (h : ∀ t ∈ ts, t.wide = true) : (row ts).wide = true := by
  rcases ts with _ | ⟨t, _ | ⟨u, ts⟩⟩
  · rfl
  · exact h t List.mem_cons_self
  · exact wide_tuple.mpr ⟨Nat.le_add_left 2 _, h⟩

mutual
/-- The type with all its tuples wide. -/
def widen : Ty → Ty
  | .var v => .var v
  | .fn a b => .fn (widen a) (widen b)
  | .tuple ts => row (widenItems ts)
  | .prim p => .prim p
  | .error => .error
/-- The items of a tuple with all their tuples wide. -/
def widenItems : List Ty → List Ty
  | [] => []
  | t :: ts => widen t :: widenItems ts
end

@[simp] theorem widen_var (v : TyVar) : (var v).widen = var v := rfl

@[simp] theorem widen_fn (a b : Ty) : (fn a b).widen = fn a.widen b.widen := rfl

@[simp] theorem widen_prim (p : Prim) : (prim p).widen = prim p := rfl

@[simp] theorem widen_tuple (ts : List Ty) : (tuple ts).widen = row (ts.map widen) := by
  have h : ∀ us, widenItems us = us.map widen := by
    intro us
    induction us <;> simp_all [widenItems]
  rw [widen, h]

theorem widen_curried (ts : List Ty) (t : Ty) :
    (curried ts t).widen = curried (ts.map widen) t.widen := by
  induction ts with
  | nil => rfl
  | cons u us ih => exact congrArg (fn u.widen) ih

@[simp] theorem leaves_widen (t : Ty) : t.widen.leaves = t.leaves := by
  induction t with
  | var v => rfl
  | fn a b ha hb => rw [widen_fn, leaves_fn, leaves_fn, ha, hb]
  | tuple ts ih =>
    rw [widen_tuple, leaves_row, leaves_tuple, List.flatMap_map]
    exact List.flatMap_congr ih
  | prim p => rfl
  | error => rfl

theorem widen_subst (f : TyVar → Ty) (t : Ty) :
    (t.subst f).widen = t.widen.subst fun v => (f v).widen := by
  induction t with
  | var v => rfl
  | fn a b ha hb => exact congrArg₂ fn ha hb
  | tuple ts ih =>
    rw [subst_tuple, widen_tuple, widen_tuple, subst_row, List.map_map, List.map_map]
    exact congrArg row (List.map_congr_left ih)
  | prim p => rfl
  | error => rfl

theorem wide_widen (t : Ty) : t.widen.wide = true := by
  induction t with
  | var v => rfl
  | fn a b ha hb => exact wide_fn.mpr ⟨ha, hb⟩
  | tuple ts ih =>
    rw [widen_tuple]
    exact wide_row (List.forall_mem_map.mpr ih)
  | prim p => rfl
  | error => rfl

theorem widen_of_wide (h : t.wide = true) : t.widen = t := by
  induction t with
  | var v => rfl
  | fn a b ha hb => exact congrArg₂ fn (ha (wide_fn.mp h).1) (hb (wide_fn.mp h).2)
  | tuple ts ih =>
    obtain ⟨hlen, hts⟩ := wide_tuple.mp h
    have hmap : ts.map widen = ts :=
      (List.map_congr_left fun t ht => ih t ht (hts t ht)).trans (List.map_id ts)
    rw [widen_tuple, hmap, row_of_two_le hlen]
  | prim p => rfl
  | error => rfl

end MiniML.Ty
