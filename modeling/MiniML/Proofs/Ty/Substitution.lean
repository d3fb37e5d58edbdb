import MiniML.Ty.Subst

/-!
# Replacing the variables of a type

What `Ty.subst` does to the variables of a type and to its size. A map from
variables to types is written `f` or `θ`; only its values at the variables
of the type matter.

Results:
* `mem_leaves_subst`: the variables of an image come from the images of the
  variables.
* `subst_congr`: maps that agree on the variables of a type give the same image.
* `subst_ne_of_mem`: no map identifies a variable with a type that properly
  contains it.
* `errorFree_subst`: where the error type of an image comes from.
-/
namespace MiniML.Ty

/-! ## Variables -/

@[simp] theorem leaves_var (v : TyVar) : (var v).leaves = [v] := rfl

@[simp] theorem leaves_fn (a b : Ty) : (fn a b).leaves = a.leaves ++ b.leaves := rfl

@[simp] theorem leaves_prim (p : Prim) : (prim p).leaves = [] := rfl

@[simp] theorem leaves_error : error.leaves = [] := rfl

@[simp] theorem leaves_tuple (ts : List Ty) : (tuple ts).leaves = ts.flatMap leaves :=
  leavesItems_eq ts

@[simp] theorem subst_tuple (f : TyVar → Ty) (ts : List Ty) :
    (tuple ts).subst f = tuple (ts.map (subst f)) := by
  simp only [subst, substItems_eq]

theorem occurs_iff {v : TyVar} {t : Ty} : t.occurs v = true ↔ v ∈ t.leaves := by
  simp [occurs]

theorem occurs_eq_false {v : TyVar} {t : Ty} : t.occurs v = false ↔ v ∉ t.leaves := by
  simp [occurs]

theorem mem_free {v : TyVar} {t : Ty} : v ∈ t.free ↔ v ∈ t.leaves := mem_ascending

/-- The variables of a chain of arrows are those of its links. -/
theorem mem_leaves_curried {v : TyVar} {ts : List Ty} {t : Ty} :
    v ∈ (curried ts t).leaves ↔ (∃ u ∈ ts, v ∈ u.leaves) ∨ v ∈ t.leaves := by
  induction ts with
  | nil => simp [curried]
  | cons u us ih =>
    have : curried (u :: us) t = fn u (curried us t) := rfl
    simp [this, ih, or_assoc]

theorem subst_curried (f : TyVar → Ty) (ts : List Ty) (t : Ty) :
    (curried ts t).subst f = curried (ts.map (subst f)) (t.subst f) := by
  induction ts with
  | nil => rfl
  | cons u us ih => exact congrArg (fn (u.subst f)) ih

/-! ## Images -/

theorem mem_leaves_subst {f : TyVar → Ty} {t : Ty} {w : TyVar} :
    w ∈ (t.subst f).leaves ↔ ∃ v ∈ t.leaves, w ∈ (f v).leaves := by
  induction t with
  | var v => simp [subst]
  | fn a b ha hb => simp [subst, ha, hb, or_and_right, exists_or]
  | tuple ts ih =>
    simp only [subst_tuple, leaves_tuple, List.flatMap_map, List.mem_flatMap]
    constructor
    · rintro ⟨t, ht, hw⟩
      obtain ⟨v, hv, hw⟩ := (ih t ht).mp hw
      exact ⟨v, ⟨t, ht, hv⟩, hw⟩
    · rintro ⟨v, ⟨t, ht, hv⟩, hw⟩
      exact ⟨t, ht, (ih t ht).mpr ⟨v, hv, hw⟩⟩
  | prim p => simp [subst]
  | error => simp [subst]

theorem subst_congr {f g : TyVar → Ty} {t : Ty} (h : ∀ v ∈ t.leaves, f v = g v) :
    t.subst f = t.subst g := by
  induction t with
  | var v => exact h v (by simp)
  | fn a b ha hb =>
    simp only [leaves_fn, List.mem_append] at h
    simp only [subst, ha fun v hv => h v (.inl hv), hb fun v hv => h v (.inr hv)]
  | tuple ts ih =>
    simp only [leaves_tuple, List.mem_flatMap] at h
    rw [subst_tuple, subst_tuple,
      List.map_congr_left fun t ht => ih t ht fun v hv => h v ⟨t, ht, hv⟩]
  | prim p => rfl
  | error => rfl

theorem subst_eq_self {f : TyVar → Ty} {t : Ty} (h : ∀ v ∈ t.leaves, f v = var v) :
    t.subst f = t :=
  (subst_congr h).trans (subst_var t)

/-- The image tells what a map does with the variables. -/
theorem subst_eq_subst_iff {f g : TyVar → Ty} {t : Ty} :
    t.subst f = t.subst g ↔ ∀ v ∈ t.leaves, f v = g v := by
  refine ⟨fun h => ?_, subst_congr⟩
  induction t with
  | var v => simpa [subst] using h
  | fn a b ha hb =>
    obtain ⟨h₁, h₂⟩ := fn.inj h
    exact List.forall_mem_append.mpr ⟨ha h₁, hb h₂⟩
  | tuple ts ih =>
    rw [subst_tuple, subst_tuple] at h
    have heq := List.map_inj_left.mp (tuple.inj h)
    simp only [leaves_tuple, List.mem_flatMap]
    rintro v ⟨t, ht, hv⟩
    exact ih t ht (heq t ht) v hv
  | prim p => simp
  | error => simp

/-! ## Size -/

/-- The image of a variable is no larger than that of a type it occurs in. -/
theorem sizeOf_le_of_mem {f : TyVar → Ty} {t : Ty} {v : TyVar} (h : v ∈ t.leaves) :
    sizeOf (f v) ≤ sizeOf (t.subst f) := by
  induction t with
  | var w =>
    rw [leaves_var, List.mem_singleton] at h
    subst h
    exact Nat.le_refl _
  | fn a b ha hb =>
    simp only [subst, fn.sizeOf_spec]
    rcases List.mem_append.mp h with h | h
    · have := ha h; omega
    · have := hb h; omega
  | tuple ts ih =>
    rw [leaves_tuple, List.mem_flatMap] at h
    obtain ⟨t, ht, h⟩ := h
    have h1 := ih t ht h
    have h2 := List.sizeOf_lt_of_mem (List.mem_map_of_mem (f := subst f) ht)
    rw [subst_tuple, tuple.sizeOf_spec]
    omega
  | prim p => simp at h
  | error => simp at h

/-- The occurs check is right: to identify a variable with a type around it
would take an infinite type. -/
theorem subst_ne_of_mem {t : Ty} {v : TyVar} (h : v ∈ t.leaves) (hne : t ≠ var v)
    (f : TyVar → Ty) : f v ≠ t.subst f := by
  intro he
  have hs := congrArg sizeOf he
  cases t with
  | var w =>
    rw [leaves_var, List.mem_singleton] at h
    exact hne (by rw [h])
  | fn a b =>
    simp only [subst, fn.sizeOf_spec] at hs
    rcases List.mem_append.mp h with h | h
    · have := sizeOf_le_of_mem (f := f) h; omega
    · have := sizeOf_le_of_mem (f := f) h; omega
  | tuple ts =>
    rw [leaves_tuple, List.mem_flatMap] at h
    obtain ⟨t, ht, h⟩ := h
    have h1 := sizeOf_le_of_mem (f := f) h
    have h2 := List.sizeOf_lt_of_mem (List.mem_map_of_mem (f := subst f) ht)
    rw [subst_tuple, tuple.sizeOf_spec] at hs
    omega
  | prim p => simp at h
  | error => simp at h

/-! ## The error type -/

mutual
/-- Whether the error type appears nowhere in a type. -/
def errorFree : Ty → Bool
  | .var _ | .prim _ => true
  | .fn a b => errorFree a && errorFree b
  | .tuple ts => errorFreeItems ts
  | .error => false
/-- Whether the error type appears in no item. -/
def errorFreeItems : List Ty → Bool
  | [] => true
  | t :: ts => errorFree t && errorFreeItems ts
end

@[simp] theorem errorFree_var (v : TyVar) : (var v).errorFree = true := rfl

@[simp] theorem errorFree_prim (p : Prim) : (prim p).errorFree = true := rfl

@[simp] theorem errorFree_error : error.errorFree = false := rfl

@[simp] theorem errorFree_fn {a b : Ty} :
    (fn a b).errorFree = true ↔ a.errorFree = true ∧ b.errorFree = true :=
  Bool.and_eq_true_iff

@[simp] theorem errorFree_tuple {ts : List Ty} :
    (tuple ts).errorFree = true ↔ ∀ t ∈ ts, t.errorFree = true := by
  have h : ∀ us, errorFreeItems us = true ↔ ∀ t ∈ us, t.errorFree = true := by
    intro us
    induction us with
    | nil => simp [errorFreeItems]
    | cons u us ih => simp [errorFreeItems, ih]
  exact h ts

theorem errorFree_subst {f : TyVar → Ty} {t : Ty} :
    (t.subst f).errorFree = true ↔
      t.errorFree = true ∧ ∀ v ∈ t.leaves, (f v).errorFree = true := by
  induction t with
  | var v => simp [subst]
  | fn a b ha hb =>
    simp only [subst, errorFree_fn, ha, hb, leaves_fn, List.mem_append]
    constructor
    · rintro ⟨⟨h1, h2⟩, h3, h4⟩
      exact ⟨⟨h1, h3⟩, fun v hv => hv.elim (h2 v) (h4 v)⟩
    · rintro ⟨⟨h1, h3⟩, h⟩
      exact ⟨⟨h1, fun v hv => h v (.inl hv)⟩, h3, fun v hv => h v (.inr hv)⟩
  | tuple ts ih =>
    simp only [subst_tuple, errorFree_tuple, List.mem_map, leaves_tuple, List.mem_flatMap]
    constructor
    · intro h
      have h' := fun t ht => (ih t ht).mp (h _ ⟨t, ht, rfl⟩)
      refine ⟨fun t ht => (h' t ht).1, ?_⟩
      rintro v ⟨t, ht, hv⟩
      exact (h' t ht).2 v hv
    · rintro ⟨h1, h2⟩ _ ⟨t, ht, rfl⟩
      exact (ih t ht).mpr ⟨h1 t ht, fun v hv => h2 v ⟨t, ht, hv⟩⟩
  | prim p => simp [subst]
  | error => simp [subst]

theorem errorFree_curried {ts : List Ty} {t : Ty} :
    (curried ts t).errorFree = true ↔ (∀ u ∈ ts, u.errorFree = true) ∧ t.errorFree = true := by
  induction ts with
  | nil => simp [curried]
  | cons u us ih =>
    have : curried (u :: us) t = fn u (curried us t) := rfl
    simp [this, ih, and_assoc]

end MiniML.Ty
