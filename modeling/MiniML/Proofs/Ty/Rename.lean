import Mathlib.Data.List.Nodup
import Mathlib.Logic.Embedding.Basic
import Mathlib.Order.Monotone.Basic
import MiniML.Proofs.Ty.Recursion

/-!
# Renaming variables

Types, substitutions, equations and unification errors with their variables
renamed. The renaming of a type may be any map; that of a substitution has to
be injective, so that its keys stay distinct.

Nothing in unification looks at the number of a variable, so that it commutes
with every injective renaming (`outcome_unify_renamed`). The order of the
numbers matters only where the variables of a type are listed, and a renaming
that keeps the order keeps the list (`free_rename`). The text of a type that
names its variables in order of appearance does not change
(`normalized_rename`), and types that are instances of each other have the same
(`normalized_eq_of_subst`).
-/
namespace MiniML

variable {ρ π : TyVar → TyVar} {v : TyVar} {t u : Ty}

/-! ## Types -/

namespace Ty

/-- A type with its variables renamed. -/
def rename (ρ : TyVar → TyVar) (t : Ty) : Ty := t.subst fun v => .var (ρ v)

@[simp] theorem rename_var (v : TyVar) : (var v).rename ρ = var (ρ v) := rfl

@[simp] theorem rename_fn (a b : Ty) : (fn a b).rename ρ = fn (a.rename ρ) (b.rename ρ) := rfl

@[simp] theorem rename_tuple (ts : List Ty) : (tuple ts).rename ρ = tuple (ts.map (rename ρ)) :=
  subst_tuple _ ts

@[simp] theorem rename_prim (p : Prim) : (prim p).rename ρ = prim p := rfl

@[simp] theorem rename_error : error.rename ρ = error := rfl

theorem rename_curried (ts : List Ty) (t : Ty) :
    (curried ts t).rename ρ = curried (ts.map (rename ρ)) (t.rename ρ) :=
  subst_curried _ ts t

@[simp] theorem leaves_rename (t : Ty) : (t.rename ρ).leaves = t.leaves.map ρ := by
  induction t with
  | var v => rfl
  | fn a b ha hb => simp [ha, hb]
  | tuple ts ih =>
    simp only [rename_tuple, leaves_tuple, List.flatMap_map, List.map_flatMap]
    exact List.flatMap_congr ih
  | prim p => rfl
  | error => rfl

@[simp] theorem arity_rename (t : Ty) : (t.rename ρ).arity = t.arity := by
  induction t <;> simp_all [arity]

@[simp] theorem isFn_rename (t : Ty) : (t.rename ρ).isFn = t.isFn := by
  cases t <;> simp [isFn]

@[simp] theorem isTuple_rename (t : Ty) : (t.rename ρ).isTuple = t.isTuple := by
  cases t <;> simp [isTuple]

theorem subst_rename (f : TyVar → Ty) (t : Ty) : (t.rename ρ).subst f = t.subst fun v => f (ρ v) :=
  subst_subst _ _ t

theorem rename_subst (f : TyVar → Ty) (t : Ty) :
    (t.subst f).rename ρ = t.subst fun v => (f v).rename ρ :=
  subst_subst _ _ t

theorem rename_rename (ρ π : TyVar → TyVar) (t : Ty) :
    (t.rename ρ).rename π = t.rename fun v => π (ρ v) :=
  subst_subst _ _ t

theorem rename_congr (h : ∀ v ∈ t.leaves, ρ v = π v) : t.rename ρ = t.rename π :=
  subst_congr fun v hv => congrArg var (h v hv)

theorem rename_eq_self (h : ∀ v ∈ t.leaves, ρ v = v) : t.rename ρ = t :=
  subst_eq_self fun v hv => congrArg var (h v hv)

theorem rename_id (t : Ty) : t.rename id = t := rename_eq_self fun _ _ => rfl

theorem rename_inj (hρ : ρ.Injective) : t.rename ρ = u.rename ρ ↔ t = u := by
  refine ⟨fun h => ?_, fun h => h ▸ rfl⟩
  obtain ⟨π, hπ⟩ := hρ.hasLeftInverse
  have := congrArg (rename π) h
  simpa only [rename_rename, hπ _, rename_eq_self fun _ _ => rfl] using this

theorem occurs_rename (hρ : ρ.Injective) (v : TyVar) (t : Ty) :
    (t.rename ρ).occurs (ρ v) = t.occurs v := by
  rw [Bool.eq_iff_iff, occurs_iff, occurs_iff, leaves_rename, List.mem_map_of_injective hρ]

theorem rename_replace (hρ : ρ.Injective) (v : TyVar) (t u : Ty) :
    (t.replace v u).rename ρ = (t.rename ρ).replace (ρ v) (u.rename ρ) := by
  rw [replace, replace, rename_subst, subst_rename]
  refine subst_congr fun w _ => ?_
  by_cases hw : w = v
  · rw [if_pos hw, if_pos (congrArg ρ hw)]
  · rw [if_neg hw, if_neg fun h => hw (hρ h), rename_var]

/-! ## Texts -/

theorem itemTexts_eq (name : TyVar → String) (ts : List Ty) :
    itemTexts name ts = ts.map fun t =>
      if t.isFn || t.isTuple then parens (t.text name) else t.text name := by
  induction ts <;> simp_all [itemTexts]

theorem text_rename (name : TyVar → String) (t : Ty) :
    (t.rename ρ).text name = t.text fun v => name (ρ v) := by
  induction t with
  | var v => rfl
  | fn a b ha hb => simp only [rename_fn, text, isFn_rename, ha, hb]
  | tuple ts ih =>
    simp only [rename_tuple, text, itemTexts_eq, List.map_map, List.isEmpty_map]
    rw [List.map_congr_left fun t ht => ?_]
    simp only [Function.comp_apply, isFn_rename, isTuple_rename, ih t ht]
  | prim p => rfl
  | error => rfl

theorem eraseDups_map (hρ : ρ.Injective) (vs : List TyVar) :
    (vs.map ρ).eraseDups = vs.eraseDups.map ρ := by
  -- each round takes out all further occurrences of the head
  induction h : vs.length using Nat.strong_induction_on generalizing vs with
  | _ n ih =>
    cases vs with
    | nil => rfl
    | cons v vs =>
      have hlt : (vs.filter fun w => !w == v).length < n := by
        have := List.length_filter_le (fun w => !w == v) vs
        simp only [List.length_cons] at h
        omega
      have hf : ((fun w => !w == ρ v) ∘ ρ) = fun w => !w == v := by
        funext w
        simp [hρ.eq_iff]
      simp only [List.map_cons, List.eraseDups_cons, List.filter_map, hf, ih _ hlt _ rfl]

theorem idxOf_map (hρ : ρ.Injective) (v : TyVar) (vs : List TyVar) :
    (vs.map ρ).idxOf (ρ v) = vs.idxOf v := by
  induction vs with
  | nil => rfl
  | cons w ws ih =>
    have hw : (ρ w == ρ v) = (w == v) := by simp [hρ.eq_iff]
    simp only [List.map_cons, List.idxOf_cons, hw, ih]

theorem normalized_rename (hρ : ρ.Injective) (t : Ty) : (t.rename ρ).normalized = t.normalized := by
  simp only [normalized, text_rename, vars, leaves_rename, eraseDups_map hρ, idxOf_map hρ]

end Ty

/-! ## Sets of variables -/

theorem exists_above (vs : List TyVar) : ∃ n, ∀ v ∈ vs, v < n := by
  induction vs with
  | nil => exact ⟨0, nofun⟩
  | cons w ws ih =>
    obtain ⟨n, hn⟩ := ih
    refine ⟨max n (w + 1), List.forall_mem_cons.mpr ⟨?_, fun v hv => ?_⟩⟩
    · exact Nat.lt_of_lt_of_le (Nat.lt_succ_self w) (Nat.le_max_right n _)
    · exact Nat.lt_of_lt_of_le (hn v hv) (Nat.le_max_left n _)

theorem length_ascending_map (hρ : ρ.Injective) (vs : List TyVar) :
    (ascending (vs.map ρ)).length = (ascending vs).length := by
  have hperm : (ascending (vs.map ρ)).Perm ((ascending vs).map ρ) := by
    refine (List.perm_ext_iff_of_nodup (nodup_ascending _) ((nodup_ascending vs).map hρ)).mpr ?_
    simp [mem_ascending]
  rw [hperm.length_eq, List.length_map]

theorem insertVar_map (hρ : StrictMono ρ) (v : TyVar) (ws : List TyVar) :
    insertVar (ρ v) (ws.map ρ) = (insertVar v ws).map ρ := by
  induction ws with
  | nil => rfl
  | cons w ws ih =>
    simp only [List.map_cons, insertVar, hρ.lt_iff_lt, hρ.injective.eq_iff]
    split
    · rfl
    · split
      · rfl
      · rw [ih, List.map_cons]

theorem ascending_map (hρ : StrictMono ρ) (vs : List TyVar) :
    ascending (vs.map ρ) = (ascending vs).map ρ := by
  induction vs with
  | nil => rfl
  | cons v vs ih =>
    show insertVar (ρ v) (ascending (vs.map ρ)) = _
    rw [ih, insertVar_map hρ]
    rfl

theorem Ty.free_rename (hρ : StrictMono ρ) (t : Ty) : (t.rename ρ).free = t.free.map ρ := by
  rw [Ty.free, Ty.leaves_rename, ascending_map hρ, Ty.free]

/-! ## Mutual instances -/

namespace Ty

/-- Types that are instances of each other differ in the names of their
variables only. -/
theorem exists_rename {f g : TyVar → Ty} (h : (t.subst f).subst g = t) :
    ∃ ρ : TyVar → TyVar, ρ.Injective ∧ t.subst f = t.rename ρ := by
  have hback : ∀ v ∈ t.leaves, (f v).subst g = .var v := by
    rw [subst_subst] at h
    exact subst_eq_subst_iff.mp (h.trans (subst_var t).symm)
  have hvar : ∀ v ∈ t.leaves, ∃ w, f v = .var w := by
    intro v hv
    have hv := hback v hv
    cases hf : f v with
    | var w => exact ⟨w, rfl⟩
    | tuple ts => rw [hf, subst_tuple] at hv; cases hv
    | _ => rw [hf] at hv; cases hv
  obtain ⟨n, hn⟩ := exists_above (t.leaves.flatMap fun v => (f v).leaves)
  -- where `f` does not say, the renaming goes above all its variables
  let ρ : TyVar → TyVar := fun v => if v ∈ t.leaves then (f v).leaves.headD v else n + v
  have hin (v : TyVar) (hv : v ∈ t.leaves) : f v = .var (ρ v) := by
    obtain ⟨w, hw⟩ := hvar v hv
    rw [show ρ v = (f v).leaves.headD v from if_pos hv, hw]
    rfl
  have hlt (v : TyVar) (hv : v ∈ t.leaves) : ρ v < n := by
    refine hn _ (List.mem_flatMap.mpr ⟨v, hv, ?_⟩)
    rw [hin v hv, leaves_var]
    exact List.mem_singleton_self _
  have hout (v : TyVar) (hv : v ∉ t.leaves) : ρ v = n + v := if_neg hv
  refine ⟨ρ, fun v w heq => ?_, subst_congr hin⟩
  by_cases hv : v ∈ t.leaves <;> by_cases hw : w ∈ t.leaves
  · have hvw := hback v hv
    rw [hin v hv, heq, ← hin w hw, hback w hw] at hvw
    exact (var.inj hvw).symm
  · exact absurd (heq ▸ hlt v hv) (hout w hw ▸ Nat.not_lt_of_ge (Nat.le_add_right n w))
  · exact absurd (heq ▸ hlt w hw) (hout v hv ▸ Nat.not_lt_of_ge (Nat.le_add_right n v))
  · rw [hout v hv, hout w hw] at heq
    exact Nat.add_left_cancel heq

/-- Types that are instances of each other have one text. -/
theorem normalized_eq_of_subst {f g : TyVar → Ty} (hu : t.subst f = u) (ht : u.subst g = t) :
    u.normalized = t.normalized := by
  subst hu
  obtain ⟨ρ, hρ, heq⟩ := exists_rename ht
  rw [heq, normalized_rename hρ]

end Ty

/-! ## Schemes -/

namespace Scheme

/-- A scheme with all variables renamed, the quantified ones too. -/
def renamed (ρ : TyVar → TyVar) (s : Scheme) : Scheme := ⟨s.vars.map ρ, s.body.rename ρ⟩

@[simp] theorem renamed_vars (s : Scheme) : (s.renamed ρ).vars = s.vars.map ρ := rfl

@[simp] theorem renamed_body (s : Scheme) : (s.renamed ρ).body = s.body.rename ρ := rfl

@[simp] theorem renamed_mono (t : Ty) : (mono t).renamed ρ = mono (t.rename ρ) := rfl

@[simp] theorem renamed_id (s : Scheme) : s.renamed id = s := by
  simp [renamed, Ty.rename_id]

theorem text_renamed (hρ : ρ.Injective) (s : Scheme) : (s.renamed ρ).text = s.text :=
  Ty.normalized_rename hρ s.body

end Scheme

/-! ## Substitutions -/

namespace Subst

variable {ρ : TyVar ↪ TyVar} {σ : Subst}

/-- A substitution with all variables renamed, in its keys and its types. -/
def renamed (ρ : TyVar ↪ TyVar) (σ : Subst) : Subst where
  entries := σ.entries.map fun e => (ρ e.1, e.2.rename ρ)
  nodup := by
    have := σ.nodup.map ρ.injective
    simpa [List.map_map, Function.comp_def] using this

@[simp] theorem size_renamed (σ : Subst) : (σ.renamed ρ).size = σ.size := List.length_map _

@[simp] theorem renamed_empty : renamed ρ .empty = .empty := rfl

theorem get?_renamed (σ : Subst) (v : TyVar) :
    (σ.renamed ρ).get? (ρ v) = (σ.get? v).map (Ty.rename ρ) := by
  show FinMap.look (ρ v) (σ.entries.map _) = (FinMap.look v σ.entries).map _
  induction σ.entries with
  | nil => rfl
  | cons e es ih =>
    obtain ⟨w, t⟩ := e
    simp only [List.map_cons, FinMap.look, ρ.injective.eq_iff]
    split
    · rfl
    · exact ih

theorem follow_renamed (σ : Subst) (n : Nat) (t : Ty) :
    (σ.renamed ρ).follow n (t.rename ρ) = (σ.follow n t).rename ρ := by
  induction n generalizing t with
  | zero => rfl
  | succ n ih =>
    simp only [follow, Ty.subst_rename, Ty.rename_subst]
    refine Ty.subst_congr fun v _ => ?_
    rw [get?_renamed]
    cases σ.get? v with
    | none => rfl
    | some u => exact ih u

theorem apply_renamed (σ : Subst) (t : Ty) :
    (σ.renamed ρ).apply (t.rename ρ) = (σ.apply t).rename ρ := by
  rw [apply, size_renamed, follow_renamed, apply]

theorem singleton_renamed (v : TyVar) (t : Ty) :
    renamed ρ (FinMap.singleton v t) = FinMap.singleton (ρ v) (t.rename ρ) := rfl

theorem mapValues_renamed {f g : Ty → Ty} (h : ∀ t : Ty, g (t.rename ρ) = (f t).rename ρ)
    (σ : Subst) : (σ.renamed ρ).mapValues g = renamed ρ (σ.mapValues f) :=
  FinMap.ext_entries (by simp [renamed, FinMap.mapValues, h])

theorem override_renamed (σ τ : Subst) :
    (σ.renamed ρ).override (τ.renamed ρ) = renamed ρ (σ.override τ) := by
  refine FinMap.ext_entries ?_
  simp only [FinMap.override, renamed, List.map_append, List.filter_map]
  congr 3
  funext e
  show (!FinMap.contains (τ.renamed ρ) (ρ e.1)) = !FinMap.contains τ e.1
  rw [FinMap.contains, get?_renamed, Option.isSome_map, FinMap.contains]

theorem assign_renamed (σ : Subst) (v : TyVar) (t : Ty) :
    (σ.renamed ρ).assign (ρ v) (t.rename ρ) = renamed ρ (σ.assign v t) := by
  rw [assign, compose, assign, compose, ← override_renamed, singleton_renamed]
  congr 1
  exact mapValues_renamed (fun u => by rw [← singleton_renamed, apply_renamed]) σ

theorem erase_renamed (σ : Subst) (v : TyVar) :
    FinMap.erase (σ.renamed ρ) (ρ v) = renamed ρ (FinMap.erase σ v) := by
  refine FinMap.ext_entries ?_
  simp only [FinMap.erase, renamed, List.filter_map]
  congr 2
  funext e
  simp [ρ.injective.eq_iff]

theorem applyScheme_renamed (σ : Subst) (s : Scheme) :
    (σ.renamed ρ).applyScheme (s.renamed ρ) = (σ.applyScheme s).renamed ρ := by
  have herase : ∀ (vs : List TyVar) (τ : Subst),
      (vs.map ρ).foldl FinMap.erase (τ.renamed ρ) = renamed ρ (vs.foldl FinMap.erase τ) := by
    intro vs
    induction vs with
    | nil => exact fun _ => rfl
    | cons v vs ih =>
      intro τ
      rw [List.map_cons, List.foldl_cons, erase_renamed, ih, List.foldl_cons]
  simp only [applyScheme, Scheme.renamed, herase, apply_renamed]

end Subst

/-! ## Unification -/

/-- An equation with its variables renamed. -/
def Equation.rename (ρ : TyVar → TyVar) (e : Equation) : Equation := (e.1.rename ρ, e.2.rename ρ)

/-- A unification error with its variables renamed. -/
def UnifyError.rename (ρ : TyVar → TyVar) : UnifyError → UnifyError
  | .mismatch s t => .mismatch (s.rename ρ) (t.rename ρ)
  | .tupleArity s t => .tupleArity (s.rename ρ) (t.rename ρ)
  | .occurs v t => .occurs (ρ v) (t.rename ρ)

theorem Ty.head_rename_eq_iff (hρ : ρ.Injective) (s t : Ty) :
    (s.rename ρ).head = (t.rename ρ).head ↔ s.head = t.head := by
  cases s <;> cases t <;> simp [head, hρ.eq_iff]

theorem Stuck.rename {e : Equation} (hρ : ρ.Injective) (h : Stuck e) : Stuck (e.rename ρ) where
  left he := h.left ((Ty.rename_inj (ρ := ρ) hρ).mp he)
  right he := h.right ((Ty.rename_inj (ρ := ρ) hρ).mp he)
  differ := by
    rcases h.differ with hd | ⟨ts, us, h1, h2, hl⟩
    · exact .inl fun he => hd ((Ty.head_rename_eq_iff hρ _ _).mp he)
    · refine .inr ⟨ts.map (Ty.rename ρ), us.map (Ty.rename ρ), ?_, ?_, by simpa using hl⟩
      · rw [Equation.rename, h1, Ty.rename_tuple]
      · rw [Equation.rename, h2, Ty.rename_tuple]

theorem residue_rename (hρ : ρ.Injective) (s t : Ty) :
    residue (s.rename ρ) (t.rename ρ) = (residue s t).map (Equation.rename ρ) := by
  have hone : ∀ e ∈ residue s t, residue (e.1.rename ρ) (e.2.rename ρ) = [e.rename ρ] :=
    fun e he => residue_stuck ((stuck_of_mem_residue he).rename hρ)
  refine (residue_subst _ s t).trans ((List.flatMap_congr hone).trans ?_)
  exact List.flatMap_pure_eq_map _ _

theorem orient_rename (e : Equation) :
    orient (e.rename ρ) = (orient e).map fun p => (ρ p.1, p.2.rename ρ) := by
  obtain ⟨s, t⟩ := e
  cases s <;> cases t <;> simp [orient, Equation.rename]

theorem clash_rename (e : Equation) : clash (e.rename ρ) = (clash e).rename ρ := by
  obtain ⟨s, t⟩ := e
  cases s <;> cases t <;> simp [clash, Equation.rename, UnifyError.rename]

theorem eliminate_rename (hρ : ρ.Injective) (v : TyVar) (u : Ty) (eqs : List Equation) :
    eliminate (ρ v) (u.rename ρ) (eqs.map (Equation.rename ρ)) =
      (eliminate v u eqs).map (Equation.rename ρ) := by
  simp only [eliminate, List.flatMap_map, List.map_flatMap, ← residue_rename hρ,
    Ty.rename_replace hρ, Equation.rename]

theorem length_unknowns_rename (hρ : ρ.Injective) (eqs : List Equation) :
    (unknowns (eqs.map (Equation.rename ρ))).length = (unknowns eqs).length := by
  have h : ((eqs.map (Equation.rename ρ)).flatMap fun e => e.1.leaves ++ e.2.leaves) =
      (eqs.flatMap fun e => e.1.leaves ++ e.2.leaves).map ρ := by
    simp [List.flatMap_map, List.map_flatMap, Equation.rename]
  rw [unknowns, h, length_ascending_map hρ, unknowns]

/-- The outcome of unification with its variables renamed. -/
def renamedOutcome (ρ : TyVar ↪ TyVar) (r : Option UnifyError × Subst) :
    Option UnifyError × Subst :=
  (r.1.map (UnifyError.rename ρ), r.2.renamed ρ)

theorem outcome_solve_renamed (ρ : TyVar ↪ TyVar) (n : Nat) (eqs : List Equation) (σ : Subst) :
    outcome (solve n (eqs.map (Equation.rename ρ)) (σ.renamed ρ)) =
      renamedOutcome ρ (outcome (solve n eqs σ)) := by
  induction n generalizing eqs σ with
  | zero =>
    cases eqs with
    | nil => rfl
    | cons e eqs =>
      simp only [List.map_cons, solve, orient_rename]
      cases orient e with
      | none => simp [outcome, renamedOutcome, clash_rename]
      | some p =>
        simp only [Option.map_some, Ty.occurs_rename ρ.injective]
        split <;> rfl
  | succ n ih =>
    cases eqs with
    | nil => rfl
    | cons e eqs =>
      simp only [List.map_cons, solve, orient_rename]
      cases orient e with
      | none => simp [outcome, renamedOutcome, clash_rename]
      | some p =>
        simp only [Option.map_some, Ty.occurs_rename ρ.injective]
        split
        · rfl
        · rw [eliminate_rename ρ.injective, Subst.assign_renamed, ih]

/-- Unification commutes with every injective renaming. -/
theorem outcome_unify_renamed (ρ : TyVar ↪ TyVar) (s t : Ty) (σ : Subst) :
    outcome (unify (s.rename ρ) (t.rename ρ) (σ.renamed ρ)) =
      renamedOutcome ρ (outcome (unify s t σ)) := by
  simp only [unify, Subst.apply_renamed, residue_rename ρ.injective,
    length_unknowns_rename ρ.injective, outcome_solve_renamed]

end MiniML
