import MiniML.Proofs.Typing.Reach

/-!
# Contexts under a substitution

Inference leaves the schemes of a context as they were when their names were
bound, and reads them under the substitution. `Γ.resolved σ` is the context
that this amounts to. Its free variables are what `Context.free` lists
(`mem_free_iff`), and it is `Γ` itself if `Γ` is closed (`resolved_closed`).
-/
namespace MiniML

namespace FinMap

variable {κ α : Type} [DecidableEq κ] {f : α → α}

theorem mapValues_insert (m : FinMap κ α) (k : κ) (a : α) :
    (m.insert k a).mapValues f = (m.mapValues f).insert k (f a) := by
  refine ext_entries ?_
  simp [mapValues, insert, erase, List.filter_map, Function.comp_def]

theorem mapValues_insertMany (m : FinMap κ α) (es : List (κ × α)) :
    (m.insertMany es).mapValues f =
      (m.mapValues f).insertMany (es.map fun e => (e.1, f e.2)) := by
  induction es generalizing m with
  | nil => rfl
  | cons e es ih =>
    have h : m.insertMany (e :: es) = (m.insert e.1 e.2).insertMany es := rfl
    rw [h, ih, mapValues_insert]
    rfl

theorem mapValues_eq_self {m : FinMap κ α} (h : ∀ k a, m.get? k = some a → f a = a) :
    m.mapValues f = m := by
  refine ext_entries ((List.map_congr_left fun e he => ?_).trans (List.map_id _))
  rw [h e.1 e.2 (look_of_mem m.nodup he)]
  rfl

theorem get?_foldl_erase (m : FinMap κ α) (ks : List κ) (k : κ) :
    (ks.foldl erase m).get? k = if k ∈ ks then none else m.get? k := by
  induction ks generalizing m with
  | nil => simp
  | cons j ks ih =>
    rw [List.foldl_cons, ih, get?_erase]
    by_cases hj : k = j <;> by_cases hk : k ∈ ks <;> simp [hj, hk]

end FinMap

namespace Subst

variable {σ : Subst} {s : Scheme}

@[simp] theorem applyScheme_vars (σ : Subst) (s : Scheme) : (σ.applyScheme s).vars = s.vars := rfl

@[simp] theorem applyScheme_mono (σ : Subst) (t : Ty) :
    σ.applyScheme (.mono t) = .mono (σ.apply t) := rfl

/-- Quantified variables are left alone, whatever the substitution has for
them. -/
theorem applyScheme_body (hσ : σ.Idempotent) (s : Scheme) :
    (σ.applyScheme s).body = s.body.subst fun v => if v ∈ s.vars then .var v else σ.image v := by
  have hi : Idempotent (s.vars.foldl FinMap.erase σ) := by
    intro v t hv w hw
    rw [FinMap.get?_foldl_erase] at hv ⊢
    split at hv
    · cases hv
    · rw [hσ v t hv w hw, ite_self]
  show Subst.apply _ s.body = _
  rw [apply_eq_subst hi]
  refine Ty.subst_congr fun v _ => ?_
  by_cases hv : v ∈ s.vars <;> simp [image, FinMap.get?_foldl_erase, hv]

/-- A closed scheme reads the same under every substitution: all that it
mentions is left alone. -/
theorem applyScheme_closed (hs : s.Closed) : σ.applyScheme s = s := by
  have hbody : (σ.applyScheme s).body = s.body := by
    refine follow_fixed (fun v hv => ?_) _
    rw [FinMap.get?_foldl_erase, if_pos (by_contra fun hn => hs v ⟨hv, hn⟩)]
  exact congrArg (Scheme.mk s.vars) hbody

end Subst

namespace Context

variable {Γ : Context} {σ : Subst} {v : TyVar}

/-- The context as it reads under a substitution. -/
def resolved (σ : Subst) (Γ : Context) : Context := Γ.mapValues σ.applyScheme

theorem get?_resolved (σ : Subst) (Γ : Context) (x : String) :
    (Γ.resolved σ).get? x = (Γ.get? x).map σ.applyScheme := FinMap.get?_mapValues _ _ _

theorem resolved_insert (σ : Subst) (Γ : Context) (x : String) (s : Scheme) :
    resolved σ (Γ.insert x s) = (Γ.resolved σ).insert x (σ.applyScheme s) :=
  FinMap.mapValues_insert _ _ _

theorem resolved_bindName (σ : Subst) (Γ : Context) (n : Option Name) (s : Scheme) :
    (Infer.bindName Γ n s).resolved σ = Infer.bindName (Γ.resolved σ) n (σ.applyScheme s) := by
  cases n with
  | none => rfl
  | some n => exact resolved_insert σ Γ n.text s

/-- The bindings of patterns resolve with the slots they come from. -/
theorem resolved_extend (σ : Subst) (Γ : Context) (ps : List Pattern) :
    (Γ.extend (ps.flatMap Pattern.bindings)).resolved σ =
      (Γ.resolved σ).extend ((ps.map (Pattern.mapTypes σ.apply)).flatMap Pattern.bindings) := by
  have hb : (ps.map (Pattern.mapTypes σ.apply)).flatMap Pattern.bindings =
      (ps.flatMap Pattern.bindings).map fun b => (b.1, σ.applyScheme b.2) := by
    simp only [List.flatMap_map, List.map_flatMap, Pattern.mapTypes_bindings]
    refine List.flatMap_congr fun p _ => List.map_congr_left fun b hb => ?_
    obtain ⟨t, -, ht⟩ := Pattern.mem_bindings hb
    rw [ht]
    rfl
  rw [hb]
  exact FinMap.mapValues_insertMany _ _

theorem resolved_closed (hΓ : Γ.Closed) : Γ.resolved σ = Γ :=
  FinMap.mapValues_eq_self fun x s hx => Subst.applyScheme_closed (hΓ x s hx)

theorem mem_free_iff : v ∈ Γ.free σ ↔ (Γ.resolved σ).Free v := by
  have hs : ∀ s : Scheme, v ∈ s.free ↔ s.Free v := by
    simp [Scheme.free, Scheme.Free, List.mem_filter, Ty.mem_free]
  simp only [free, mem_ascending, List.mem_flatMap, FinMap.mem_values, Free, get?_resolved,
    Option.map_eq_some_iff, hs]
  constructor
  · rintro ⟨s, ⟨x, hx⟩, hv⟩
    exact ⟨x, _, ⟨s, hx, rfl⟩, hv⟩
  · rintro ⟨x, _, ⟨s, hx, rfl⟩, hv⟩
    exact ⟨s, ⟨x, hx⟩, hv⟩

/-- A free variable comes from one that was free before; it may have been
caught by a quantifier on the way. -/
theorem free_resolved (hσ : σ.Idempotent) : (Γ.resolved σ).Free v ↔
    ∃ x s b, Γ.get? x = some s ∧ s.Free b ∧ v ∈ (σ.apply (.var b)).leaves ∧ v ∉ s.vars := by
  simp only [Free, get?_resolved, Option.map_eq_some_iff]
  constructor
  · rintro ⟨x, _, ⟨s, hx, rfl⟩, hv, hvs⟩
    rw [Subst.applyScheme_body hσ] at hv
    obtain ⟨b, hb, hv⟩ := Ty.mem_leaves_subst.mp hv
    split at hv
    next hbs =>
      rw [Ty.leaves_var, List.mem_singleton] at hv
      exact absurd (hv ▸ hbs) hvs
    next hbs => exact ⟨x, s, b, hx, ⟨hb, hbs⟩, by rwa [Subst.apply_var hσ], hvs⟩
  · rintro ⟨x, s, b, hx, ⟨hb, hbs⟩, hv, hvs⟩
    refine ⟨x, _, ⟨s, hx, rfl⟩, ?_, hvs⟩
    rw [Subst.applyScheme_body hσ]
    exact Ty.mem_leaves_subst.mpr ⟨b, hb, by rwa [if_neg hbs, ← Subst.apply_var hσ]⟩

/-- What is known of a free variable of a scheme is over none that the scheme quantifies. -/
def Uncaptured (Γ : Context) (σ : Subst) : Prop :=
  ∀ x s b, Γ.get? x = some s → s.Free b → ∀ q ∈ s.vars, q ∉ (σ.apply (.var b)).leaves

/-- Nothing was caught if all that is known is over a set that has no quantified variable. -/
theorem All.uncaptured {A : TyVar → Prop} {c : Checker} (hseen : Γ.All (Scheme.Seen A c))
    (hapart : Γ.All fun s => ∀ b, s.Free b → ∀ q ∈ s.vars, ¬ A q) : Γ.Uncaptured c.subst :=
  fun x s b hx hb q hq hmem => hapart x s hx b hb q hq (hseen x s hx b hb q hmem).1

/-- If nothing was caught, free are all variables that the free ones stand for. -/
theorem Uncaptured.mem_free (h : Γ.Uncaptured σ) (hσ : σ.Idempotent) :
    v ∈ Γ.free σ ↔ ∃ x s b, Γ.get? x = some s ∧ s.Free b ∧ v ∈ (σ.apply (.var b)).leaves := by
  rw [mem_free_iff, free_resolved hσ]
  constructor
  · rintro ⟨x, s, b, hx, hb, hv, -⟩
    exact ⟨x, s, b, hx, hb, hv⟩
  · rintro ⟨x, s, b, hx, hb, hv⟩
    exact ⟨x, s, b, hx, hb, hv, fun hvs => h x s b hx hb v hvs hv⟩

end Context

/-! ## Closed contexts -/

section Closed

variable {Γ : Context} {t : Ty} {s : Scheme}

theorem Scheme.closed_mono_error : (Scheme.mono .error).Closed := by
  intro v hv
  simp [Scheme.Free, Scheme.mono] at hv

/-- A closed context has no free variable under any substitution. -/
theorem Context.Closed.free (hΓ : Γ.Closed) (σ : Subst) (v : TyVar) : v ∉ Γ.free σ := by
  rw [Context.mem_free_iff, Context.resolved_closed hΓ]
  rintro ⟨x, s, hx, hv⟩
  exact hΓ x s hx v hv

/-- In a closed context every variable of a type is quantified. -/
theorem Infer.mem_vars_generalize {c c' : Checker} (hΓ : Γ.Closed)
    (h : Runs (generalize Γ t) c s c') (v : TyVar) : v ∈ s.vars ↔ v ∈ s.body.leaves := by
  obtain ⟨-, hbody, hvars⟩ := runs_generalize h
  rw [hvars, hbody]
  exact ⟨And.left, fun hv => ⟨hv, hΓ.free c.subst v⟩⟩

/-- A declaration binds at most its own name, and that to a closed scheme. -/
theorem Check.declaration_binds {w w' : Workspace} {d d' : Expr} {passed : Bool}
    (hΓ : w.context.Closed) (h : Runs (Check.declaration d) w (passed, d') w') :
    (d'.declared? = none → w'.context = w.context) ∧
      ∀ n, d'.declared? = some n →
        ∃ s : Scheme, s.Closed ∧ w'.context = w.context.insert n.text s := by
  obtain ⟨c, ds, -, -, -, hplain, hnamed⟩ := runs_declaration h
  refine ⟨hplain, fun n hn => ?_⟩
  obtain ⟨s, hctx, hpass, hfail⟩ := hnamed n hn
  refine ⟨s, ?_, hctx⟩
  cases passed with
  | true => exact fun v hv => hv.2 ((Infer.mem_vars_generalize hΓ (hpass rfl) v).mpr hv.1)
  | false => exact hfail rfl ▸ Scheme.closed_mono_error

/-- Checking keeps a context closed, also when it fails. -/
theorem Check.closed_declaration {w w' : Workspace} {d : Expr} {r : Bool × Expr}
    (hΓ : w.context.Closed) (h : Runs (Check.declaration d) w r w') : w'.context.Closed := by
  obtain ⟨passed, d'⟩ := r
  obtain ⟨hplain, hnamed⟩ := declaration_binds hΓ h
  cases hn : d'.declared? with
  | none => exact hplain hn ▸ hΓ
  | some n =>
    obtain ⟨s, hs, hctx⟩ := hnamed n hn
    exact hctx ▸ hΓ.insert hs

end Closed
end MiniML
