import MiniML.Proofs.Typing.Renamed
import MiniML.Proofs.Typing.Slots
import MiniML.Proofs.Typing.Resolve

/-!
# Two runs of inference at different heights

A checker numbers its variables upwards from where its supply stands. Run on
one tree, a checker whose supply stands `k` higher does the same, with every
variable `k` higher. `Mirrored S f x y` says this of two steps: where `y` has
a run, `x` has one from a related state, `f` takes its result to that of `y`,
and the states stay related.

A scheme that is closed may be named in any way, since all it mentions is
replaced when it is used; the other schemes of a context come from the run
itself, and have their variables raised (`Scheme.Shifted`). So numbers that the
two runs have drawn may well coincide with quantified ones of the context.

Results:
* `mirrored_fresh`, `mirrored_instantiate`, `mirrored_generalize`,
  `mirrored_equate`: the primitive steps.
* `mirrored_expr`: inference as a whole.
-/
namespace MiniML

/-- Every variable `k` higher. -/
def raise (k : Nat) : TyVar ↪ TyVar := ⟨(· + k), fun _ _ h => Nat.add_right_cancel h⟩

@[simp] theorem raise_apply (k : Nat) (v : TyVar) : raise k v = v + k := rfl

theorem strictMono_raise (k : Nat) : StrictMono (raise k) := fun _ _ h => Nat.add_lt_add_right h k

/-- A type with every variable `k` higher. -/
abbrev Ty.raised (k : Nat) : Ty → Ty := Ty.rename (raise k)

/-! ## Schemes and contexts -/

section Contexts

variable {k : Nat} {s s' : Scheme} {v : TyVar} {Γ Δ : Context} {σ : Subst}

/-- `s'` stands for `s` when all variables are `k` higher: its variables are
raised or, if nothing is free in it, named in any way. -/
inductive Scheme.Shifted (k : Nat) (s : Scheme) : Scheme → Prop
  | raised : Shifted k s (s.renamed (raise k))
  | closed (ρ : TyVar ↪ TyVar) : s.Closed → Shifted k s (s.renamed ρ)

theorem Scheme.free_renamed (ρ : TyVar ↪ TyVar) : (s.renamed ρ).Free (ρ v) ↔ s.Free v := by
  simp only [Scheme.Free, Scheme.renamed, Ty.leaves_rename, List.mem_map_of_injective ρ.injective]

theorem Scheme.Closed.renamed (h : s.Closed) (ρ : TyVar ↪ TyVar) : (s.renamed ρ).Closed := by
  intro w hw
  obtain ⟨v, -, rfl⟩ := List.mem_map.mp (Ty.leaves_rename (ρ := ρ) s.body ▸ hw.1)
  exact h v ((free_renamed ρ).mp hw)

/-- Either way there is one renaming for the whole scheme, and it raises what
is free. -/
theorem Scheme.Shifted.exists_renamed (h : s.Shifted k s') :
    ∃ ρ : TyVar ↪ TyVar, s' = s.renamed ρ ∧ ∀ v, s.Free v → ρ v = v + k := by
  cases h with
  | raised => exact ⟨raise k, rfl, fun _ _ => rfl⟩
  | closed ρ hs => exact ⟨ρ, rfl, fun v hv => absurd hv (hs v)⟩

theorem Scheme.Shifted.free (h : s.Shifted k s') :
    ((σ.renamed (raise k)).applyScheme s').Free (v + k) ↔ (σ.applyScheme s).Free v := by
  cases h with
  | raised =>
    rw [Subst.applyScheme_renamed]
    exact Scheme.free_renamed (raise k)
  | closed ρ hs =>
    rw [Subst.applyScheme_closed (hs.renamed ρ), Subst.applyScheme_closed hs]
    exact iff_of_false (hs.renamed ρ _) (hs v)

/-- `Δ` stands for `Γ` when all variables are `k` higher. -/
def Context.Shifted (k : Nat) (Γ Δ : Context) : Prop :=
  ∀ x, Option.Rel (Scheme.Shifted k) (Γ.get? x) (Δ.get? x)

namespace Context.Shifted

theorem insert (h : Γ.Shifted k Δ) (x : String) (hs : s.Shifted k s') :
    Context.Shifted k (Γ.insert x s) (Δ.insert x s') := by
  intro y
  rw [FinMap.get?_insert, FinMap.get?_insert]
  split
  · exact .some hs
  · exact h y

theorem bindName (h : Γ.Shifted k Δ) (n : Option Name) (s : Scheme) :
    Context.Shifted k (Infer.bindName Γ n s) (Infer.bindName Δ n (s.renamed (raise k))) := by
  cases n with
  | none => exact h
  | some n => exact h.insert n.text .raised

theorem extend (h : Γ.Shifted k Δ) (bs : Infer.Bindings) :
    Context.Shifted k (Γ.extend bs) (Δ.extend (bs.map fun b => (b.1, b.2.renamed (raise k)))) := by
  induction bs generalizing Γ Δ with
  | nil => exact h
  | cons b bs ih => exact ih (h.insert b.1 .raised)

/-- A closed context stands for itself. -/
theorem self (h : Γ.Closed) (k : Nat) : Γ.Shifted k Γ := by
  intro x
  cases hx : Γ.get? x with
  | none => exact .none
  | some s =>
    have hs : s.Shifted k (s.renamed id) := .closed (Function.Embedding.refl TyVar) (h x s hx)
    exact .some (by rwa [Scheme.renamed_id] at hs)

/-- What is free in the one is free in the other, `k` higher. -/
theorem mem_free (h : Γ.Shifted k Δ) :
    v + k ∈ Δ.free (σ.renamed (raise k)) ↔ v ∈ Γ.free σ := by
  have hx (x : String) : (∃ s, Δ.get? x = some s ∧
      ((σ.renamed (raise k)).applyScheme s).Free (v + k)) ↔
      ∃ s, Γ.get? x = some s ∧ (σ.applyScheme s).Free v := by
    cases hΓ : Γ.get? x <;> cases hΔ : Δ.get? x <;> have hrel := h x <;> rw [hΓ, hΔ] at hrel
    · simp
    · cases hrel
    · cases hrel
    · cases hrel with
      | some hs => simpa using hs.free
  simp only [mem_free_iff, Context.Free, get?_resolved, Option.map_eq_some_iff]
  constructor
  · rintro ⟨x, _, ⟨s, hs, rfl⟩, hv⟩
    obtain ⟨s', hs', hv'⟩ := (hx x).mp ⟨s, hs, hv⟩
    exact ⟨x, _, ⟨s', hs', rfl⟩, hv'⟩
  · rintro ⟨x, _, ⟨s, hs, rfl⟩, hv⟩
    obtain ⟨s', hs', hv'⟩ := (hx x).mpr ⟨s, hs, hv⟩
    exact ⟨x, _, ⟨s', hs', rfl⟩, hv'⟩

end Context.Shifted

end Contexts

/-! ## Related runs -/

/-- Where `y` has a run, `x` has one from a related state, with the result
that `f` takes to that of `y`, and to a related state. -/
def Mirrored {σ τ α β : Type} (S : σ → τ → Prop) (f : α → β) (x : EStateM Exhausted σ α)
    (y : EStateM Exhausted τ β) : Prop :=
  ∀ ⦃c c' b d'⦄, S c c' → Runs y c' b d' → ∃ a d, Runs x c a d ∧ b = f a ∧ S d d'

namespace Mirrored

variable {σ τ α β γ δ : Type} {S : σ → τ → Prop} {f : α → β} {g : γ → δ}
  {x : EStateM Exhausted σ α} {y : EStateM Exhausted τ β}

theorem pure {a : α} {b : β} (h : b = f a) : Mirrored S f (pure a) (pure b) := by
  intro c c' b' d' hS hy
  obtain ⟨rfl, rfl⟩ := runs_pure.mp hy
  exact ⟨a, c, runs_pure.mpr ⟨rfl, rfl⟩, h, hS⟩

theorem bind {k : α → EStateM Exhausted σ γ} {k' : β → EStateM Exhausted τ δ}
    (hx : Mirrored S f x y) (h : ∀ a, Mirrored S g (k a) (k' (f a))) :
    Mirrored S g (x >>= k) (y >>= k') := by
  intro c c' b d' hS hy
  obtain ⟨_, e', hy, hk⟩ := runs_bind.mp hy
  obtain ⟨a, e, hx, rfl, hS⟩ := hx hS hy
  obtain ⟨r, d, hr, hb, hS⟩ := h a hS hk
  exact ⟨r, d, runs_bind.mpr ⟨a, e, hx, hr⟩, hb, hS⟩

theorem ite {p q : Prop} [Decidable p] [Decidable q] (hpq : q ↔ p)
    {x₁ x₂ : EStateM Exhausted σ α} {y₁ y₂ : EStateM Exhausted τ β}
    (h₁ : Mirrored S f x₁ y₁) (h₂ : Mirrored S f x₂ y₂) :
    Mirrored S f (if p then x₁ else x₂) (if q then y₁ else y₂) := by
  by_cases hp : p
  · rwa [if_pos hp, if_pos (hpq.mpr hp)]
  · rwa [if_neg hp, if_neg fun hq => hp (hpq.mp hq)]

/-- What is read off the state may depend on all of it. -/
theorem get_bind {k : σ → EStateM Exhausted σ γ} {k' : τ → EStateM Exhausted τ δ}
    (h : ∀ c c', S c c' → Mirrored S g (k c) (k' c')) : Mirrored S g (get >>= k) (get >>= k') := by
  intro c c' b d' hS hy
  obtain ⟨_, _, hget, hk⟩ := runs_bind.mp hy
  obtain ⟨rfl, rfl⟩ := runs_get.mp hget
  obtain ⟨r, d, hr, hb, hS⟩ := h c _ hS hS hk
  exact ⟨r, d, runs_bind.mpr ⟨c, c, runs_get.mpr ⟨rfl, rfl⟩, hr⟩, hb, hS⟩

end Mirrored

/-- `c'` is `c` with all variables `k` higher, after runs that began with the
diagnostics `p` and `p'`. -/
structure Checker.Shifted (k : Nat) (p p' : Diagnostics) (c c' : Checker) : Prop where
  next : c'.next = c.next + k
  subst : c'.subst = c.subst.renamed (raise k)
  builtins : c'.builtins = c.builtins
  closed : c.builtins.Closed
  config : c'.config = c.config
  diagnostics : ∃ ds ds', c.diagnostics = p ++ ds ∧ c'.diagnostics = p' ++ ds' ∧
    List.Forall₂ (Diagnostic.Renamed (raise k)) ds ds'

namespace Infer

variable {k : Nat} {p p' : Diagnostics} {Γ Δ : Context}

/-- Steps of inference that mirror each other, `k` apart. -/
abbrev Mirrors (k : Nat) (p p' : Diagnostics) {α β : Type} (f : α → β) (x : Infer α)
    (y : Infer β) : Prop :=
  Mirrored (Checker.Shifted k p p') f x y

/-- The outcome of a rule with every variable `k` higher. -/
def raisedResult (k : Nat) : Except TypeError Ty → Except TypeError Ty
  | .ok t => .ok (t.raised k)
  | .error e => .error (e.rename (raise k))

/-- Bindings with every variable `k` higher. -/
def raisedBindings (k : Nat) (bs : Bindings) : Bindings :=
  bs.map fun b => (b.1, b.2.renamed (raise k))

/-! ## Primitive steps -/

theorem mirrors_fresh : Mirrors k p p' (Ty.raised k) fresh fresh := by
  intro c c' b d' hS hy
  obtain ⟨hlt, rfl, rfl⟩ := runs_fresh.mp hy
  have hlt' : c.next < lastVar := by
    have := hS.next
    exact Nat.lt_of_le_of_lt (this ▸ Nat.le_add_right _ k) hlt
  refine ⟨_, _, runs_fresh.mpr ⟨hlt', rfl, rfl⟩, by simp [hS.next], { hS with next := ?_ }⟩
  show c'.next + 1 = c.next + 1 + k
  rw [hS.next, Nat.add_right_comm]

theorem mirrors_subst : Mirrors k p p' (Subst.renamed (raise k)) subst subst := by
  intro c c' b d' hS hy
  obtain ⟨rfl, rfl⟩ := runs_subst.mp hy
  exact ⟨_, _, runs_subst.mpr ⟨rfl, rfl⟩, hS.subst, hS⟩

theorem mirrors_resolve (t : Ty) :
    Mirrors k p p' (Ty.raised k) (resolve t) (resolve (t.raised k)) :=
  .bind mirrors_subst fun σ => .pure (Subst.apply_renamed σ t)

/-- The keys are those of a scheme, and may be named in their own way. -/
theorem mirrors_freshFor (ρ : TyVar → TyVar) (vs : List TyVar) :
    Mirrors k p p' (List.map fun b => (ρ b.1, b.2.raised k)) (freshFor vs)
      (freshFor (vs.map ρ)) := by
  induction vs with
  | nil => exact .pure rfl
  | cons v vs ih => exact .bind mirrors_fresh fun _ => .bind ih fun _ => .pure rfl

theorem get?_ofList_renamed (ρ : TyVar ↪ TyVar) (bs : List (TyVar × Ty)) (v : TyVar) :
    (FinMap.ofList (bs.map fun b => (ρ b.1, b.2.raised k))).get? (ρ v) =
      ((FinMap.ofList bs).get? v).map (Ty.raised k) := by
  simp only [FinMap.ofList, FinMap.get?_insertMany, FinMap.get?_empty, Option.or_none,
    ← List.map_reverse]
  induction bs.reverse with
  | nil => rfl
  | cons b bs ih =>
    simp only [List.map_cons, FinMap.look, ρ.injective.eq_iff, ih]
    split <;> rfl

theorem mirrors_instantiate {s s' : Scheme} (h : s.Shifted k s') :
    Mirrors k p p' (Ty.raised k) (instantiate s) (instantiate s') := by
  obtain ⟨ρ, rfl, hfree⟩ := h.exists_renamed
  unfold instantiate
  have hmono : (s.renamed ρ).isMono = s.isMono := List.isEmpty_map
  by_cases hm : s.isMono
  · have hvars : s.vars = [] := List.isEmpty_iff.mp hm
    rw [if_pos hm, if_pos (hmono.trans hm)]
    refine .pure (Ty.rename_congr fun v hv => hfree v ⟨hv, ?_⟩)
    rw [hvars]
    exact List.not_mem_nil
  rw [if_neg hm, if_neg (by rwa [hmono])]
  intro c c' b d' hS hy
  simp only [runs_bind, runs_pure] at hy
  obtain ⟨_, e', hy, rfl, rfl⟩ := hy
  obtain ⟨bs, e, hx, rfl, hS⟩ := mirrors_freshFor ρ s.vars hS hy
  have hkeys : bs.map Prod.fst = s.vars := (runs_freshFor hx).2.1
  refine ⟨Subst.rename (.ofList bs) s.body, e,
    runs_bind.mpr ⟨bs, e, hx, runs_pure.mpr ⟨rfl, rfl⟩⟩, ?_, hS⟩
  rw [Subst.rename, Scheme.renamed_body, Ty.subst_rename, Subst.rename, Ty.raised, Ty.rename_subst]
  refine Ty.subst_congr fun v hv => ?_
  rw [get?_ofList_renamed]
  cases hget : (FinMap.ofList bs).get? v with
  | some t => rfl
  | none =>
    -- without a new name it is not quantified, and so it is raised
    have hvs : v ∉ s.vars := by
      intro hvs
      obtain ⟨⟨w, t⟩, hb, rfl⟩ := List.mem_map.mp (hkeys ▸ hvs)
      rw [FinMap.ofList, FinMap.get?_insertMany, FinMap.get?_empty, Option.or_none] at hget
      exact FinMap.look_eq_none hget t (List.mem_reverse.mpr hb)
    exact congrArg Ty.var (hfree v ⟨hv, hvs⟩)

theorem mirrors_generalize (h : Γ.Shifted k Δ) (t : Ty) :
    Mirrors k p p' (Scheme.renamed (raise k)) (generalize Γ t) (generalize Δ (t.raised k)) := by
  refine .bind mirrors_subst fun σ => .pure ?_
  have hlive (v : TyVar) :
      (!(Δ.free (σ.renamed (raise k))).contains (raise k v)) = !(Γ.free σ).contains v := by
    rw [Bool.eq_iff_iff]
    simp [h.mem_free]
  simp only [Scheme.renamed, Subst.apply_renamed, Ty.free_rename (strictMono_raise k),
    List.filter_map, Function.comp_def, hlive]

theorem mirrors_push {d d' : Diagnostic} (h : d.Renamed (raise k) d') :
    Mirrors k p p' id (push d) (push d') := by
  intro c c' r e' hS hy
  obtain rfl := runs_push.mp hy
  obtain ⟨ds, ds', h1, h2, hds⟩ := hS.diagnostics
  refine ⟨(), _, runs_push.mpr rfl, rfl, { hS with diagnostics := ?_ }⟩
  refine ⟨ds ++ [d], ds' ++ [d'], ?_, ?_, List.rel_append hds (.cons h .nil)⟩
  · rw [Checker.noting, h1, List.append_assoc]
  · rw [Checker.noting, h2, List.append_assoc]

theorem mirrors_report (e : TypeError) :
    Mirrors k p p' id (report e) (report (e.rename (raise k))) :=
  mirrors_push (e.renamed (raise k))

theorem mirrors_equate (t u : Ty) :
    Mirrors k p p' (Option.map (UnifyError.rename (raise k))) (equate t u)
      (equate (t.raised k) (u.raised k)) := by
  intro c c' r d' hS hy
  obtain ⟨rfl, rfl⟩ := runs_equate.mp hy
  have hout := outcome_unify_renamed (raise k) t u c.subst
  rw [← hS.subst] at hout
  refine ⟨_, _, runs_equate.mpr ⟨rfl, rfl⟩, by rw [hout]; rfl, { hS with subst := ?_ }⟩
  show (outcome (unify (t.raised k) (u.raised k) c'.subst)).2 = _
  rw [hout]
  rfl

/-! ## Equations and errors -/

theorem mirrors_settle (x : Except TypeError Ty) :
    Mirrors k p p' (Ty.raised k) (settle x) (settle (raisedResult k x)) := by
  cases x with
  | ok t => exact .pure rfl
  | error e => exact .bind (mirrors_report e) fun _ => .pure rfl

theorem mirrors_expect (t u : Ty) (span : Span) (context : String) :
    Mirrors k p p' id (expect t u span context)
      (expect (t.raised k) (u.raised k) span context) :=
  .bind (mirrors_equate t u) fun e => by
    cases e with
    | none => exact .pure rfl
    | some e =>
      have hreport : Mirrors k p p' id (report (.ofUnify e span context)) _ := mirrors_report _
      rwa [← TypeError.ofUnify_rename] at hreport

theorem mirrors_expectHint (t u : Ty) (span : Span) :
    Mirrors k p p' id (expectHint t u span) (expectHint (t.raised k) (u.raised k) span) :=
  .bind (mirrors_equate t u) fun e => by
    cases e with
    | none => exact .pure rfl
    | some e =>
      exact .bind (mirrors_resolve t) fun t => .bind (mirrors_resolve u) fun u =>
        mirrors_report ⟨.hintMismatch t u, span⟩

/-- An equation whose type is `w`, and the report of its failure. -/
theorem mirrors_conclude (t u w : Ty) (span : Span) (context : String) :
    Mirrors k p p' (raisedResult k)
      (do
        match ← equate t u with
        | some e => return .error (.ofUnify e span context)
        | none => return .ok (← resolve w))
      (do
        match ← equate (t.raised k) (u.raised k) with
        | some e => return .error (.ofUnify e span context)
        | none => return .ok (← resolve (w.raised k))) :=
  .bind (mirrors_equate t u) fun e => by
    cases e with
    | none => exact .bind (mirrors_resolve w) fun _ => .pure rfl
    | some e => exact .pure (congrArg Except.error (TypeError.ofUnify_rename _ e span context))

theorem mirrors_join (t u : Ty) (span : Span) (context : String) :
    Mirrors k p p' (raisedResult k) (join t u span context)
      (join (t.raised k) (u.raised k) span context) :=
  mirrors_conclude t u t span context

theorem mirrors_applyTo (t : Ty) (args : List Ty) (span : Span) (context : String) :
    Mirrors k p p' (raisedResult k) (applyTo t args span context)
      (applyTo (t.raised k) (args.map (Ty.raised k)) span context) :=
  .bind mirrors_fresh fun r => by
    rw [← Ty.rename_curried]
    exact mirrors_conclude t (.curried args r) r span context

theorem mirrors_application (f : Expr) (es : List Expr) (span : Span) :
    Mirrors k p p' (raisedResult k) (application f es span)
      (application (f.mapTypes (Ty.raised k)) (es.map (Expr.mapTypes (Ty.raised k))) span) := by
  have hcontext : applicationContext (f.mapTypes (Ty.raised k)) = applicationContext f := by
    cases f <;> rfl
  have hargs : (es.map (Expr.mapTypes (Ty.raised k))).map Expr.ty =
      (es.map Expr.ty).map (Ty.raised k) := by
    simp [Function.comp_def]
  unfold application
  rw [neverFunction_mapTypes, Expr.mapTypes_describe, Expr.mapTypes_span, Expr.mapTypes_ty,
    hcontext, hargs]
  exact .ite Iff.rfl (.pure rfl) (mirrors_applyTo _ _ _ _)

theorem mirrors_operator (name : String) (n : Nat) (span : Span) :
    Mirrors k p p' (raisedResult k) (operator name n span) (operator name n span) := by
  refine .get_bind fun c c' hS => ?_
  rw [hS.builtins]
  cases hget : c.builtins.get? name with
  | none => exact .pure rfl
  | some s =>
    have hs : s.Shifted k (s.renamed id) :=
      .closed (Function.Embedding.refl TyVar) (hS.closed name s hget)
    rw [Scheme.renamed_id] at hs
    exact .bind (mirrors_instantiate hs) fun t =>
      .ite (by rw [Ty.arity_rename]) (.pure rfl) (.pure rfl)

theorem mirrors_applyOperator (name symbol : String) (args : List Ty) (span : Span) :
    Mirrors k p p' (raisedResult k) (applyOperator name symbol args span)
      (applyOperator name symbol (args.map (Ty.raised k)) span) := by
  unfold applyOperator
  rw [List.length_map]
  refine .bind (mirrors_operator name args.length span) fun x => ?_
  cases x with
  | error e => exact .pure rfl
  | ok t => exact mirrors_applyTo _ _ _ _

theorem mirrors_lookup (h : Γ.Shifted k Δ) (n : Name) :
    Mirrors k p p' (raisedResult k) (lookup Γ n) (lookup Δ n) := by
  unfold lookup
  have hrel := h n.text
  cases hΓ : Γ.get? n.text <;> cases hΔ : Δ.get? n.text <;> rw [hΓ, hΔ] at hrel
  · exact .pure rfl
  · cases hrel
  · cases hrel
  · cases hrel with
    | some hs => exact .bind (mirrors_instantiate hs) fun _ => .pure rfl

/-! ## Annotations and patterns -/

/-- The result of an annotation with every variable `k` higher. -/
def raisedNames (k : Nat) (named : FinMap String Ty) : FinMap String Ty :=
  named.mapValues (Ty.raised k)

theorem mirrors_hintType (named : FinMap String Ty) (h : Hint) :
    Mirrors k p p' (Prod.map (Ty.raised k) (raisedNames k)) (hintType named h)
      (hintType (raisedNames k named) h) := by
  have hs : ∀ hs : List Hint, (∀ h ∈ hs, ∀ named,
      Mirrors k p p' (Prod.map (Ty.raised k) (raisedNames k)) (hintType named h)
        (hintType (raisedNames k named) h)) → ∀ named,
      Mirrors k p p' (Prod.map (List.map (Ty.raised k)) (raisedNames k)) (hintTypes named hs)
        (hintTypes (raisedNames k named) hs) := by
    intro hs h
    induction hs with
    | nil => exact fun _ => .pure rfl
    | cons g gs ih =>
      exact fun named => .bind (h g (by simp) named) fun _ =>
        .bind (ih (fun g hg => h g (by simp [hg])) _) fun _ => .pure rfl
  induction h generalizing named with
  | prim q => exact .pure rfl
  | var x =>
    unfold hintType
    rw [raisedNames, FinMap.get?_mapValues]
    cases named.get? x with
    | some t => exact .pure rfl
    | none =>
      exact .bind mirrors_fresh fun t => .pure (Prod.ext rfl (FinMap.mapValues_insert _ _ _).symm)
  | wildcard => exact .bind mirrors_fresh fun _ => .pure rfl
  | fn a b ha hb => exact .bind (ha _) fun _ => .bind (hb _) fun _ => .pure rfl
  | tuple gs ih =>
    exact .bind (hs gs (fun g hg named => ih g hg named) _) fun _ =>
      .pure (Prod.ext (Ty.rename_tuple _).symm rfl)

theorem mirrors_annotate (h : Option Hint) (t : Ty) (span : Span) :
    Mirrors k p p' id (annotate h t span) (annotate h (t.raised k) span) := by
  cases h with
  | none => exact .pure rfl
  | some h => exact .bind (mirrors_hintType .empty h) fun _ => mirrors_expectHint _ _ _

theorem mirrors_checkDistinct (ps : List Pattern) :
    Mirrors k p p' id (checkDistinct ps) (checkDistinct ps) := by
  unfold checkDistinct
  split
  · exact .pure rfl
  · exact mirrors_push (.refl _ _)

theorem mirrors_checkReachable (reachable : Bool) (span : Span) :
    Mirrors k p p' id (checkReachable reachable span) (checkReachable reachable span) :=
  .ite Iff.rfl (.pure rfl) (mirrors_push (.refl _ _))

/-- What a pattern becomes, and what it binds, with every variable `k` higher. -/
abbrev raisedPattern (k : Nat) : Pattern × Bindings → Pattern × Bindings :=
  Prod.map (Pattern.mapTypes (Ty.raised k)) (raisedBindings k)

/-- What patterns become, and what they bind, with every variable `k` higher. -/
abbrev raisedPatterns (k : Nat) : List Pattern × Bindings → List Pattern × Bindings :=
  Prod.map (List.map (Pattern.mapTypes (Ty.raised k))) (raisedBindings k)

theorem mirrors_patterns {ps : List Pattern}
    (h : ∀ q ∈ ps, Mirrors k p p' (raisedPattern k) (pattern q) (pattern q)) :
    Mirrors k p p' (raisedPatterns k) (patterns ps) (patterns ps) := by
  induction ps with
  | nil => exact .pure rfl
  | cons q ps ih =>
    refine .bind (h q (by simp)) fun _ => .bind (ih fun q hq => h q (by simp [hq])) fun _ =>
      .pure (Prod.ext rfl ?_)
    exact List.map_append.symm

theorem mirrors_pattern (q : Pattern) :
    Mirrors k p p' (raisedPattern k) (pattern q) (pattern q) := by
  induction q with
  | ident n => exact .bind mirrors_fresh fun _ => .pure rfl
  | wildcard m => exact .bind mirrors_fresh fun _ => .pure rfl
  | literal l m => exact .pure rfl
  | tuple ps m ih =>
    refine .bind (mirrors_patterns ih) fun r => .pure (Prod.ext ?_ rfl)
    simp [raisedPattern, Pattern.mapTypes, Pattern.mapTypesItems_eq, Function.comp_def]

/-! ## Expressions -/

/-- A tree with every variable in its slots `k` higher. -/
abbrev raisedTree (k : Nat) : Expr → Expr := Expr.mapTypes (Ty.raised k)

theorem mirrors_exprs {es : List Expr}
    (h : ∀ e ∈ es, ∀ {Γ Δ}, Context.Shifted k Γ Δ →
      Mirrors k p p' (raisedTree k) (expr Γ e) (expr Δ e)) (hΓ : Γ.Shifted k Δ) :
    Mirrors k p p' (List.map (raisedTree k)) (exprs Γ es) (exprs Δ es) := by
  induction es with
  | nil => exact .pure rfl
  | cons e es ih =>
    exact .bind (h e (by simp) hΓ) fun _ => .bind (ih fun d hd => h d (by simp [hd])) fun _ =>
      .pure rfl

theorem mirrors_optional {o : Option Expr}
    (h : ∀ e ∈ o, ∀ {Γ Δ}, Context.Shifted k Γ Δ →
      Mirrors k p p' (raisedTree k) (expr Γ e) (expr Δ e)) (hΓ : Γ.Shifted k Δ) :
    Mirrors k p p' (Option.map (raisedTree k)) (optional Γ o) (optional Δ o) := by
  cases o with
  | none => exact .pure rfl
  | some e => exact .bind (h e rfl hΓ) fun _ => .pure rfl

theorem mirrors_arms {as : List Arm}
    (h : ∀ a ∈ as, ∀ {Γ Δ}, Context.Shifted k Γ Δ →
      Mirrors k p p' (raisedTree k) (expr Γ a.body) (expr Δ a.body)) (hΓ : Γ.Shifted k Δ)
    (s r : Ty) (reachable : Bool) :
    Mirrors k p p' (List.map (Arm.mapTypes (Ty.raised k))) (arms Γ s r reachable as)
      (arms Δ (s.raised k) (r.raised k) reachable as) := by
  induction as generalizing reachable with
  | nil => exact .pure rfl
  | cons a as ih =>
    obtain ⟨q, e, span⟩ := a
    refine .bind (mirrors_checkReachable _ _) fun _ => .bind (mirrors_checkDistinct _) fun _ =>
      .bind (mirrors_pattern q) fun ⟨q', bs⟩ => ?_
    simp only [Prod.map, Pattern.mapTypes_ty, Pattern.mapTypes_span]
    refine .bind (mirrors_expect _ _ _ _) fun _ =>
      .bind (h (.mk q e span) (by simp) (hΓ.extend _)) fun b => ?_
    rw [Expr.mapTypes_ty, Expr.mapTypes_span]
    exact .bind (mirrors_expect _ _ _ _) fun _ =>
      .bind (ih (fun b hb => h b (by simp [hb])) _) fun _ => .pure rfl

/-- Inference does the same at any height: the trees have the same slots, with
the variables of the second `k` higher. -/
theorem mirrors_expr (e : Expr) (hΓ : Γ.Shifted k Δ) :
    Mirrors k p p' (raisedTree k) (expr Γ e) (expr Δ e) := by
  induction e generalizing Γ Δ with
  | const l m => exact .pure rfl
  | ident n =>
    exact .bind (mirrors_lookup hΓ n) fun _ => .bind (mirrors_settle _) fun _ => .pure rfl
  | tuple es m ih =>
    refine .bind (mirrors_exprs (fun e he _ _ h => ih e he h) hΓ) fun es => .pure ?_
    simp [raisedTree, Expr.mapTypes, Expr.mapTypesAll_eq, Function.comp_def]
  | unary op e m ih =>
    refine .bind (ih hΓ) fun a => ?_
    have happly : Mirrors k p p' (raisedResult k)
        (applyOperator op.builtin op.symbol [a.ty] m.span) _ := mirrors_applyOperator _ _ _ _
    exact .bind (by simpa using happly) fun _ => .bind (mirrors_settle _) fun _ => .pure rfl
  | binary op l r m hl hr =>
    refine .bind (hl hΓ) fun a => .bind (hr hΓ) fun b => ?_
    have happly : Mirrors k p p' (raisedResult k)
        (applyOperator op.symbol op.symbol [a.ty, b.ty] m.span) _ := mirrors_applyOperator _ _ _ _
    exact .bind (by simpa using happly) fun _ => .bind (mirrors_settle _) fun _ => .pure rfl
  | app f es m hf ih =>
    refine .bind (hf hΓ) fun _ => .bind (mirrors_exprs (fun e he _ _ h => ih e he h) hΓ) fun _ =>
      .bind (mirrors_application _ _ _) fun _ => .bind (mirrors_settle _) fun _ => .pure ?_
    simp [raisedTree, Expr.mapTypes, Expr.mapTypesAll_eq]
  | cond e y n m he hy hn =>
    refine .bind (he hΓ) fun a => ?_
    rw [Expr.mapTypes_ty, Expr.mapTypes_span]
    refine .bind (mirrors_expect _ _ _ _) fun _ => .bind (hy hΓ) fun b =>
      .bind (mirrors_optional (fun e he _ _ h => hn e he h) hΓ) fun n' => ?_
    have ho : otherwise (raisedTree k b) (n'.map (raisedTree k)) =
        ((otherwise b n').1.raised k, (otherwise b n').2) := by
      cases n' <;> simp [otherwise]
    rw [ho, Expr.mapTypes_ty]
    refine .bind (mirrors_join _ _ _ _) fun _ => .bind (mirrors_settle _) fun _ => .pure ?_
    simp [raisedTree, Expr.mapTypes, Expr.mapTypesOption_eq]
  | cases e as m he has =>
    refine .bind (he hΓ) fun a => .bind mirrors_fresh fun r => ?_
    rw [Expr.mapTypes_ty]
    refine .bind (mirrors_arms (fun a ha _ _ h => has a ha h) hΓ _ _ _) fun as =>
      .bind (mirrors_resolve _) fun _ => .pure ?_
    simp [raisedTree, Expr.mapTypes, Expr.mapTypesArms_eq]
  | bind n h v b m hv hb =>
    have hhead (v' : Expr) : Mirrors k p p' id (annotate h v'.ty m.span)
        (annotate h (raisedTree k v').ty m.span) := by
      rw [Expr.mapTypes_ty]
      exact mirrors_annotate _ _ _
    have hty (v' : Expr) : Mirrors k p p' (Ty.raised k) (resolve v'.ty)
        (resolve (raisedTree k v').ty) := by
      rw [Expr.mapTypes_ty]
      exact mirrors_resolve _
    cases b with
    | none => exact .bind (hv hΓ) fun v' => .bind (hhead v') fun _ => .bind (hty v') fun t => .pure rfl
    | some b =>
      refine .bind (hv hΓ) fun v' => .bind (hhead v') fun _ => .bind (hty v') fun t =>
        .bind (mirrors_generalize hΓ t) fun s => .bind (hb b rfl (hΓ.insert n.text .raised)) fun b' =>
        .pure ?_
      simp [raisedTree, Expr.mapTypes, Expr.mapTypesOption]
  | lam n ps h b r m hb hr =>
    have hname (t : Ty) : n.map (Name.typed · (t.raised k)) =
        (n.map (Name.typed · t)).map fun n => n.typed (n.mark.ty.raised k) := by
      cases n <;> rfl
    have ht (ps' : List Pattern) (b' : Expr) :
        Ty.curried ((ps'.map (Pattern.mapTypes (Ty.raised k))).map Pattern.ty) (raisedTree k b').ty =
          (Ty.curried (ps'.map Pattern.ty) b'.ty).raised k := by
      simp [Ty.rename_curried, Function.comp_def]
    have hps := @mirrors_patterns k p p' ps fun q _ => mirrors_pattern q
    cases r with
    | none =>
      refine .bind mirrors_fresh fun self => .bind (mirrors_checkDistinct ps) fun _ =>
        .bind hps fun q => ?_
      obtain ⟨ps', bs⟩ := q
      refine .bind (hb ((hΓ.bindName n (.mono self)).extend bs)) fun b' => ?_
      simp only [Prod.map, ht]
      refine .bind (mirrors_expect _ _ _ _) fun _ => .bind (mirrors_annotate _ _ _) fun _ =>
        .bind (mirrors_resolve _) fun t => .pure ?_
      simp [raisedTree, Expr.mapTypes, Expr.mapTypesOption, Pattern.mapTypesItems_eq, hname]
    | some r =>
      refine .bind mirrors_fresh fun self => .bind (mirrors_checkDistinct ps) fun _ =>
        .bind hps fun q => ?_
      obtain ⟨ps', bs⟩ := q
      refine .bind (hb ((hΓ.bindName n (.mono self)).extend bs)) fun b' => ?_
      simp only [Prod.map, ht]
      refine .bind (mirrors_expect _ _ _ _) fun _ => .bind (mirrors_annotate _ _ _) fun _ =>
        .bind (mirrors_resolve _) fun t => .bind (mirrors_generalize hΓ t) fun s =>
        .bind (hr r rfl (hΓ.bindName n s)) fun r' => .pure ?_
      simp [raisedTree, Expr.mapTypes, Expr.mapTypesOption, Pattern.mapTypesItems_eq, hname]

end Infer
end MiniML
