import MiniML.Proofs.Typing.Slots

/-!
# Patterns and annotations

To type a pattern or to read an annotation only draws variables from the
supply. What comes out is as general as can be: a typed pattern, or a type
that fits the annotation, over variables that nothing else mentions, and
every typed pattern with the same names and every type that fits arises from
it by some choice for these variables (`PatternRun.general`, `hint_general`).

Two maps agree below `n` if they have the same values at the variables before
`n` (`AgreeBelow`).
-/
namespace MiniML

/-- `θ` and `θ'` agree on the variables before `n`. -/
def AgreeBelow (n : TyVar) (θ θ' : TyVar → Ty) : Prop := ∀ v, v < n → θ' v = θ v

/-- All variables of `t` are between `n` and `m`. -/
def Ty.Between (n m : TyVar) (t : Ty) : Prop := ∀ v ∈ t.leaves, n ≤ v ∧ v < m

namespace AgreeBelow

variable {n m : TyVar} {θ θ' θ'' : TyVar → Ty} {t : Ty}

theorem refl (n : TyVar) (θ : TyVar → Ty) : AgreeBelow n θ θ := fun _ _ => rfl

theorem trans (h : AgreeBelow n θ θ') (h' : AgreeBelow m θ' θ'') (hn : n ≤ m) :
    AgreeBelow n θ θ'' :=
  fun v hv => (h' v (Nat.lt_of_lt_of_le hv hn)).trans (h v hv)

theorem subst_eq (h : AgreeBelow n θ θ') (ht : ∀ v ∈ t.leaves, v < n) : t.subst θ' = t.subst θ :=
  Ty.subst_congr fun v hv => h v (ht v hv)

/-- A choice for the first unused variable. -/
theorem update (n : TyVar) (θ : TyVar → Ty) (t : Ty) : AgreeBelow n θ (Function.update θ n t) :=
  fun _ hv => Function.update_of_ne (Nat.ne_of_lt hv) t θ

end AgreeBelow

namespace Ty.Between

variable {n n' m m' : TyVar} {t : Ty}

theorem mono (h : t.Between n m) (hn : n' ≤ n) (hm : m ≤ m') : t.Between n' m' :=
  fun v hv => ⟨Nat.le_trans hn (h v hv).1, Nat.lt_of_lt_of_le (h v hv).2 hm⟩

theorem var (n : TyVar) : (Ty.var n).Between n (n + 1) := by
  intro v hv
  rw [leaves_var, List.mem_singleton] at hv
  exact hv ▸ ⟨Nat.le_refl _, Nat.lt_succ_self _⟩

theorem prim (p : Prim) : (Ty.prim p).Between n m := by
  intro v hv
  simp at hv

theorem tuple {ts : List Ty} (h : ∀ t ∈ ts, t.Between n m) : (Ty.tuple ts).Between n m := by
  intro v hv
  rw [leaves_tuple, List.mem_flatMap] at hv
  obtain ⟨t, ht, hv⟩ := hv
  exact h t ht v hv

end Ty.Between

/-! ## Patterns -/

namespace Pattern

theorem mem_bindings {p : Pattern} {b : String × Scheme} (h : b ∈ p.bindings) :
    ∃ t ∈ p.slots, b.2 = .mono t := by
  induction p with
  | ident n =>
    rw [bindings, List.mem_singleton] at h
    exact ⟨n.mark.ty, List.mem_singleton.mpr rfl, by rw [h]⟩
  | wildcard m => simp [bindings] at h
  | literal l m => simp [bindings] at h
  | tuple ps m ih =>
    rw [bindings, bindingsOfItems_eq, List.mem_flatMap] at h
    obtain ⟨p, hp, h⟩ := h
    obtain ⟨t, ht, hb⟩ := ih p hp h
    refine ⟨t, ?_, hb⟩
    rw [slots, slotsOfItems_eq]
    exact List.mem_cons_of_mem _ (List.mem_flatMap.mpr ⟨p, hp, ht⟩)

/-- The pattern without the contents of its slots. -/
def blank (p : Pattern) : Pattern := p.mapTypes fun _ => .error

end Pattern

namespace Infer

variable {c c' : Checker}

/-- What typing a list of patterns does. -/
structure PatternsRun (ps : List Pattern) (c : Checker) (ps' : List Pattern) (bs : Bindings)
    (c' : Checker) : Prop where
  drew : c.Drew c'
  blank : ps'.map Pattern.blank = ps.map Pattern.blank
  bindings : bs = ps'.flatMap Pattern.bindings
  typed : ∀ p ∈ ps', p.Typed
  between : ∀ p ∈ ps', ∀ t ∈ p.slots, t.Between c.next c'.next
  clean : ∀ p ∈ ps', p.Clean
  general : (∀ p ∈ ps, p.Typed) → ∀ θ, ∃ θ', AgreeBelow c.next θ θ' ∧
    ps'.map (Pattern.mapTypes (·.subst θ')) = ps

/-- What typing a pattern does. -/
structure PatternRun (p : Pattern) (c : Checker) (p' : Pattern) (bs : Bindings)
    (c' : Checker) : Prop where
  drew : c.Drew c'
  blank : p'.blank = p.blank
  bindings : bs = p'.bindings
  typed : p'.Typed
  between : ∀ t ∈ p'.slots, t.Between c.next c'.next
  clean : p'.Clean
  general : p.Typed → ∀ θ, ∃ θ', AgreeBelow c.next θ θ' ∧ p'.mapTypes (·.subst θ') = p

theorem runs_patterns {ps ps' : List Pattern} {bs : Bindings}
    (hp : ∀ p ∈ ps, ∀ {c p' bs c'}, Runs (pattern p) c (p', bs) c' → PatternRun p c p' bs c')
    (h : Runs (patterns ps) c (ps', bs) c') : PatternsRun ps c ps' bs c' := by
  induction ps generalizing c ps' bs with
  | nil =>
    simp only [patterns, runs_pure, Prod.mk.injEq] at h
    obtain ⟨⟨rfl, rfl⟩, rfl⟩ := h
    exact ⟨.refl _, rfl, rfl, by simp, by simp, by simp, fun _ θ => ⟨θ, .refl _ _, rfl⟩⟩
  | cons p ps ih =>
    simp only [patterns, runs_bind, runs_pure, Prod.mk.injEq] at h
    obtain ⟨⟨p', bs₁⟩, c₁, h₁, ⟨rest, bs₂⟩, _, h₂, ⟨rfl, rfl⟩, rfl⟩ := h
    have r₁ := hp p (by simp) h₁
    have r₂ := ih (fun q hq => hp q (by simp [hq])) h₂
    refine ⟨r₁.drew.trans r₂.drew, by simp [r₁.blank, r₂.blank],
      by simp [r₁.bindings, r₂.bindings], ?_, ?_, ?_, ?_⟩
    · simpa using ⟨r₁.typed, r₂.typed⟩
    · intro q hq t ht
      rcases List.mem_cons.mp hq with rfl | hq
      · exact (r₁.between t ht).mono (Nat.le_refl _) r₂.drew.le
      · exact (r₂.between q hq t ht).mono r₁.drew.le (Nat.le_refl _)
    · simpa using ⟨r₁.clean, r₂.clean⟩
    · intro htyped θ
      obtain ⟨θ₁, hag₁, heq₁⟩ := r₁.general (htyped p (by simp)) θ
      obtain ⟨θ₂, hag₂, heq₂⟩ := r₂.general (fun q hq => htyped q (by simp [hq])) θ₁
      refine ⟨θ₂, hag₁.trans hag₂ r₁.drew.le, ?_⟩
      -- later choices leave the variables of the first pattern alone
      have hkeep : p'.mapTypes (·.subst θ₂) = p'.mapTypes (·.subst θ₁) :=
        Pattern.mapTypes_congr fun t ht => hag₂.subst_eq fun v hv => (r₁.between t ht v hv).2
      rw [List.map_cons, hkeep, heq₁, heq₂]

theorem runs_pattern {p p' : Pattern} {bs : Bindings} (h : Runs (pattern p) c (p', bs) c') :
    PatternRun p c p' bs c' := by
  induction p generalizing c p' bs c' with
  | ident n =>
    simp only [pattern, runs_bind, runs_fresh, runs_pure, Prod.mk.injEq] at h
    obtain ⟨_, _, ⟨-, rfl, rfl⟩, ⟨rfl, rfl⟩, rfl⟩ := h
    refine ⟨c.drew_succ, rfl, rfl, .ident _, ?_, ?_, fun _ θ => ?_⟩
    · simpa [Pattern.slots] using Ty.Between.var c.next
    · simp [Pattern.Clean, Pattern.slots]
    · refine ⟨_, .update c.next θ n.mark.ty, ?_⟩
      simp only [Pattern.mapTypes, Name.typed_typed, Name.typed_ty, Ty.subst, Function.update_self]
      rfl
  | wildcard m =>
    simp only [pattern, runs_bind, runs_fresh, runs_pure, Prod.mk.injEq] at h
    obtain ⟨_, _, ⟨-, rfl, rfl⟩, ⟨rfl, rfl⟩, rfl⟩ := h
    refine ⟨c.drew_succ, rfl, rfl, .wildcard _, ?_, ?_, fun _ θ => ?_⟩
    · simpa [Pattern.slots] using Ty.Between.var c.next
    · simp [Pattern.Clean, Pattern.slots]
    · refine ⟨_, .update c.next θ m.ty, ?_⟩
      simp only [Pattern.mapTypes, Mark.typed_typed, Mark.typed_ty, Ty.subst, Function.update_self]
      rfl
  | literal l m =>
    simp only [pattern, runs_pure, Prod.mk.injEq] at h
    obtain ⟨⟨rfl, rfl⟩, rfl⟩ := h
    refine ⟨.refl _, rfl, rfl, .literal rfl, ?_, ?_, fun ht θ => ⟨θ, .refl _ _, ?_⟩⟩
    · simpa [Pattern.slots] using Ty.Between.prim l.prim
    · simp [Pattern.Clean, Pattern.slots]
    · cases ht with
      | literal ht =>
        show Pattern.literal l (m.typed (.prim l.prim)) = _
        rw [← ht]
        rfl
  | tuple ps m ih =>
    simp only [pattern, runs_bind, runs_pure, Prod.mk.injEq] at h
    obtain ⟨⟨ps', bs⟩, _, h, ⟨rfl, rfl⟩, rfl⟩ := h
    have r := runs_patterns (fun p hp => ih p hp) h
    refine ⟨r.drew, ?_, ?_, .tuple r.typed rfl, ?_, ?_, fun ht θ => ?_⟩
    · have := r.blank
      simp only [Pattern.blank, Pattern.mapTypes, Pattern.mapTypesItems_eq, Mark.typed_typed]
      exact congrArg (Pattern.tuple · _) this
    · rw [r.bindings, Pattern.bindings, Pattern.bindingsOfItems_eq]
    · simp only [Pattern.slots, Pattern.slotsOfItems_eq, List.mem_cons, List.mem_flatMap,
        forall_eq_or_imp, Mark.typed_ty]
      constructor
      · refine .tuple ?_
        simpa using fun p hp => r.between p hp p.ty p.ty_mem_slots
      · rintro t ⟨p, hp, ht⟩
        exact r.between p hp t ht
    · simp only [Pattern.Clean, Pattern.slots, Pattern.slotsOfItems_eq, List.mem_cons,
        List.mem_flatMap, forall_eq_or_imp, Mark.typed_ty]
      constructor
      · refine Ty.errorFree_tuple.mpr ?_
        simpa using fun p hp => (r.clean p hp).ty
      · rintro t ⟨p, hp, ht⟩
        exact r.clean p hp t ht
    · cases ht with
      | tuple ht hm =>
        obtain ⟨θ', hag, heq⟩ := r.general ht θ
        refine ⟨θ', hag, ?_⟩
        have htys : ps'.map (fun p => p.ty.subst θ') = ps.map Pattern.ty := by
          rw [← heq, List.map_map]
          exact List.map_congr_left fun p _ => (Pattern.mapTypes_ty _ p).symm
        simp only [Pattern.mapTypes, Pattern.mapTypesItems_eq, heq, Mark.typed_typed, Mark.typed_ty,
          Ty.subst_tuple, List.map_map, Function.comp_def, htys, ← hm]
        rfl

/-- A single pattern is a list of one. -/
theorem PatternRun.singleton {p p' : Pattern} {bs : Bindings} (h : PatternRun p c p' bs c') :
    PatternsRun [p] c [p'] bs c' where
  drew := h.drew
  blank := by simp [h.blank]
  bindings := by simp [h.bindings]
  typed := by simpa using h.typed
  between := by simpa using h.between
  clean := by simpa using h.clean
  general ht θ := by simpa using h.general (by simpa using ht) θ

/-- The names are those of the patterns that were given. -/
theorem PatternsRun.names {ps ps' : List Pattern} {bs : Bindings}
    (h : PatternsRun ps c ps' bs c') : ps'.flatMap Pattern.names = ps.flatMap Pattern.names := by
  have hb := congrArg (List.flatMap Pattern.names) h.blank
  simpa only [List.flatMap_map, Pattern.blank, Pattern.mapTypes_names] using hb

/-! ## Annotations -/

/-- The names of a table have the types of `names`, under `θ`. -/
def Means (θ : TyVar → Ty) (named : FinMap String Ty) (names : String → Ty) : Prop :=
  ∀ x t, named.get? x = some t → t.subst θ = names x

/-- The variables of a table, and so those of the annotation, begin at `n`. -/
def TableFrom (n : TyVar) (named : FinMap String Ty) (c : Checker) : Prop :=
  ∀ x t, named.get? x = some t → t.Between n c.next ∧ t.errorFree = true

/-- What reading a list of annotations does. -/
structure Reads (hs : List Hint) (n : TyVar) (named : FinMap String Ty) (c : Checker)
    (ts : List Ty) (named' : FinMap String Ty) (c' : Checker) : Prop where
  drew : c.Drew c'
  grows : ∀ x t, named.get? x = some t → named'.get? x = some t
  table : TableFrom n named' c'
  types : ∀ t ∈ ts, t.Between n c'.next ∧ t.errorFree = true
  fits : ∀ θ names, Means θ named' names → Hint.FitItems names hs (ts.map (Ty.subst θ))
  general : ∀ θ names us, Means θ named names → Hint.FitItems names hs us →
    ∃ θ', AgreeBelow c.next θ θ' ∧ ts.map (Ty.subst θ') = us ∧ Means θ' named' names

theorem fitItems_singleton {names : String → Ty} {h : Hint} {ts : List Ty} :
    Hint.FitItems names [h] ts ↔ ∃ t, ts = [t] ∧ h.Fits names t := by
  simp only [Hint.FitItems]
  constructor
  · rintro ⟨t, _, rfl, ht, rfl⟩
    exact ⟨t, rfl, ht⟩
  · rintro ⟨t, rfl, ht⟩
    exact ⟨t, [], rfl, ht, rfl⟩

theorem Means.agree {n : TyVar} {named : FinMap String Ty} {θ θ' : TyVar → Ty}
    {names : String → Ty} (hm : Means θ named names) (htable : TableFrom n named c)
    (hag : AgreeBelow c.next θ θ') : Means θ' named names := by
  intro x t hx
  rw [hag.subst_eq fun v hv => ((htable x t hx).1 v hv).2, hm x t hx]

namespace Reads

variable {n : TyVar} {named named₁ named' : FinMap String Ty} {c₁ : Checker} {h : Hint}
  {hs : List Hint} {t : Ty} {ts : List Ty}

/-- Nothing is drawn, and the type is known. -/
theorem known (htable : TableFrom n named c) (ht : t.Between n c.next ∧ t.errorFree = true)
    (hfits : ∀ θ names u, Means θ named names → (h.Fits names u ↔ u = t.subst θ)) :
    Reads [h] n named c [t] named c := by
  refine ⟨.refl _, fun _ _ hx => hx, htable, by simpa using ht, fun θ names hm => ?_,
    fun θ names us hm hf => ?_⟩
  · exact fitItems_singleton.mpr ⟨_, rfl, (hfits θ names _ hm).mpr rfl⟩
  · obtain ⟨u, rfl, hu⟩ := fitItems_singleton.mp hf
    exact ⟨θ, .refl _ _, by rw [(hfits θ names u hm).mp hu]; rfl, hm⟩

theorem cons (r₁ : Reads [h] n named c [t] named₁ c₁) (r₂ : Reads hs n named₁ c₁ ts named' c') :
    Reads (h :: hs) n named c (t :: ts) named' c' := by
  have ht := r₁.types t (by simp)
  refine ⟨r₁.drew.trans r₂.drew, fun x u hx => r₂.grows x u (r₁.grows x u hx), r₂.table, ?_,
    fun θ names hm => ?_, fun θ names us hm hf => ?_⟩
  · intro u hu
    rcases List.mem_cons.mp hu with rfl | hu
    · exact ⟨ht.1.mono (Nat.le_refl _) r₂.drew.le, ht.2⟩
    · exact r₂.types u hu
  · have hm₁ : Means θ named₁ names := fun x u hx => hm x u (r₂.grows x u hx)
    obtain ⟨u, hu, hfit⟩ := fitItems_singleton.mp (r₁.fits θ names hm₁)
    exact ⟨_, _, rfl, (List.singleton_injective hu) ▸ hfit, r₂.fits θ names hm⟩
  · obtain ⟨u, us, rfl, hu, hus⟩ := hf
    obtain ⟨θ₁, hag₁, heq₁, hm₁⟩ :=
      r₁.general θ names [u] hm (fitItems_singleton.mpr ⟨u, rfl, hu⟩)
    obtain ⟨θ₂, hag₂, heq₂, hm₂⟩ := r₂.general θ₁ names us hm₁ hus
    refine ⟨θ₂, hag₁.trans hag₂ r₁.drew.le, ?_, hm₂⟩
    rw [List.map_cons, hag₂.subst_eq fun v hv => (ht.1 v hv).2, List.singleton_injective heq₁,
      heq₂]

/-- A list of annotations under one constructor. -/
theorem wrap {f : List Ty → Ty} (r : Reads hs n named c ts named' c')
    (hbetween : (f ts).Between n c'.next ∧ (f ts).errorFree = true)
    (hsubst : ∀ θ, (f ts).subst θ = f (ts.map (Ty.subst θ)))
    (hfits : ∀ names u, h.Fits names u ↔ ∃ us, u = f us ∧ Hint.FitItems names hs us) :
    Reads [h] n named c [f ts] named' c' := by
  refine ⟨r.drew, r.grows, r.table, by simpa using hbetween, fun θ names hm => ?_,
    fun θ names us hm hf => ?_⟩
  · refine fitItems_singleton.mpr ⟨_, rfl, ?_⟩
    rw [hsubst]
    exact (hfits names _).mpr ⟨_, rfl, r.fits θ names hm⟩
  · obtain ⟨u, rfl, hu⟩ := fitItems_singleton.mp hf
    obtain ⟨us, rfl, hus⟩ := (hfits names u).mp hu
    obtain ⟨θ', hag, rfl, hm'⟩ := r.general θ names us hm hus
    exact ⟨θ', hag, by rw [List.map_singleton, hsubst], hm'⟩

theorem wildcard (hn : n ≤ c.next) (htable : TableFrom n named c) :
    Reads [.wildcard] n named c [.var c.next] named { c with next := c.next + 1 } := by
  have hvar : (Ty.var c.next).Between n (c.next + 1) :=
    (Ty.Between.var c.next).mono hn (Nat.le_refl _)
  refine ⟨c.drew_succ, fun _ _ hx => hx, fun x t hx => ?_, by simpa using hvar,
    fun θ names hm => fitItems_singleton.mpr ⟨_, rfl, trivial⟩, fun θ names us hm hf => ?_⟩
  · exact ⟨(htable x t hx).1.mono (Nat.le_refl _) (Nat.le_succ _), (htable x t hx).2⟩
  · obtain ⟨u, rfl, -⟩ := fitItems_singleton.mp hf
    have hag := AgreeBelow.update c.next θ u
    exact ⟨_, hag, by simp [Ty.subst], hm.agree htable hag⟩

theorem newName {x : String} (hn : n ≤ c.next) (htable : TableFrom n named c)
    (hx : named.get? x = none) :
    Reads [.var x] n named c [.var c.next] (named.insert x (.var c.next))
      { c with next := c.next + 1 } := by
  have hvar : (Ty.var c.next).Between n (c.next + 1) :=
    (Ty.Between.var c.next).mono hn (Nat.le_refl _)
  have hne : ∀ y t, named.get? y = some t → y ≠ x := by
    rintro y t hy rfl
    rw [hx] at hy
    cases hy
  refine ⟨c.drew_succ, fun y t hy => ?_, fun y t hy => ?_, by simpa using hvar,
    fun θ names hm => fitItems_singleton.mpr ⟨_, rfl, ?_⟩, fun θ names us hm hf => ?_⟩
  · rw [FinMap.get?_insert, if_neg (hne y t hy), hy]
  · rw [FinMap.get?_insert] at hy
    split at hy
    · cases hy
      exact ⟨hvar, rfl⟩
    · exact ⟨(htable y t hy).1.mono (Nat.le_refl _) (Nat.le_succ _), (htable y t hy).2⟩
  · exact hm x _ (by rw [FinMap.get?_insert, if_pos rfl])
  · obtain ⟨u, rfl, rfl⟩ := fitItems_singleton.mp hf
    have hag := AgreeBelow.update c.next θ (names x)
    refine ⟨_, hag, by simp [Ty.subst], fun y t hy => ?_⟩
    rw [FinMap.get?_insert] at hy
    split at hy
    next he =>
      cases hy
      simp [Ty.subst, he]
    next => exact hm.agree htable hag y t hy

end Reads

theorem runs_hintTypes {n : TyVar} {named named' : FinMap String Ty} {hs : List Hint}
    {ts : List Ty}
    (hh : ∀ h ∈ hs, ∀ {named c t named' c'}, n ≤ c.next → TableFrom n named c →
      Runs (hintType named h) c (t, named') c' → Reads [h] n named c [t] named' c')
    (hn : n ≤ c.next) (htable : TableFrom n named c)
    (hrun : Runs (hintTypes named hs) c (ts, named') c') : Reads hs n named c ts named' c' := by
  induction hs generalizing c named ts with
  | nil =>
    simp only [hintTypes, runs_pure, Prod.mk.injEq] at hrun
    obtain ⟨⟨rfl, rfl⟩, rfl⟩ := hrun
    exact ⟨.refl _, fun _ _ hx => hx, htable, by simp, fun _ _ _ => rfl,
      fun θ names us hm hf => ⟨θ, .refl _ _, hf.symm, hm⟩⟩
  | cons h hs ih =>
    simp only [hintTypes, runs_bind, runs_pure, Prod.mk.injEq] at hrun
    obtain ⟨⟨t, named₁⟩, c₁, h₁, ⟨us, named₂⟩, _, h₂, ⟨rfl, rfl⟩, rfl⟩ := hrun
    have r₁ := hh h (by simp) hn htable h₁
    exact r₁.cons (ih (fun g hg => hh g (by simp [hg])) (Nat.le_trans hn r₁.drew.le) r₁.table h₂)

/-- The function type between the two types of a list. -/
def arrow : List Ty → Ty
  | [s, t] => .fn s t
  | _ => .error

/-- Reading an annotation draws variables for what it leaves open, and its
type is the most general one that fits it. -/
theorem runs_hintType {n : TyVar} {named named' : FinMap String Ty} {h : Hint} {t : Ty}
    (hn : n ≤ c.next) (htable : TableFrom n named c)
    (hrun : Runs (hintType named h) c (t, named') c') : Reads [h] n named c [t] named' c' := by
  induction h generalizing c named t named' c' with
  | prim p =>
    simp only [hintType, runs_pure, Prod.mk.injEq] at hrun
    obtain ⟨⟨rfl, rfl⟩, rfl⟩ := hrun
    exact .known htable ⟨.prim p, rfl⟩ fun _ _ _ _ => Iff.rfl
  | var x =>
    unfold hintType at hrun
    cases hx : named.get? x with
    | some u =>
      rw [hx] at hrun
      simp only [runs_pure, Prod.mk.injEq] at hrun
      obtain ⟨⟨rfl, rfl⟩, rfl⟩ := hrun
      refine .known htable (htable x _ hx) fun θ names u hm => ?_
      rw [hm x _ hx]
      exact Iff.rfl
    | none =>
      rw [hx] at hrun
      simp only [runs_bind, runs_fresh, runs_pure, Prod.mk.injEq] at hrun
      obtain ⟨_, _, ⟨-, rfl, rfl⟩, ⟨rfl, rfl⟩, rfl⟩ := hrun
      exact .newName hn htable hx
  | wildcard =>
    simp only [hintType, runs_bind, runs_fresh, runs_pure, Prod.mk.injEq] at hrun
    obtain ⟨_, _, ⟨-, rfl, rfl⟩, ⟨rfl, rfl⟩, rfl⟩ := hrun
    exact .wildcard hn htable
  | fn a b ha hb =>
    simp only [hintType, runs_bind, runs_pure, Prod.mk.injEq] at hrun
    obtain ⟨⟨s, named₁⟩, c₁, h₁, ⟨u, named₂⟩, c₂, h₂, ⟨rfl, rfl⟩, rfl⟩ := hrun
    have r₁ := ha hn htable h₁
    have r := r₁.cons (hb (Nat.le_trans hn r₁.drew.le) r₁.table h₂)
    have hs := r.types s (by simp)
    have hu := r.types u (by simp)
    refine r.wrap (f := arrow) ⟨fun v hv => ?_, Ty.errorFree_fn.mpr ⟨hs.2, hu.2⟩⟩ (fun _ => rfl)
      fun names t => ?_
    · rcases List.mem_append.mp hv with hv | hv
      · exact hs.1 v hv
      · exact hu.1 v hv
    · simp only [Hint.Fits, Hint.FitItems]
      constructor
      · rintro ⟨s, u, rfl, hs, hu⟩
        exact ⟨[s, u], rfl, s, [u], rfl, hs, u, [], rfl, hu, rfl⟩
      · rintro ⟨_, rfl, s, _, rfl, hs, u, _, rfl, hu, rfl⟩
        exact ⟨s, u, rfl, hs, hu⟩
  | tuple hs ih =>
    simp only [hintType, runs_bind, runs_pure, Prod.mk.injEq] at hrun
    obtain ⟨⟨ts, named₁⟩, _, h₁, ⟨rfl, rfl⟩, rfl⟩ := hrun
    have r := runs_hintTypes (fun h hh => ih h hh) hn htable h₁
    exact r.wrap ⟨.tuple fun t ht => (r.types t ht).1,
      Ty.errorFree_tuple.mpr fun t ht => (r.types t ht).2⟩ (fun θ => Ty.subst_tuple θ ts)
      fun names t => Iff.rfl

end Infer
end MiniML
