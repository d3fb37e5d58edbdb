import MiniML.Proofs.Typing.Cover
import MiniML.Proofs.Typing.Tracked

/-!
# Steps that follow a derivation

While a tree is inferred, some map `θ` tells what the variables drawn so far
are in a derivation. The tree may be the one that has the derivation, or that
tree with some part gone wrong; then `p` holds, and what inference knows may
have lost parts of the types. The map itself is exact, and all that was found
out is so under it, up to a blur (`Suits`).

A step that draws variables extends the map to them, and a step that solves an
equation leaves it as it is, since both sides blur one type of the derivation:
no such step reports an error (`Leads`).
-/
namespace MiniML

/-- The errors that were reported, in order. -/
def Checker.faults (c : Checker) : Diagnostics := c.diagnostics.filter Diagnostic.isError

/-- `θ` tells exactly what variables are, and that goes with what is known. -/
structure Suits (p : Prop) (θ : TyVar → Ty) (c : Checker) : Prop where
  sane : c.Sane
  exact : ∀ v, (θ v).Exact p
  blurred : c.subst.BlurredBy p θ

/-- A run from `c` to `c'` reports the errors `k`, and `θ'` is `θ` for all that
was drawn before and suits what is known after it. -/
structure Leads (p : Prop) (k : Diagnostics) (θ : TyVar → Ty) (c : Checker) (θ' : TyVar → Ty)
    (c' : Checker) : Prop where
  reach : Reach (fun _ => True) c c'
  faults : c'.faults = c.faults ++ k
  agree : AgreeBelow c.next θ θ'
  suits : Suits p θ' c'

/-- What `θ` makes of `t`, whose variables are all drawn, blurs `T`. -/
structure Becomes (p : Prop) (θ : TyVar → Ty) (c : Checker) (t T : Ty) : Prop where
  seen : Seen (fun _ => True) c t
  blur : Blurs p (t.subst θ) T
  exact : T.Exact p

/-- Under `θ`, what is known in `c` holds in a derivation in `Δ`, and the
context is no less general. -/
structure Follows (p : Prop) (θ : TyVar → Ty) (Γ Δ : Context) (c : Checker) : Prop where
  scope : Scoped (fun _ => True) Γ c
  table : c.builtins = Builtins.context
  suits : Suits p θ c
  covers : Γ.Covers p θ Δ

variable {p : Prop} {k k' : Diagnostics} {θ θ' θ'' : TyVar → Ty} {A : TyVar → Prop}
  {c c' d : Checker} {t u T : Ty} {ts Ts : List Ty} {v : TyVar}

theorem Checker.faults_noting (c : Checker) (ds : Diagnostics) :
    (c.noting ds).faults = c.faults ++ ds.filter Diagnostic.isError :=
  List.filter_append ..

theorem Checker.faults_quiet (c : Checker) {ds : Diagnostics} (h : ds.errors = 0) :
    (c.noting ds).faults = c.faults := by
  rw [faults_noting, List.filter_eq_nil_iff.mpr, List.append_nil]
  intro d hd
  simpa [Diagnostic.isError] using List.countP_eq_zero.mp h d hd

theorem Checker.length_faults (c : Checker) : c.faults.length = c.errors :=
  (List.countP_eq_length_filter ..).symm

/-- The variables of a type that was seen are drawn. -/
theorem Seen.lt (h : Seen A c t) (hs : c.Sane) (hv : v ∈ t.leaves) : v < c.next := by
  refine Nat.lt_of_not_le fun hle => ?_
  have hself := hs.apply_unbound (hs.unused v hle)
  have hseen := (Seen.iff_leaves hs).mp h v hv v (by rw [hself]; simp)
  exact Nat.not_lt_of_ge hle hseen.2

/-- Where a map is not exact it may be changed, and be anything that is. -/
theorem AgreeBelow.exact {n : TyVar} (hag : AgreeBelow n θ θ') (hexact : ∀ v, (θ v).Exact p) :
    ∃ θ'', AgreeBelow n θ θ'' ∧ (∀ v, (θ'' v).Exact p) ∧
      ∀ t : Ty, (t.subst θ').Exact p → t.subst θ'' = t.subst θ' := by
  classical
  refine ⟨fun v => if (θ' v).Exact p then θ' v else .unit, fun v hv => ?_, fun v => ?_,
    fun t ht => ?_⟩
  · exact (if_pos (hag v hv ▸ hexact v)).trans (hag v hv)
  · show (if (θ' v).Exact p then θ' v else Ty.unit).Exact p
    split
    next h => exact h
    next => exact .prim _
  · exact Ty.subst_congr fun v hv => if_pos (ht.leaf hv)

namespace Suits

/-- What is known is about drawn variables. -/
theorem agree (h : Suits p θ c) (hexact : ∀ v, (θ' v).Exact p) (hag : AgreeBelow c.next θ θ') :
    Suits p θ' c := by
  refine ⟨h.sane, hexact, fun t => ?_⟩
  have hi := h.sane.idem
  rw [Subst.apply_eq_subst hi, Ty.subst_subst]
  refine (Blurs.refl t).subst fun v _ => ?_
  cases hv : c.subst.get? v with
  | none =>
    rw [Subst.image_of_none hv]
    exact .refl _
  | some u =>
    have hlt : v < c.next := Nat.lt_of_not_le fun hle => by
      rw [h.sane.unused v hle] at hv
      cases hv
    have hb := h.blurred (.var v)
    rw [Subst.apply_var hi, Subst.image_of_some hv] at hb
    rw [Subst.image_of_some hv, hag.subst_eq (h.sane.below v u hv), hag v hlt]
    exact hb

theorem drew (h : Suits p θ c) (hd : c.Drew c') : Suits p θ c' := by
  have hs := (Reach.drew (A := fun _ => True) hd h.sane).sane
  rw [hd.rest] at hs ⊢
  exact ⟨hs, h.exact, h.blurred⟩

end Suits

namespace Leads

theorem refl (h : Suits p θ c) : Leads p [] θ c θ c :=
  ⟨.refl h.sane, (List.append_nil _).symm, .refl _ _, h⟩

theorem trans (h : Leads p k θ c θ' d) (h' : Leads p k' θ' d θ'' c') :
    Leads p (k ++ k') θ c θ'' c' :=
  ⟨h.reach.trans h'.reach, by rw [h'.faults, h.faults, List.append_assoc],
    h.agree.trans h'.agree h.reach.next_le, h'.suits⟩

/-- A step behind the others that reports nothing. -/
theorem quiet (h : Leads p k θ c θ' d) (h' : Leads p [] θ' d θ'' c') : Leads p k θ c θ'' c' :=
  List.append_nil k ▸ h.trans h'

/-- The map may be anything exact on variables that are drawn. -/
theorem drew (h : Suits p θ c) (hd : c.Drew c') (hexact : ∀ v, (θ' v).Exact p)
    (hag : AgreeBelow c.next θ θ') : Leads p [] θ c θ' c' := by
  refine ⟨.drew hd h.sane, ?_, hag, (h.agree hexact hag).drew hd⟩
  rw [hd.rest, List.append_nil]
  rfl

theorem noting (h : Suits p θ c) {ds : Diagnostics} (hds : ds.errors = 0) :
    Leads p [] θ c θ (c.noting ds) :=
  ⟨.noting h.sane ds, by rw [c.faults_quiet hds, List.append_nil], .refl _ _,
    ⟨(Reach.noting (A := fun _ => True) h.sane ds).sane, h.exact, h.blurred⟩⟩

theorem report (h : Suits p θ c) (e : TypeError) :
    Leads p [e.toDiagnostic] θ c θ (c.noting [e.toDiagnostic]) :=
  ⟨.noting h.sane _, c.faults_noting _, .refl _ _,
    ⟨(Reach.noting (A := fun _ => True) h.sane _).sane, h.exact, h.blurred⟩⟩

end Leads

namespace Becomes

theorem prim (q : Prim) : Becomes p θ c (.prim q) (.prim q) := ⟨.prim q, .prim q, .prim q⟩

theorem lost (hp : p) (hT : T.Exact p) : Becomes p θ c .error T := ⟨.error, .lost hp T, hT⟩

theorem step (h : Becomes p θ c t T) (hs : c.Sane) (l : Leads p k θ c θ' c') :
    Becomes p θ' c' t T := by
  refine ⟨l.reach.seen hs h.seen, ?_, h.exact⟩
  rw [l.agree.subst_eq fun v => h.seen.lt hs]
  exact h.blur

theorem apply (h : Becomes p θ c t T) (hθ : Suits p θ c) : Becomes p θ c (c.subst.apply t) T :=
  ⟨h.seen.apply hθ.sane, (hθ.blurred t).trans h.blur, h.exact⟩

theorem all_step (h : List.Forall₂ (Becomes p θ c) ts Ts) (hs : c.Sane)
    (l : Leads p k θ c θ' c') : List.Forall₂ (Becomes p θ' c') ts Ts :=
  h.imp fun _ _ ht => ht.step hs l

theorem tuple (hs : c.Sane) (h : List.Forall₂ (Becomes p θ c) ts Ts) :
    Becomes p θ c (.tuple ts) (.tuple Ts) := by
  have hseen : ∀ t ∈ ts, Seen (fun _ => True) c t := fun t ht =>
    have ⟨_, _, hb⟩ := exists_mem_of_forall₂ h ht
    hb.seen
  have hexact : ∀ T ∈ Ts, T.Exact p := fun T hT =>
    have ⟨_, _, hb⟩ := exists_mem_of_forall₂ h.flip hT
    hb.exact
  refine ⟨.tuple hs hseen, ?_, fun hp => Ty.errorFree_tuple.mpr fun T hT => hexact T hT hp⟩
  rw [Ty.subst_tuple]
  exact .tuple (List.forall₂_map_left_iff.mpr (h.imp fun _ _ hb => hb.blur))

theorem fn {s S : Ty} (hs : c.Sane) (h : Becomes p θ c s S) (h' : Becomes p θ c t T) :
    Becomes p θ c (.fn s t) (.fn S T) := by
  have hseen : Seen (fun _ => True) c (.curried [s] t) := .curried hs (by simpa using h.seen) h'.seen
  exact ⟨hseen, .fn h.blur h'.blur, fun hp => Ty.errorFree_fn.mpr ⟨h.exact hp, h'.exact hp⟩⟩

theorem curried (hs : c.Sane) (h : List.Forall₂ (Becomes p θ c) ts Ts) (ht : Becomes p θ c t T) :
    Becomes p θ c (.curried ts t) (.curried Ts T) := by
  induction h with
  | nil => exact ht
  | cons h _ ih => exact h.fn hs ih

end Becomes

/-- The first unused variable may become any exact type. -/
theorem leads_fresh (h : Suits p θ c) (hT : T.Exact p) :
    ∃ θ', Leads p [] θ c θ' { c with next := c.next + 1 } ∧
      Becomes p θ' { c with next := c.next + 1 } (.var c.next) T := by
  refine ⟨Function.update θ c.next T, .drew h c.drew_succ (fun v => ?_) (.update c.next θ T),
    .drew c.drew_succ h.sane (fun _ _ => trivial) (.var c.next), ?_, hT⟩
  · by_cases hv : v = c.next
    · rw [hv, Function.update_self]
      exact hT
    · rw [Function.update_of_ne hv]
      exact h.exact v
  · rw [Ty.subst, Function.update_self]
    exact .refl T

namespace Follows

variable {Γ Δ Γ' Δ' : Context} {s s' : Scheme}

theorem lt_of_free (h : Follows p θ Γ Δ c) (hv : Γ.Free v) : v < c.next := by
  obtain ⟨x, s, hx, hv⟩ := hv
  exact (h.scope.context x s hx v hv).lt h.scope.sane (by simp)

theorem step (h : Follows p θ Γ Δ c) (l : Leads p k θ c θ' c') : Follows p θ' Γ Δ c' where
  scope := h.scope.step l.reach
  table := l.reach.builtins.trans h.table
  suits := l.suits
  covers := h.covers.congr l.suits.exact fun v hv => l.agree v (h.lt_of_free hv)

theorem refl (h : Follows p θ Γ Δ c) : Leads p [] θ c θ c := .refl h.suits

theorem insert (h : Follows p θ Γ Δ c) (hseen : s.Seen (fun _ => True) c) (hs : s.Covers p θ s')
    (x : String) : Follows p θ (Γ.insert x s) (Δ.insert x s') c :=
  ⟨h.scope.inside (h.scope.context.insert hseen), h.table, h.suits, h.covers.insert hs x⟩

theorem bindName (h : Follows p θ Γ Δ c) (hseen : s.Seen (fun _ => True) c) (hs : s.Covers p θ s')
    (n : Option Name) : Follows p θ (Infer.bindName Γ n s) (Infer.bindName Δ n s') c :=
  ⟨h.scope.inside (h.scope.context.bindName hseen), h.table, h.suits, h.covers.bindName hs n⟩

/-- A name with an unquantified type. -/
theorem bindMono (h : Follows p θ Γ Δ c) (ht : Becomes p θ c t T) (n : Option Name) :
    Follows p θ (Infer.bindName Γ n (.mono t)) (Infer.bindName Δ n (.mono T)) c :=
  h.bindName (Scheme.seen_mono h.scope.sane ht.seen) (.mono h.suits.exact ht.blur ht.exact) n

end Follows

namespace Infer

variable {Γ Δ : Context} {ok : Bool} {s : Scheme} {args Args : List Ty} {r : Ty} {span : Span}

/-! ## Instances -/

/-- The new variables of a renaming may stand for any types. -/
theorem Renaming.extend {vs : List TyVar} {n m : TyVar} {f : TyVar → Ty} (hf : Renaming vs n m f)
    {g : TyVar → Ty} (hg : ∀ v, (g v).Exact p) (hθ : ∀ v, (θ v).Exact p) :
    ∃ θ', AgreeBelow n θ θ' ∧ (∀ v, (θ' v).Exact p) ∧ ∀ v ∈ vs, (f v).subst θ' = g v := by
  classical
  refine ⟨fun w => if h : ∃ v ∈ vs, f v = .var w then g h.choose else θ w, fun w hw => ?_,
    fun w => ?_, fun v hv => ?_⟩
  · refine dif_neg ?_
    rintro ⟨v, hv, hvw⟩
    obtain ⟨w', hw', hle, -⟩ := hf.inside v hv
    rw [hw', Ty.var.injEq] at hvw
    exact Nat.not_lt_of_ge hle (hvw ▸ hw)
  · show (if h : ∃ v ∈ vs, f v = .var w then g h.choose else θ w).Exact p
    split
    · exact hg _
    · exact hθ w
  · obtain ⟨w, hw, -⟩ := hf.inside v hv
    have hex : ∃ v ∈ vs, f v = .var w := ⟨v, hv, hw⟩
    have hv' : hex.choose = v :=
      hf.injective _ hex.choose_spec.1 v hv (hex.choose_spec.2.trans hw.symm)
    rw [hw]
    exact (dif_pos hex).trans (congrArg g hv')

theorem Instantiated.leads (h : Instantiated s c t c') (hsc : Scoped (fun _ => True) Γ c)
    (hθ : Suits p θ c) (hs : s.Seen (fun _ => True) c) (hT : T.Exact p) (hoffer : s.Offers p θ T) :
    ∃ θ', Leads p [] θ c θ' c' ∧ Becomes p θ' c' t T := by
  have hseen := (h.reach hsc hs).2
  obtain ⟨hd, f, hf, rfl⟩ := h
  obtain ⟨g, hg, hge, hblur⟩ := hoffer
  obtain ⟨θ', hag, hexact, hθ'⟩ := hf.extend hge hθ.exact
  refine ⟨θ', .drew hθ hd hexact hag, hseen, ?_, hT⟩
  rwa [Ty.subst_subst, Ty.subst_congr (g := g) fun v hv => ?_]
  by_cases hvs : v ∈ s.vars
  · exact hθ' v hvs
  · have hlt : v < c.next := (hs v ⟨hv, hvs⟩).lt hsc.sane (by simp)
    rw [hf.outside v hvs, hg v hvs]
    exact hag v hlt

/-! ## Equations -/

/-- Types that blur one type of the derivation can be made equal. -/
theorem Equated.leads (h : Equated t u c ok c') (hθ : Suits p θ c) (ht : Becomes p θ c t T)
    (hu : Becomes p θ c u T) : ok = true ∧ Leads p [] θ c θ c' := by
  have r := h.reach hθ.sane ht.seen hu.seen
  cases h with
  | solved h =>
    obtain ⟨-, hθ'⟩ := unify_blurred hθ.sane.idem h hθ.exact hθ.blurred ht.blur hu.blur
    exact ⟨rfl, r, (List.append_nil _).symm, .refl _ _, r.sane, hθ.exact, hθ'⟩
  | refused h _ =>
    obtain ⟨hnone, -⟩ := unify_blurred hθ.sane.idem h hθ.exact hθ.blurred ht.blur hu.blur
    cases hnone

theorem Applied.leads (h : Applied t args c r c') (hθ : Suits p θ c)
    (ht : Becomes p θ c t (.curried Args T)) (hargs : List.Forall₂ (Becomes p θ c) args Args) :
    ∃ θ', Leads p [] θ c θ' c' ∧ Becomes p θ' c' r T := by
  obtain ⟨-, ok, heq, rfl⟩ := h
  obtain ⟨θ', l₁, hr⟩ := leads_fresh hθ fun hp => (Ty.errorFree_curried.mp (ht.exact hp)).2
  obtain ⟨rfl, l₂⟩ := heq.leads l₁.suits (ht.step hθ.sane l₁)
    (.curried l₁.suits.sane (Becomes.all_step hargs hθ.sane l₁) hr)
  exact ⟨θ', l₁.quiet l₂, (hr.step l₁.suits.sane l₂).apply l₂.suits⟩

/-- The type that is read off an annotation becomes any type that fits. -/
theorem annotate_leads {h : Option Hint} {x : Unit} (hrun : Runs (annotate h t span) c x c')
    (hθ : Suits p θ c) (ht : Becomes p θ c t T) (hT : Annotated h T) :
    ∃ θ', Leads p [] θ c θ' c' := by
  cases h with
  | none =>
    obtain ⟨-, rfl⟩ := runs_pure.mp hrun
    exact ⟨θ, .refl hθ⟩
  | some h =>
    obtain ⟨u, named, d, ok, hu, heq⟩ := runs_annotate hrun
    obtain ⟨names, hfit⟩ := hT h rfl
    have hread := runs_hintType (Nat.le_refl _) (fun x t hx => by simp at hx) hu
    obtain ⟨θ₁, hag, hθ₁, -⟩ := hread.general θ names [T] (fun x t hx => by simp at hx)
      (fitItems_singleton.mpr ⟨T, rfl, hfit⟩)
    have hθ₁ : u.subst θ₁ = T := List.singleton_injective hθ₁
    obtain ⟨θ', hag', hexact, hkeep⟩ := hag.exact hθ.exact
    have l₁ : Leads p [] θ c θ' d := .drew hθ hread.drew hexact hag'
    have hu : Becomes p θ' d u T := by
      refine ⟨.drew hread.drew hθ.sane (fun _ _ => trivial) (hread.types u (by simp)).1, ?_, ht.exact⟩
      rw [hkeep u (hθ₁ ▸ ht.exact), hθ₁]
      exact .refl T
    obtain ⟨-, l₂⟩ := heq.leads l₁.suits hu (ht.step hθ.sane l₁)
    exact ⟨θ', l₁.quiet l₂⟩

/-! ## Patterns -/

theorem checkDistinct_distinct {ps : List Pattern} {x : Unit} (h : Runs (checkDistinct ps) c x c')
    (hnd : (ps.flatMap Pattern.names).Nodup) : c' = c := by
  rcases runs_checkDistinct h with ⟨-, h⟩ | ⟨hn, -⟩
  · exact h
  · exact absurd hnd hn

/-- Typed patterns bind their names to the same types in inference and in the
derivation. -/
theorem PatternsRun.leads {ps ps' : List Pattern} {bs : Bindings} (h : PatternsRun ps c ps' bs c')
    (hf : Follows p θ Γ Δ c) (htyped : ∀ q ∈ ps, q.Typed) (hexact : ∀ q ∈ ps, q.All (Ty.Exact p)) :
    ∃ θ', Leads p [] θ c θ' c' ∧
      Follows p θ' (Γ.extend bs) (Δ.extend (ps.flatMap Pattern.bindings)) c' ∧
      List.Forall₂ (Becomes p θ' c') (ps'.map Pattern.ty) (ps.map Pattern.ty) := by
  obtain ⟨θ₁, hag, rfl⟩ := h.general htyped θ
  obtain ⟨θ', hag', hθ', hkeep⟩ := hag.exact hf.suits.exact
  have hslot : ∀ q ∈ ps', ∀ t ∈ q.slots, (t.subst θ₁).Exact p ∧ t.subst θ' = t.subst θ₁ := by
    intro q hq t ht
    have he : (t.subst θ₁).Exact p := hexact _ (List.mem_map_of_mem hq) _
      (Pattern.mapTypes_slots _ _ ▸ List.mem_map_of_mem ht)
    exact ⟨he, hkeep t he⟩
  have l : Leads p [] θ c θ' c' := .drew hf.suits h.drew hθ' hag'
  have hf' := hf.step l
  obtain ⟨hty, hbs⟩ := h.seen hf.scope
  refine ⟨θ', l, ⟨hf'.scope.inside (hf'.scope.context.extend hbs), hf'.table, hf'.suits, ?_⟩, ?_⟩
  · refine hf'.covers.extend ?_
    rw [h.bindings, List.flatMap_map]
    simp only [Pattern.mapTypes_bindings, ← List.map_flatMap]
    refine List.forall₂_map_right_iff.mpr (List.forall₂_same.mpr fun b hb => ⟨rfl, ?_⟩)
    obtain ⟨q, hq, hb⟩ := List.mem_flatMap.mp hb
    obtain ⟨t, ht, hb⟩ := Pattern.mem_bindings hb
    rw [hb]
    exact .mono hθ' ((hslot q hq t ht).2 ▸ .refl _) (hslot q hq t ht).1
  · rw [List.map_map]
    refine List.forall₂_map_left_iff.mpr (List.forall₂_map_right_iff.mpr
      (List.forall₂_same.mpr fun q hq => ?_))
    obtain ⟨he, hsame⟩ := hslot q hq q.ty q.ty_mem_slots
    rw [Function.comp, Pattern.mapTypes_ty]
    exact ⟨hty q hq _ q.ty_mem_slots, hsame ▸ .refl _, he⟩

end Infer
end MiniML
