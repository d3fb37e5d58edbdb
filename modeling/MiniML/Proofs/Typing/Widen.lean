import MiniML.Proofs.Grammar.Print
import MiniML.Proofs.Ty.Wide
import MiniML.Proofs.Typing.HasType
import MiniML.Proofs.Typing.Resolve

/-!
# Trees whose tuples have at least two items

Where a tree, its annotations and its context have only tuples of at least two
items, so may all types of a derivation: `Ty.widen` takes every derivation of the
tree to another one. So the most general type of such a tree has no other tuples.

Results:
* `HasType.widen`: a type of the tree, made wide, is a type of the tree.
-/
namespace MiniML

/-- Trees in which each tuple has at least two items, in expressions as well as in
patterns and annotations. -/
inductive Expr.Wide : Expr → Prop
  | const (l : Literal) (m : Mark) : Wide (.const l m)
  | ident (n : Name) : Wide (.ident n)
  | tuple {es : List Expr} (m : Mark) : 2 ≤ es.length → (∀ e ∈ es, Wide e) → Wide (.tuple es m)
  | unary (op : UnaryOp) {e : Expr} (m : Mark) : Wide e → Wide (.unary op e m)
  | binary (op : BinaryOp) {l r : Expr} (m : Mark) : Wide l → Wide r → Wide (.binary op l r m)
  | app {f : Expr} {es : List Expr} (m : Mark) : Wide f → (∀ e ∈ es, Wide e) → Wide (.app f es m)
  | cond {t y : Expr} {n : Option Expr} (m : Mark) : Wide t → Wide y → (∀ e ∈ n, Wide e) →
      Wide (.cond t y n m)
  | cases {e : Expr} {as : List Arm} (m : Mark) : Wide e → (∀ a ∈ as, a.pattern.Denotable) →
      (∀ a ∈ as, Wide a.body) → Wide (.cases e as m)
  | bind (n : Name) {h : Option Hint} {v : Expr} {b : Option Expr} (m : Mark) :
      (∀ g ∈ h, g.Denotable) → Wide v → (∀ e ∈ b, Wide e) → Wide (.bind n h v b m)
  | lam (n : Option Name) {ps : List Pattern} {h : Option Hint} {b : Expr} {r : Option Expr}
      (m : Mark) : (∀ p ∈ ps, p.Denotable) → (∀ g ∈ h, g.Denotable) → Wide b → (∀ e ∈ r, Wide e) →
      Wide (.lam n ps h b r m)

variable {Γ : Context} {T : Ty} {t : Ty} {s : Scheme}

/-! ## Schemes and contexts -/

namespace Scheme

/-- The scheme with all tuples of its body wide. -/
def widen (s : Scheme) : Scheme := { s with body := s.body.widen }

theorem free_widen {v : TyVar} : s.widen.Free v ↔ s.Free v := by
  simp only [Free, widen, Ty.leaves_widen]

theorem widen_of_wide (h : s.body.wide = true) : s.widen = s :=
  congrArg (Scheme.mk s.vars) (Ty.widen_of_wide h)

theorem Instance.widen (h : s.Instance t) : s.widen.Instance t.widen := by
  obtain ⟨f, hf, rfl⟩ := h
  exact ⟨fun v => (f v).widen, fun v hv => congrArg Ty.widen (hf v hv), Ty.widen_subst f s.body⟩

end Scheme

namespace Context

/-- Each tuple in a type of the context has at least two items. -/
def Wide (Γ : Context) : Prop := Γ.All fun s => s.body.wide = true

/-- The context with all tuples wide. -/
def widened (Γ : Context) : Context := Γ.mapValues Scheme.widen

theorem get?_widened (Γ : Context) (x : String) :
    Γ.widened.get? x = (Γ.get? x).map Scheme.widen := FinMap.get?_mapValues _ _ _

theorem widened_of_wide (h : Γ.Wide) : Γ.widened = Γ :=
  FinMap.mapValues_eq_self fun x s hx => Scheme.widen_of_wide (h x s hx)

theorem widened_bindName (Γ : Context) (n : Option Name) (s : Scheme) :
    (Infer.bindName Γ n s).widened = Infer.bindName Γ.widened n s.widen := by
  cases n with
  | none => rfl
  | some n => exact FinMap.mapValues_insert _ _ _

theorem widened_extend (Γ : Context) (ps : List Pattern) :
    (Γ.extend (ps.flatMap Pattern.bindings)).widened =
      Γ.widened.extend ((ps.map (Pattern.mapTypes Ty.widen)).flatMap Pattern.bindings) := by
  have hbindings : (ps.map (Pattern.mapTypes Ty.widen)).flatMap Pattern.bindings =
      (ps.flatMap Pattern.bindings).map fun b => (b.1, b.2.widen) := by
    simp only [List.flatMap_map, List.map_flatMap, Pattern.mapTypes_bindings]
    rfl
  rw [hbindings]
  exact FinMap.mapValues_insertMany _ _

theorem free_widened {v : TyVar} : Γ.widened.Free v ↔ Γ.Free v := by
  simp only [Free, get?_widened, Option.map_eq_some_iff]
  constructor
  · rintro ⟨x, _, ⟨s, hs, rfl⟩, hv⟩
    exact ⟨x, s, hs, Scheme.free_widen.mp hv⟩
  · rintro ⟨x, s, hs, hv⟩
    exact ⟨x, _, ⟨s, hs, rfl⟩, Scheme.free_widen.mpr hv⟩

end Context

theorem Builtins.context_wide : Builtins.context.Wide := by
  have h : ∀ b ∈ table, b.2.body.wide = true := by decide
  exact fun x s hx => h _ (mem_table hx)

theorem Generalizes.widen (h : Generalizes Γ t s) : Generalizes Γ.widened t.widen s.widen where
  body := congrArg Ty.widen h.body
  vars v := by
    rw [Ty.leaves_widen, Context.free_widened]
    exact h.vars v

theorem Operates.widen {name : String} {args : List Ty} (h : Operates name args t) :
    Operates name (args.map Ty.widen) t.widen := by
  obtain ⟨s, hs, hi⟩ := h
  refine ⟨s, hs, ?_⟩
  have hwide := hi.widen
  rwa [Ty.widen_curried, Scheme.widen_of_wide (Builtins.context_wide name s hs)] at hwide

/-! ## Annotations and patterns -/

theorem Hint.Fits.widen {names : String → Ty} {h : Hint} (hw : h.Denotable) (hf : h.Fits names t) :
    h.Fits (fun x => (names x).widen) t.widen := by
  induction hw generalizing t with
  | prim p =>
    obtain rfl := hf
    rfl
  | var x =>
    obtain rfl := hf
    rfl
  | wildcard => trivial
  | fn _ _ ha hb =>
    obtain ⟨u, v, rfl, hu, hv⟩ := hf
    exact ⟨_, _, rfl, ha hu, hb hv⟩
  | @tuple hs hlen hhs ih =>
    obtain ⟨ts, rfl, hts⟩ := hf
    have hitems : hs.length = ts.length ∧
        Hint.FitItems (fun x => (names x).widen) hs (ts.map Ty.widen) := by
      clear hlen hhs
      induction hs generalizing ts with
      | nil =>
        obtain rfl := hts
        exact ⟨rfl, rfl⟩
      | cons h hs ihs =>
        obtain ⟨u, us, rfl, hu, hus⟩ := hts
        obtain ⟨hlen, hfit⟩ := ihs (fun g hg => ih g (by simp [hg])) us hus
        exact ⟨congrArg (· + 1) hlen, _, _, rfl, ih h (by simp) hu, hfit⟩
    refine ⟨_, ?_, hitems.2⟩
    rw [Ty.widen_tuple, Ty.row_of_two_le]
    rw [List.length_map, ← hitems.1]
    exact hlen

theorem Annotated.widen {h : Option Hint} (hw : ∀ g ∈ h, g.Denotable) (ha : Annotated h t) :
    Annotated h t.widen := by
  intro g hg
  obtain ⟨names, hf⟩ := ha g hg
  exact ⟨_, hf.widen (hw g hg)⟩

namespace Pattern

theorem denotable_of_blank {p q : Pattern} (h : q.blank = p.blank) (hp : p.Denotable) :
    q.Denotable := by
  induction hp generalizing q with
  | ident n =>
    cases q with
    | ident => exact .ident _
    | _ => cases h
  | wildcard m =>
    cases q with
    | wildcard => exact .wildcard _
    | _ => cases h
  | literal l m =>
    cases q with
    | literal => exact .literal _ _
    | _ => cases h
  | @tuple ps m hlen _ ih =>
    cases q with
    | tuple qs m' =>
      have hitems : qs.map Pattern.blank = ps.map Pattern.blank := by
        have h := (Pattern.tuple.inj h).1
        rwa [mapTypesItems_eq, mapTypesItems_eq] at h
      have hlength := congrArg List.length hitems
      rw [List.length_map, List.length_map] at hlength
      refine .tuple _ (hlength ▸ hlen) fun q hq => ?_
      obtain ⟨p, hp, hpq⟩ := List.mem_map.mp (hitems ▸ List.mem_map_of_mem hq)
      exact ih p hp hpq.symm
    | _ => cases h

theorem Typed.widen {q : Pattern} (h : q.Typed) (hq : q.Denotable) :
    (q.mapTypes Ty.widen).Typed := by
  induction h with
  | ident n => exact .ident _
  | wildcard m => exact .wildcard _
  | literal h => exact .literal (by rw [Mark.typed_ty, h, Ty.widen_prim])
  | @tuple ps m _ h ih =>
    cases hq with
    | tuple _ hlen hps =>
      rw [Pattern.mapTypes, mapTypesItems_eq]
      refine .tuple (List.forall_mem_map.mpr fun p hp => ih p hp (hps p hp)) ?_
      rw [Mark.typed_ty, h, Ty.widen_tuple, Ty.row_of_two_le (by simpa using hlen), List.map_map,
        List.map_map]
      congr 1
      exact List.map_congr_left fun p _ => (mapTypes_ty _ p).symm

end Pattern

/-! ## Trees -/

namespace HasType

variable {e : Expr}

/-- What `HasType.widen` says of a tree. -/
def Widens (e : Expr) : Prop :=
  ∀ ⦃Γ : Context⦄ ⦃T : Ty⦄, HasType Γ e T → HasType Γ.widened e T.widen

theorem widen_all {es : List Expr} {ts : List Ty} (ih : ∀ e ∈ es, Widens e)
    (h : List.Forall₂ (HasType Γ) es ts) :
    List.Forall₂ (HasType Γ.widened) es (ts.map Ty.widen) := by
  induction h with
  | nil => exact .nil
  | cons he _ ihs => exact .cons (ih _ (by simp) he) (ihs fun e he => ih e (by simp [he]))

theorem widen_arm {a : Arm} {S R : Ty} (hp : a.pattern.Denotable) (ih : Widens a.body)
    (h : ArmHasType Γ S R a) : ArmHasType Γ.widened S.widen R.widen a := by
  obtain ⟨hnd, q, hbq, hq, rfl, hb⟩ := h
  have hin := ih hb
  have hextend := Context.widened_extend Γ [q]
  simp only [List.flatMap_singleton, List.map_singleton] at hextend
  rw [hextend] at hin
  exact ⟨hnd, q.mapTypes Ty.widen, (Pattern.mapTypes_mapTypes _ _ q).trans hbq,
    hq.widen (Pattern.denotable_of_blank hbq hp), Pattern.mapTypes_ty _ q, hin⟩

theorem widen_function {n : Option Name} {ps : List Pattern} {h : Option Hint} {b : Expr}
    (hps : ∀ p ∈ ps, p.Denotable) (hh : ∀ g ∈ h, g.Denotable) (ih : Widens b)
    (hf : FunctionHasType Γ n ps h b t) : FunctionHasType Γ.widened n ps h b t.widen := by
  obtain ⟨hnd, hann, qs, u, hbq, hq, rfl, hb⟩ := hf
  have hin := ih hb
  rw [insideFunction, Context.widened_extend, Context.widened_bindName] at hin
  refine ⟨hnd, hann.widen hh, qs.map (Pattern.mapTypes Ty.widen), u.widen, ?_, ?_, ?_, hin⟩
  · rw [← hbq, List.map_map]
    exact List.map_congr_left fun q _ => Pattern.mapTypes_mapTypes _ _ q
  · refine List.forall_mem_map.mpr fun q hmem => (hq q hmem).widen ?_
    obtain ⟨p, hp, hpq⟩ := List.mem_map.mp (hbq ▸ List.mem_map_of_mem hmem)
    exact Pattern.denotable_of_blank hpq.symm (hps p hp)
  · rw [Ty.widen_curried, List.map_map, List.map_map]
    congr 1
    exact List.map_congr_left fun q _ => (Pattern.mapTypes_ty _ q).symm

/-- In a tree with wide tuples all types may have wide tuples. -/
theorem widen (hw : e.Wide) (h : HasType Γ e T) : HasType Γ.widened e T.widen := by
  suffices Widens e from this h
  clear h
  induction hw with
  | const l m =>
    intro Γ T h
    rw [HasType.const] at h ⊢
    rw [h, Ty.widen_prim]
  | ident n =>
    intro Γ T h
    obtain ⟨s, hs, hi⟩ := HasType.ident.mp h
    exact HasType.ident.mpr ⟨s.widen, by rw [Context.get?_widened, hs]; rfl, hi.widen⟩
  | tuple m hlen _ ih =>
    intro Γ T h
    obtain ⟨ts, hes, rfl⟩ := HasType.tuple.mp h
    refine HasType.tuple.mpr ⟨_, widen_all ih hes, ?_⟩
    rw [Ty.widen_tuple, Ty.row_of_two_le]
    rwa [List.length_map, ← hes.length_eq]
  | unary op m _ ih =>
    intro Γ T h
    obtain ⟨S, hS, hop⟩ := HasType.unary.mp h
    exact HasType.unary.mpr ⟨_, ih hS, hop.widen⟩
  | binary op m _ _ hl hr =>
    intro Γ T h
    obtain ⟨S, U, hS, hU, hop⟩ := HasType.binary.mp h
    exact HasType.binary.mpr ⟨_, _, hl hS, hr hU, hop.widen⟩
  | app m _ _ hf ih =>
    intro Γ T h
    obtain ⟨ts, hty, hes, hnil⟩ := HasType.app.mp h
    refine HasType.app.mpr ⟨_, ?_, widen_all ih hes, hnil⟩
    rw [← Ty.widen_curried]
    exact hf hty
  | cond m _ _ _ ht hy hn =>
    intro Γ T h
    obtain ⟨hbool, hyes, hno, hunit⟩ := HasType.cond.mp h
    refine HasType.cond.mpr ⟨ht hbool, hy hyes, fun e he => hn e he (hno e he), fun h => ?_⟩
    rw [hunit h, Ty.widen_prim]
  | cases m _ hps _ he has =>
    intro Γ T h
    obtain ⟨S, hS, harms⟩ := HasType.cases.mp h
    exact HasType.cases.mpr ⟨_, he hS, fun a ha => widen_arm (hps a ha) (has a ha) (harms a ha)⟩
  | @bind n k v b m hk _ _ hv hb =>
    intro Γ T h
    cases b with
    | none =>
      obtain ⟨hT, hann⟩ := HasType.declare.mp h
      exact HasType.declare.mpr ⟨hv hT, hann.widen hk⟩
    | some b =>
      obtain ⟨S, s, hS, hann, hgen, hT⟩ := HasType.bind.mp h
      have hbody := hb b rfl hT
      rw [Context.widened, FinMap.mapValues_insert] at hbody
      exact HasType.bind.mpr ⟨_, _, hv hS, hann.widen hk, hgen.widen, hbody⟩
  | @lam n ps k b r m hps hk _ _ hb hr =>
    intro Γ T h
    cases r with
    | none => exact HasType.lam.mpr (widen_function hps hk hb (HasType.lam.mp h))
    | some r =>
      obtain ⟨t, s, hf, hgen, hT⟩ := HasType.bindFun.mp h
      have hrest := hr r rfl hT
      rw [Context.widened_bindName] at hrest
      exact HasType.bindFun.mpr ⟨_, _, widen_function hps hk hb hf, hgen.widen, hrest⟩

end HasType
end MiniML
