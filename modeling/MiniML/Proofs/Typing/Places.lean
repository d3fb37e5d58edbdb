import MiniML.Proofs.Grammar.Print
import MiniML.Proofs.Typing.HasType

/-!
# Types do not depend on places

Where the parts of a tree stand, and what its slots hold, makes no difference to
its types: trees that are the same apart from their marks have the same types in
every context.

Results:
* `HasType.of_bare`: the types of a tree are those of every tree that differs from
  it in its marks only.
-/
namespace MiniML

variable {Γ : Context} {T : Ty}

/-! ## Trees apart from their marks -/

namespace Pattern

theorem mapMarksItems_eq (f : Mark → Mark) (ps : List Pattern) :
    mapMarksItems f ps = ps.map (mapMarks f) := by
  induction ps <;> simp_all [mapMarksItems]

theorem names_of_bare {p q : Pattern} (h : p.bare = q.bare) : p.names = q.names := by
  have hnames (p : Pattern) : p.bare.names = p.names := by
    induction p with
    | ident n => rfl
    | wildcard m => rfl
    | literal l m => rfl
    | tuple ps m ih =>
      simp only [bare, mapMarks, names, mapMarksItems_eq, namesOfItems_eq, List.flatMap_map]
      exact List.flatMap_congr ih
  rw [← hnames p, ← hnames q, h]

theorem flatMap_names_of_bare {ps qs : List Pattern} (h : ps.map bare = qs.map bare) :
    ps.flatMap names = qs.flatMap names := by
  induction ps generalizing qs with
  | nil => rw [List.map_eq_nil_iff.mp h.symm]
  | cons p ps ih =>
    obtain ⟨q, qs, rfl, hq, hqs⟩ := List.map_eq_cons_iff.mp h.symm
    rw [List.flatMap_cons, List.flatMap_cons, names_of_bare hq.symm, ih hqs.symm]

/-- A typed pattern of `p` has a counterpart at the places of `p'`. -/
def Moves (p : Pattern) : Prop := ∀ ⦃p' q : Pattern⦄, p.bare = p'.bare → q.blank = p.blank →
  q.Typed → ∃ q' : Pattern, q'.blank = p'.blank ∧ q'.Typed ∧ q'.ty = q.ty ∧
    q'.bindings = q.bindings

theorem moves_items {ps ps' qs : List Pattern} (ih : ∀ p ∈ ps, Moves p)
    (h : ps.map bare = ps'.map bare) (hb : qs.map blank = ps.map blank)
    (hq : ∀ q ∈ qs, q.Typed) :
    ∃ qs' : List Pattern, qs'.map blank = ps'.map blank ∧ (∀ q ∈ qs', q.Typed) ∧
      qs'.map Pattern.ty = qs.map Pattern.ty ∧ qs'.flatMap bindings = qs.flatMap bindings := by
  induction ps generalizing ps' qs with
  | nil =>
    obtain rfl := List.map_eq_nil_iff.mp h.symm
    obtain rfl := List.map_eq_nil_iff.mp hb
    exact ⟨[], rfl, nofun, rfl, rfl⟩
  | cons p ps ihs =>
    obtain ⟨p', ps', rfl, hp, hps⟩ := List.map_eq_cons_iff.mp h.symm
    obtain ⟨q, qs, rfl, hbq, hbs⟩ := List.map_eq_cons_iff.mp hb
    obtain ⟨htq, hqs⟩ := List.forall_mem_cons.mp hq
    obtain ⟨q', hb', ht', hty, hbind⟩ := ih p List.mem_cons_self hp.symm hbq htq
    obtain ⟨qs', hbs', hts', htys, hbinds⟩ :=
      ihs (fun p hp => ih p (List.mem_cons_of_mem _ hp)) hps.symm hbs hqs
    refine ⟨q' :: qs', congrArg₂ List.cons hb' hbs', List.forall_mem_cons.mpr ⟨ht', hts'⟩,
      congrArg₂ List.cons hty htys, ?_⟩
    rw [List.flatMap_cons, List.flatMap_cons, hbind, hbinds]

theorem moves (p : Pattern) : Moves p := by
  induction p with
  | ident n =>
    intro p' q h hb hq
    cases p' with
    | ident n' =>
      cases q with
      | ident k =>
        have hn : n.text = n'.text := by simpa [bare, mapMarks] using h
        have hk : k.text = n.text := (Name.mk.inj (Pattern.ident.inj hb)).1
        refine ⟨.ident (n'.typed k.mark.ty), rfl, .ident _, rfl, ?_⟩
        simp only [bindings, Name.typed_text, Name.typed_ty, hk, hn]
      | _ => cases hb
    | _ => cases h
  | wildcard m =>
    intro p' q h hb hq
    cases p' with
    | wildcard m' =>
      cases q with
      | wildcard k => exact ⟨.wildcard (m'.typed k.ty), rfl, .wildcard _, rfl, rfl⟩
      | _ => cases hb
    | _ => cases h
  | literal l m =>
    intro p' q h hb hq
    cases p' with
    | literal l' m' =>
      cases hq with
      | @literal l₁ k hk =>
        obtain ⟨rfl, -⟩ := Pattern.literal.inj h
        obtain ⟨rfl, -⟩ := Pattern.literal.inj hb
        exact ⟨.literal l₁ (m'.typed k.ty), rfl, .literal hk, rfl, rfl⟩
      | _ => cases hb
    | _ => cases h
  | tuple ps m ih =>
    intro p' q h hb hq
    cases p' with
    | tuple ps' m' =>
      cases hq with
      | @tuple qs k hqs hk =>
        have hps := (Pattern.tuple.inj h).1
        have hbs := (Pattern.tuple.inj hb).1
        rw [mapMarksItems_eq, mapMarksItems_eq] at hps
        rw [mapTypesItems_eq, mapTypesItems_eq] at hbs
        obtain ⟨qs', hbs', hts, htys, hbinds⟩ := moves_items ih hps hbs hqs
        refine ⟨.tuple qs' (m'.typed k.ty), ?_, .tuple hts ?_, rfl, ?_⟩
        · show Pattern.tuple (mapTypesItems _ qs') _ = Pattern.tuple (mapTypesItems _ ps') _
          rw [mapTypesItems_eq, mapTypesItems_eq]
          exact congrArg (Pattern.tuple · _) hbs'
        · rw [Mark.typed_ty, hk, htys]
        · simp only [bindings, bindingsOfItems_eq, hbinds]
      | _ => cases hb
    | _ => cases h

end Pattern

namespace Expr

theorem mapMarksAll_eq (f : Mark → Mark) (es : List Expr) :
    mapMarksAll f es = es.map (mapMarks f) := by
  induction es <;> simp_all [mapMarksAll]

theorem neverFunction_of_bare {d e : Expr} (h : d.bare = e.bare) :
    Infer.neverFunction d = Infer.neverFunction e := by
  have hmap (e : Expr) : Infer.neverFunction e.bare = Infer.neverFunction e := by cases e <;> rfl
  rw [← hmap d, ← hmap e, h]

end Expr

/-! ## Types -/

namespace HasType

variable {e e' : Expr}

/-- What `HasType.of_bare` says of a tree. -/
def Moves (e : Expr) : Prop := ∀ ⦃Γ : Context⦄ ⦃T : Ty⦄ ⦃e' : Expr⦄, e.bare = e'.bare →
  HasType Γ e T → HasType Γ e' T

theorem moves_all {es es' : List Expr} {ts : List Ty} (ih : ∀ e ∈ es, Moves e)
    (hb : Expr.mapMarksAll (fun _ => {}) es = Expr.mapMarksAll (fun _ => {}) es')
    (h : List.Forall₂ (HasType Γ) es ts) : List.Forall₂ (HasType Γ) es' ts := by
  rw [Expr.mapMarksAll_eq, Expr.mapMarksAll_eq] at hb
  induction h generalizing es' with
  | nil =>
    obtain rfl := List.map_eq_nil_iff.mp hb.symm
    exact .nil
  | cons he _ ihs =>
    obtain ⟨e', es', rfl, hbe, hbs⟩ := List.map_eq_cons_iff.mp hb.symm
    exact .cons (ih _ (by simp) hbe.symm he) (ihs (fun e he => ih e (by simp [he])) hbs.symm)

theorem moves_option {o o' : Option Expr} (ih : ∀ e ∈ o, Moves e)
    (hb : Expr.mapMarksOption (fun _ => {}) o = Expr.mapMarksOption (fun _ => {}) o')
    (h : ∀ e ∈ o, HasType Γ e T) : ∀ e ∈ o', HasType Γ e T := by
  cases o with
  | none =>
    cases o' with
    | none => exact nofun
    | some e' => cases hb
  | some e =>
    cases o' with
    | none => cases hb
    | some e' =>
      rintro _ ⟨⟩
      exact ih e rfl (Option.some.inj hb) (h e rfl)

theorem moves_arm {a a' : Arm} {S R : Ty} (ih : Moves a.body)
    (hb : a.mapMarks (fun _ => {}) = a'.mapMarks fun _ => {}) (h : ArmHasType Γ S R a) :
    ArmHasType Γ S R a' := by
  obtain ⟨hp, hbody, -⟩ := Arm.mk.inj hb
  obtain ⟨hnd, q, hbq, hq, rfl, ht⟩ := h
  obtain ⟨q', hb', hq', hty, hbind⟩ := a.pattern.moves hp hbq hq
  refine ⟨Pattern.names_of_bare hp ▸ hnd, q', hb', hq', hty, ?_⟩
  rw [hbind]
  exact ih hbody ht

theorem moves_function {n n' : Option Name} {ps ps' : List Pattern} {h : Option Hint}
    {b b' : Expr} (ih : Moves b) (hn : n.map Name.text = n'.map Name.text)
    (hps : Pattern.mapMarksItems (fun _ => {}) ps = Pattern.mapMarksItems (fun _ => {}) ps')
    (hb : b.bare = b'.bare) (hf : FunctionHasType Γ n ps h b T) :
    FunctionHasType Γ n' ps' h b' T := by
  rw [Pattern.mapMarksItems_eq, Pattern.mapMarksItems_eq] at hps
  obtain ⟨hnd, hann, qs, u, hbq, hq, rfl, ht⟩ := hf
  obtain ⟨qs', hb', hq', htys, hbinds⟩ := Pattern.moves_items (fun p _ => p.moves) hps hbq hq
  refine ⟨Pattern.flatMap_names_of_bare hps ▸ hnd, hann, qs', u, hb', hq', by rw [htys], ?_⟩
  rw [insideFunction, hbinds, ← Infer.bindName_congr hn]
  exact ih hb ht

/-- Trees that differ in their marks only have the same types. -/
theorem of_bare (hb : e.bare = e'.bare) (h : HasType Γ e T) : HasType Γ e' T := by
  suffices Moves e from this hb h
  clear hb h
  induction e with
  | const l m =>
    intro Γ T e' hb h
    cases e' with
    | const l' m' =>
      obtain ⟨rfl, -⟩ := Expr.const.inj hb
      exact HasType.const.mpr (HasType.const.mp h)
    | _ => cases hb
  | ident n =>
    intro Γ T e' hb h
    cases e' with
    | ident n' =>
      have hn : n.text = n'.text := by simpa [Expr.bare, Expr.mapMarks] using hb
      exact HasType.ident.mpr (hn ▸ HasType.ident.mp h)
    | _ => cases hb
  | tuple es m ih =>
    intro Γ T e' hb h
    cases e' with
    | tuple es' m' =>
      obtain ⟨ts, hes, rfl⟩ := HasType.tuple.mp h
      exact HasType.tuple.mpr ⟨ts, moves_all ih (Expr.tuple.inj hb).1 hes, rfl⟩
    | _ => cases hb
  | unary op e m ih =>
    intro Γ T e' hb h
    cases e' with
    | unary op' e' m' =>
      obtain ⟨rfl, hbe, -⟩ := Expr.unary.inj hb
      obtain ⟨S, hS, hop⟩ := HasType.unary.mp h
      exact HasType.unary.mpr ⟨S, ih hbe hS, hop⟩
    | _ => cases hb
  | binary op l r m hl hr =>
    intro Γ T e' hb h
    cases e' with
    | binary op' l' r' m' =>
      obtain ⟨rfl, hbl, hbr, -⟩ := Expr.binary.inj hb
      obtain ⟨S, U, hS, hU, hop⟩ := HasType.binary.mp h
      exact HasType.binary.mpr ⟨S, U, hl hbl hS, hr hbr hU, hop⟩
    | _ => cases hb
  | app f es m hf ih =>
    intro Γ T e' hb h
    cases e' with
    | app f' es' m' =>
      obtain ⟨hbf, hbs, -⟩ := Expr.app.inj hb
      obtain ⟨ts, hty, hes, hnil⟩ := HasType.app.mp h
      refine HasType.app.mpr ⟨ts, hf hbf hty, moves_all ih hbs hes, fun h => ?_⟩
      rw [← Expr.neverFunction_of_bare hbf]
      refine hnil ?_
      subst h
      cases es with
      | nil => rfl
      | cons e es => cases hbs
    | _ => cases hb
  | cond t y n m ht hy hn =>
    intro Γ T e' hb h
    cases e' with
    | cond t' y' n' m' =>
      obtain ⟨hbt, hby, hbn, -⟩ := Expr.cond.inj hb
      obtain ⟨hbool, hyes, hno, hunit⟩ := HasType.cond.mp h
      refine HasType.cond.mpr ⟨ht hbt hbool, hy hby hyes, moves_option hn hbn hno, fun h => ?_⟩
      refine hunit ?_
      subst h
      cases n with
      | none => rfl
      | some e => cases hbn
    | _ => cases hb
  | cases e as m he has =>
    intro Γ T e' hb h
    cases e' with
    | cases e' as' m' =>
      obtain ⟨hbe, hbs, -⟩ := Expr.cases.inj hb
      rw [Expr.mapMarksArms_eq, Expr.mapMarksArms_eq] at hbs
      obtain ⟨S, hS, harms⟩ := HasType.cases.mp h
      refine HasType.cases.mpr ⟨S, he hbe hS, fun a' ha' => ?_⟩
      obtain ⟨a, ha, hba⟩ := List.mem_map.mp (hbs ▸ List.mem_map_of_mem ha')
      exact moves_arm (has a ha) hba (harms a ha)
    | _ => cases hb
  | bind n k v b m hv hbody =>
    intro Γ T e' hb h
    cases e' with
    | bind n' k' v' b' m' =>
      obtain ⟨hn, rfl, hbv, hbb, -⟩ := Expr.bind.inj hb
      have hn : n.text = n'.text := (Name.mk.inj hn).1
      cases b with
      | none =>
        cases b' with
        | none =>
          obtain ⟨hT, hann⟩ := HasType.declare.mp h
          exact HasType.declare.mpr ⟨hv hbv hT, hann⟩
        | some b' => cases hbb
      | some b =>
        cases b' with
        | none => cases hbb
        | some b' =>
          obtain ⟨S, s, hS, hann, hgen, hT⟩ := HasType.bind.mp h
          exact HasType.bind.mpr
            ⟨S, s, hv hbv hS, hann, hgen, hn ▸ hbody b rfl (Option.some.inj hbb) hT⟩
    | _ => cases hb
  | lam n ps k b r m hbody hr =>
    intro Γ T e' hb h
    cases e' with
    | lam n' ps' k' b' r' m' =>
      obtain ⟨hn, hps, rfl, hbb, hbr, -⟩ := Expr.lam.inj hb
      have hn : n.map Name.text = n'.map Name.text := by
        simpa [Function.comp_def] using congrArg (Option.map Name.text) hn
      cases r with
      | none =>
        cases r' with
        | none => exact HasType.lam.mpr (moves_function hbody hn hps hbb (HasType.lam.mp h))
        | some r' => cases hbr
      | some r =>
        cases r' with
        | none => cases hbr
        | some r' =>
          obtain ⟨t, s, hf, hgen, hT⟩ := HasType.bindFun.mp h
          refine HasType.bindFun.mpr ⟨t, s, moves_function hbody hn hps hbb hf, hgen, ?_⟩
          rw [← Infer.bindName_congr hn]
          exact hr r rfl (Option.some.inj hbr) hT
    | _ => cases hb

end HasType
end MiniML
