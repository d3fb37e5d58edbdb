import MiniML.Proofs.Typing.Supply

/-!
# The tree that comes back

Inference returns the tree that it was given, with other slots
(`expr_blank`), with errors or without.
-/
namespace MiniML.Infer

variable {Γ : Context} {c c' : Checker}

/-- Every run on `e` returns `e` with other slots. -/
def KeepsShape (e : Expr) : Prop :=
  ∀ {Γ : Context} {c : Checker} {e' : Expr} {c' : Checker},
    Runs (expr Γ e) c e' c' → e'.blank = e.blank

theorem exprs_blank {es es' : List Expr} (h : ∀ e ∈ es, KeepsShape e)
    (hrun : Runs (exprs Γ es) c es' c') : es'.map Expr.blank = es.map Expr.blank := by
  induction es generalizing c es' with
  | nil =>
    obtain ⟨rfl, rfl⟩ := runs_pure.mp hrun
    rfl
  | cons e es ih =>
    obtain ⟨a, c₁, as, ha, has, rfl⟩ := runs_exprs_cons hrun
    rw [List.map_cons, List.map_cons, h e (by simp) ha, ih (fun d hd => h d (by simp [hd])) has]

theorem optional_blank {o o' : Option Expr} (h : ∀ e ∈ o, KeepsShape e)
    (hrun : Runs (optional Γ o) c o' c') : o'.map Expr.blank = o.map Expr.blank := by
  cases o with
  | none =>
    obtain ⟨rfl, rfl⟩ := runs_pure.mp hrun
    rfl
  | some e =>
    obtain ⟨a, ha, rfl⟩ := runs_optional_some hrun
    rw [Option.map_some, Option.map_some, h e rfl ha]

theorem arms_blank {as as' : List Arm} {s r : Ty} {reachable : Bool}
    (h : ∀ a ∈ as, KeepsShape a.body) (hrun : Runs (arms Γ s r reachable as) c as' c') :
    as'.map (Arm.mapTypes fun _ => .error) = as.map (Arm.mapTypes fun _ => .error) := by
  induction as generalizing c as' reachable with
  | nil =>
    obtain ⟨rfl, rfl⟩ := runs_pure.mp hrun
    rfl
  | cons a as ih =>
    obtain ⟨p, e, span⟩ := a
    obtain ⟨ds, c₁, p', bs, c₂, ok, c₃, b, c₄, ok', c₅, rest, -, -, hp, -, hb, -, hrest, rfl⟩ :=
      runs_arms_cons hrun
    have hpat : p'.blank = p.blank := (runs_pattern hp).blank
    have hbody : b.blank = e.blank := h (.mk p e span) (by simp) hb
    rw [List.map_cons, List.map_cons, ih (fun a ha => h a (by simp [ha])) hrest]
    exact congrArg (· :: _) (congrArg₂ (Arm.mk · · span) hpat hbody)

theorem lamHead_blank {n : Option Name} {ps ps' : List Pattern} {h : Option Hint} {b b' : Expr}
    {span : Span} (hb : KeepsShape b) (hrun : LamHead Γ n ps h b span c ps' b' c') :
    ps'.map Pattern.blank = ps.map Pattern.blank ∧ b'.blank = b.blank := by
  obtain ⟨c₁, bs, c₂, c₃, ok, c₄, -, -, hp, hrun, -, -⟩ := hrun
  exact ⟨(runs_patterns (fun p _ => runs_pattern) hp).blank, hb hrun⟩

/-- What comes back is what was given, but for the slots. -/
theorem expr_blank (e : Expr) : KeepsShape e := by
  induction e with
  | const l m =>
    intro Γ c e' c' hrun
    obtain ⟨rfl, rfl⟩ := runs_const hrun
    rfl
  | ident n =>
    intro Γ c e' c' hrun
    obtain ⟨t, rfl, -⟩ := runs_ident hrun
    rfl
  | tuple es m ih =>
    intro Γ c e' c' hrun
    obtain ⟨es', hes, rfl⟩ := runs_tuple hrun
    simp only [Expr.blank, Expr.mapTypes, Expr.mapTypesAll_eq]
    exact congrArg (Expr.tuple · _) (exprs_blank ih hes)
  | unary op e m ih =>
    intro Γ c e' c' hrun
    obtain ⟨a, c₁, x, d, t, ha, -, -, rfl⟩ := runs_unary hrun
    exact congrArg (Expr.unary op · _) (ih ha)
  | binary op l r m hl hr =>
    intro Γ c e' c' hrun
    obtain ⟨a, c₁, b, c₂, x, d, t, ha, hb, -, -, rfl⟩ := runs_binary hrun
    exact congrArg₂ (Expr.binary op · · _) (hl ha) (hr hb)
  | app f es m hf ih =>
    intro Γ c e' c' hrun
    obtain ⟨a, c₁, es', c₂, t, ha, hes, rfl, -⟩ := runs_app hrun
    simp only [Expr.blank, Expr.mapTypes, Expr.mapTypesAll_eq]
    exact congrArg₂ (Expr.app · · _) (hf ha) (exprs_blank ih hes)
  | cond e y n m he hy hn =>
    intro Γ c e' c' hrun
    obtain ⟨a, c₁, ok, c₂, b, c₃, n', c₄, ok', ha, -, hb, hn', -, rfl⟩ := runs_cond hrun
    have hn : n'.map (Expr.mapTypes fun _ => .error) = n.map (Expr.mapTypes fun _ => .error) :=
      optional_blank hn hn'
    simp only [Expr.blank, Expr.mapTypes, Expr.mapTypesOption_eq, hn]
    exact congrArg₂ (Expr.cond · · _ _) (he ha) (hy hb)
  | cases e as m he has =>
    intro Γ c e' c' hrun
    obtain ⟨a, c₁, as', ha, -, has', rfl⟩ := runs_cases hrun
    simp only [Expr.blank, Expr.mapTypes, Expr.mapTypesArms_eq]
    exact congrArg₂ (Expr.cases · · _) (he ha) (arms_blank has has')
  | bind n h v b m hv hb =>
    intro Γ c e' c' hrun
    cases b with
    | none =>
      obtain ⟨v', ⟨c₁, hv', -⟩, rfl⟩ := runs_declare hrun
      exact congrArg (Expr.bind _ h · none _) (hv hv')
    | some b =>
      obtain ⟨v', c₁, s, b', ⟨c₂, hv', -⟩, -, hb', rfl⟩ := runs_let hrun
      exact congrArg₂ (fun v b => Expr.bind _ h v (some b) _) (hv hv') (hb b rfl hb')
  | lam n ps h b r m hb hr =>
    intro Γ c e' c' hrun
    have hname : ∀ t, (n.map (Name.typed · t)).map (fun n => n.typed .error) =
        n.map fun n => n.typed .error := fun t => by cases n <;> rfl
    cases r with
    | none =>
      obtain ⟨ps', b', t, hhead, rfl, rfl⟩ := runs_lam hrun
      obtain ⟨hps, hb⟩ := lamHead_blank hb hhead
      simp only [Expr.blank, Expr.mapTypes, Pattern.mapTypesItems_eq, hname]
      exact congrArg₂ (Expr.lam _ · h · none _) hps hb
    | some r =>
      obtain ⟨ps', b', t, c₁, s, r', hhead, rfl, -, hr', rfl⟩ := runs_fun hrun
      obtain ⟨hps, hb⟩ := lamHead_blank hb hhead
      have hr := hr r rfl hr'
      simp only [Expr.blank] at hr
      simp only [Expr.blank, Expr.mapTypes, Expr.mapTypesOption, Pattern.mapTypesItems_eq, hname,
        hr]
      exact congrArg₂ (Expr.lam _ · h · _ _) hps hb

end MiniML.Infer
