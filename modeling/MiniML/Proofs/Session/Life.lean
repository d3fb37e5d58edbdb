import MiniML.Proofs.Session.Batch

/-!
# The numbers of a checker

A checker may live long: it checks declarations that pass and that fail, for
a session that drops what a failed input has bound and that is reset at times.
Type variables are told apart by their numbers alone, so a number that is
drawn twice, or that stays free in the context, would tie together the types
of declarations that have nothing to do with each other.

`Life table config vs ds w` says that a checker over `table` has come to `w`,
that `fresh` has returned `vs` in the course of it, and that the declarations
that were checked came back as `ds`. In every such state the context is closed,
all numbers around are below the supply, and what is drawn next is new
(`Life.numbered`).
-/
namespace MiniML

/-! ## What one step keeps -/

/-- The variables of a type were drawn before `n`. -/
def Ty.Below (n : TyVar) (t : Ty) : Prop := ∀ v ∈ t.leaves, v < n

/-- What the numbers in a workspace obey. -/
structure Workspace.Numbered (table : Context) (w : Workspace) : Prop where
  table : w.checker.builtins = table
  closed : w.context.Closed
  context : w.context.All fun s => ∀ v ∈ s.mentioned, v < w.checker.next
  subst : ∀ v t, w.checker.subst.get? v = some t → v < w.checker.next ∧ t.Below w.checker.next

variable {table : Context} {config : Config} {w w' : Workspace}

theorem Ty.Below.mono {n m : TyVar} {t : Ty} (h : t.Below n) (hnm : n ≤ m) : t.Below m :=
  fun v hv => Nat.lt_of_lt_of_le (h v hv) hnm

/-- All the bindings of a checker are between variables that it has drawn. -/
theorem Checker.Sane.below_next {c : Checker} (hs : c.Sane) {v : TyVar} {t : Ty}
    (h : c.subst.get? v = some t) : v < c.next ∧ t.Below c.next := by
  refine ⟨Nat.lt_of_not_le fun hle => ?_, hs.below v t h⟩
  rw [hs.unused v hle] at h
  cases h

/-- What inference knows and writes is over what it has drawn. -/
theorem Infer.declaration_below {Γ : Context} {c c' : Checker} {d d' : Expr} {passed : Bool}
    (htable : c.builtins.Closed) (hΓ : Γ.Closed)
    (h : Runs (Infer.declaration Γ d) c (passed, d') c') :
    c'.Sane ∧ d'.All (Ty.Below c'.next) := by
  obtain ⟨e, he, -, rfl⟩ := runs_declaration h
  obtain ⟨r, hall⟩ := expr_reach d (.start htable hΓ) he
  refine ⟨r.sane, fun t ht => ?_⟩
  rw [Expr.mapTypes_slots, List.mem_map] at ht
  obtain ⟨u, hu, rfl⟩ := ht
  exact fun v hv => (hall u hu v hv).2

namespace Workspace.Numbered

/-- A declaration keeps the numbers in order, whether it passes or fails. -/
theorem declaration {d d' : Expr} {passed : Bool} (hw : w.Numbered table) (htable : table.Closed)
    (h : Runs (Check.declaration d) w (passed, d') w') :
    w'.Numbered table ∧ d'.All (Ty.Below w'.checker.next) := by
  have hframe := Check.frame_declaration h
  have hclosed := Check.closed_declaration hw.closed h
  obtain ⟨c, ds, hinfer, -, hchecker, hplain, hnamed⟩ := Check.runs_declaration h
  obtain ⟨hsane, hall⟩ := Infer.declaration_below (hw.table ▸ htable) hw.closed hinfer
  have hold : w.context.All fun s => ∀ v ∈ s.mentioned, v < w'.checker.next :=
    fun x s hx v hv => Nat.lt_of_lt_of_le (hw.context x s hx v hv) hframe.next_le
  have hcontext : w'.context.All fun s => ∀ v ∈ s.mentioned, v < w'.checker.next := by
    cases hd : d'.declared? with
    | none => exact hplain hd ▸ hold
    | some n =>
      obtain ⟨s, hctx, hpass, hfail⟩ := hnamed n hd
      refine hctx ▸ hold.insert fun v hv => ?_
      cases passed with
      | true =>
        -- what is quantified is in the body, and that is the type of the tree
        have hvars := Infer.mem_vars_generalize hw.closed (hpass rfl) v
        obtain ⟨-, hbody, -⟩ := Infer.runs_generalize (hpass rfl)
        have hv : v ∈ (c.subst.apply d'.ty).leaves := by
          rw [← hbody]
          exact (List.mem_append.mp hv).elim hvars.mp id
        obtain ⟨u, hu, hv⟩ := (Subst.mem_leaves_apply hsane.idem).mp hv
        rw [hchecker]
        exact hsane.lt_of_mem (hall.ty u hu) hv
      | false =>
        rw [hfail rfl] at hv
        simp [Scheme.mentioned, Scheme.mono] at hv
  refine ⟨⟨hframe.builtins.trans hw.table, hclosed, hcontext, fun v t hv => ?_⟩, ?_⟩
  · rw [hchecker] at hv ⊢
    exact hsane.below_next hv
  · rw [hchecker]
    exact hall

/-- A program keeps them in order, and so does each of its declarations. -/
theorem program {ds ds' : Program} {passed : Bool} (hw : w.Numbered table) (htable : table.Closed)
    (h : Runs (Check.program ds) w (passed, ds') w') :
    w'.Numbered table ∧ ∀ d ∈ ds', d.All (Ty.Below w'.checker.next) := by
  induction ds generalizing w passed ds' with
  | nil =>
    obtain ⟨heq, rfl⟩ := runs_pure.mp h
    obtain ⟨-, rfl⟩ := Prod.mk.inj heq
    exact ⟨hw, by simp⟩
  | cons d ds ih =>
    obtain ⟨_, d', v, _, ds', hd, hds, heq⟩ := Check.runs_program_cons.mp h
    obtain ⟨-, rfl⟩ := Prod.mk.inj heq
    obtain ⟨hv, hd'⟩ := hw.declaration htable hd
    obtain ⟨hw', hds'⟩ := ih hv hds
    exact ⟨hw', List.forall_mem_cons.mpr
      ⟨fun t ht => (hd' t ht).mono (Check.frame_program hds).next_le, hds'⟩⟩

/-- The state between two inputs: the diagnostics were handed over, and the
context is that of the input or the one before it. -/
theorem settle {v : Workspace} (hw : w.Numbered table) (hv : v.Numbered table)
    (hle : w.checker.next ≤ v.checker.next) (passed : Bool) :
    Numbered table
      ⟨{ v.checker with diagnostics := [] }, if passed then v.context else w.context⟩ := by
  cases passed with
  | true => exact ⟨hv.table, hv.closed, hv.context, hv.subst⟩
  | false =>
    exact ⟨hv.table, hw.closed, fun x s hx u hu => Nat.lt_of_lt_of_le (hw.context x s hx u hu) hle,
      hv.subst⟩

end Workspace.Numbered

/-! ## Starting -/

/-- A checker starts above its table. -/
theorem Context.nextUnused_lt {n : TyVar} (h : table.nextUnused = .ok n) :
    table.All fun s => ∀ v ∈ s.mentioned, v < n := by
  intro x s hx v hv
  have hmem : v ∈ table.values.flatMap Scheme.mentioned :=
    List.mem_flatMap.mpr ⟨s, FinMap.mem_values.mpr ⟨x, hx⟩, hv⟩
  unfold nextUnused at h
  cases hmax : (table.values.flatMap Scheme.mentioned).max? with
  | none =>
    rw [List.max?_eq_none_iff] at hmax
    rw [hmax] at hmem
    cases hmem
  | some m =>
    simp only [hmax, succVar] at h
    split at h
    · cases h
      exact Nat.lt_succ_of_le ((List.max?_eq_some_iff.mp hmax).2 v hmem)
    · cases h

theorem Workspace.Numbered.ofTable {c : Checker} (htable : table.Closed)
    (h : Checker.ofTable table config = .ok c) : Numbered table ⟨c, table⟩ := by
  unfold Checker.ofTable at h
  cases hn : table.nextUnused with
  | error e =>
    rw [hn] at h
    cases h
  | ok n =>
    rw [hn] at h
    cases h
    exact ⟨rfl, htable, Context.nextUnused_lt hn, fun v t hv => by simp at hv⟩

/-- The checker over the builtin names is the one that starts above them. -/
theorem Checker.ofTable_builtins (config : Config) :
    Checker.ofTable Builtins.context config = .ok (.root config) := by
  have h : Context.nextUnused Builtins.context = .ok 1 := by decide
  rw [Checker.ofTable, h]
  rfl

/-! ## The life of a checker -/

namespace Check

theorem stops_get : Stops get where
  spent h := by cases h
  draws w := ⟨[], .get w⟩

end Check

theorem Session.stops_declarations (ds : Program) : Check.Stops (declarations ds) := by
  induction ds with
  | nil => exact .pure _
  | cons d ds ih =>
    exact .bind (Check.stops_declaration d) fun _ => .bind Check.stops_get fun _ =>
      .bind ih fun _ => .pure _

/-- A checker over `table` has come to `w`; on its way `fresh` has returned
`vs`, in that order, and the declarations that were checked came back as `ds`. -/
inductive Life (table : Context) (config : Config) :
    List TyVar → Program → Workspace → Prop
  | start {c : Checker} : Checker.ofTable table config = .ok c → Life table config [] [] ⟨c, table⟩
  /-- A session starts over the builtin names. -/
  | session : table = Builtins.context → config = {} → Life table config [] [] Session.new
  /-- A declaration is checked, and passes or fails. -/
  | declare {vs ws : List TyVar} {ds : Program} {w w' : Workspace} {d d' : Expr} {passed : Bool} :
      Life table config vs ds w → Check.Draws (Check.declaration d) w ws →
      Runs (Check.declaration d) w (passed, d') w' →
      Life table config (vs ++ ws) (ds ++ [d']) w'
  /-- A session evaluates an input that cannot be read. -/
  | misread {vs : List TyVar} {ds : Program} {w w' : Workspace} {input : String} {e : Evaluation} :
      Life table config vs ds w → (readSource input).2 ≠ [] → Runs (Session.eval input) w e w' →
      Life table config vs ds w'
  /-- A session evaluates an input that can be read: it checks its
  declarations, and keeps what they bind if all of them pass. -/
  | eval {vs ws : List TyVar} {ds ds' : Program} {w v w' : Workspace} {input : String}
      {e : Evaluation} {passed : Bool} :
      Life table config vs ds w → (readSource input).2 = [] →
      Check.Draws (Session.declarations (readSource input).1) w ws →
      Runs (Check.program (readSource input).1) w (passed, ds') v →
      Runs (Session.eval input) w e w' →
      Life table config (vs ++ ws) (ds ++ ds') w'
  /-- A session forgets its bindings. -/
  | reset {vs : List TyVar} {ds : Program} {w : Workspace} :
      Life table config vs ds w → Life table config vs ds (Session.reset w)

namespace Life

variable {vs : List TyVar} {ds : Program}

/-- What holds all along: the numbers are in order, and those that were drawn
are the ones from the end of the table up to the supply. -/
theorem inOrder (htable : table.Closed) (h : Life table config vs ds w) :
    w.Numbered table ∧ (∀ d ∈ ds, d.All (Ty.Below w.checker.next)) ∧
      ∃ n, Consecutive n vs w.checker.next ∧ table.All fun s => ∀ v ∈ s.mentioned, v < n := by
  induction h with
  | start hc =>
    have hw := Workspace.Numbered.ofTable htable hc
    exact ⟨hw, by simp, _, .nil _, hw.context⟩
  | session ht hconfig =>
    subst ht hconfig
    have hw := Workspace.Numbered.ofTable htable (Checker.ofTable_builtins {})
    exact ⟨hw, by simp, _, .nil _, hw.context⟩
  | declare _ hdraws hrun ih =>
    obtain ⟨hw, hds, n, hvs, hn⟩ := ih
    obtain ⟨hw', hd'⟩ := hw.declaration htable hrun
    have hws := hdraws.consecutive
    rw [show Check.declaration _ _ = _ from hrun] at hws
    refine ⟨hw', fun d hd => ?_, n, hvs.append hws, hn⟩
    rcases List.mem_append.mp hd with hd | hd
    · exact fun t ht => (hds d hd t ht).mono (Check.frame_declaration hrun).next_le
    · exact List.mem_singleton.mp hd ▸ hd'
  | misread _ hread hrun ih =>
    rcases Session.runs_eval.mp ⟨_, hrun, rfl, rfl⟩ with ⟨-, -, -, rfl⟩ | ⟨hread', -⟩
    · exact ih
    · exact absurd hread' hread
  | @eval vs ws ds ds' w v w' input e passed _ hread hdraws hprogram hrun ih =>
    obtain ⟨hw, hds, n, hvs, hn⟩ := ih
    obtain ⟨hv, hds'⟩ := hw.program htable hprogram
    have hle := (Check.frame_program hprogram).next_le
    obtain ⟨_, hdecls, -⟩ := Session.runs_declarations.mpr ⟨_, hprogram, rfl⟩
    have hws := hdraws.consecutive
    rw [show Session.declarations _ _ = _ from hdecls] at hws
    rcases Session.runs_eval.mp ⟨_, hrun, rfl, rfl⟩ with ⟨hread', -⟩ | ⟨-, r, u, hu, -, -, rfl⟩
    · exact absurd hread hread'
    · obtain ⟨rfl, rfl⟩ := EStateM.Result.ok.inj (hprogram.symm.trans hu)
      refine ⟨hw.settle hv hle _, fun d hd => ?_, n, hvs.append hws, hn⟩
      rcases List.mem_append.mp hd with hd | hd
      · exact fun t ht => (hds d hd t ht).mono hle
      · exact hds' d hd
  | reset _ ih =>
    obtain ⟨hw, hds, n, hvs, hn⟩ := ih
    refine ⟨⟨hw.table, ?_, ?_, hw.subst⟩, hds, n, hvs, hn⟩
    · show Context.Closed _
      rwa [Session.reset, hw.table]
    · rw [Session.reset, hw.table]
      exact fun x s hx v hv => Nat.lt_of_lt_of_le (hn x s hx v hv) hvs.le

/-- What a run draws from here is new. -/
theorem draws_new (htable : table.Closed) (h : Life table config vs ds w) {α : Type} {x : Check α}
    {ws : List TyVar} (hws : Check.Draws x w ws) :
    (vs ++ ws).Nodup ∧ table.All fun s => ∀ v ∈ vs ++ ws, v ∉ s.mentioned := by
  obtain ⟨-, -, n, hvs, hn⟩ := h.inOrder htable
  have hall := hvs.append hws.consecutive
  exact ⟨hall.nodup, fun x s hx v hv hs =>
    Nat.not_lt_of_ge (hall.mem.mp hv).1 (hn x s hx v hs)⟩

theorem declare_next (h : Life table config vs ds w) (d : Expr) :
    ∃ ws, Check.Draws (Check.declaration d) w ws ∧
      ∀ r w', Runs (Check.declaration d) w r w' → Life table config (vs ++ ws) (ds ++ [r.2]) w' := by
  obtain ⟨ws, hws⟩ := (Check.stops_declaration d).draws w
  exact ⟨ws, hws, fun r w' hr => .declare h hws hr⟩

theorem eval_next (h : Life table config vs ds w) {input : String} {e : Evaluation}
    (hrun : Runs (Session.eval input) w e w') :
    ∃ ws ds', Life table config (vs ++ ws) (ds ++ ds') w' := by
  rcases Session.runs_eval.mp ⟨e, hrun, rfl, rfl⟩ with ⟨hread, -⟩ | ⟨hread, r, v, hprogram, -⟩
  · refine ⟨[], [], ?_⟩
    rw [List.append_nil, List.append_nil]
    exact .misread h hread hrun
  · obtain ⟨ws, hws⟩ := (Session.stops_declarations (readSource input).1).draws w
    exact ⟨ws, r.2, .eval h hread hws hprogram hrun⟩

/-- A session never leaves its life. -/
theorem evalAll_next {inputs : List String} {es : List Evaluation}
    (h : Life table config vs ds w) (hrun : Runs (Session.evalAll inputs) w es w') :
    ∃ ws ds', Life table config (vs ++ ws) (ds ++ ds') w' := by
  induction inputs generalizing w es vs ds with
  | nil =>
    obtain ⟨-, rfl⟩ := runs_pure.mp hrun
    exact ⟨[], [], by simpa using h⟩
  | cons input inputs ih =>
    obtain ⟨e, v, es, he, hes, -⟩ := Session.runs_evalAll_cons.mp hrun
    obtain ⟨ws₁, ds₁, h₁⟩ := h.eval_next he
    obtain ⟨ws₂, ds₂, h₂⟩ := ih h₁ hes
    exact ⟨ws₁ ++ ws₂, ds₁ ++ ds₂, by simpa using h₂⟩

/-- In every state that a checker over a closed table comes to, the context is
closed, and all numbers in it, in the substitution and in the trees that were
checked are below the supply; whatever is done next, complete or cut short by
the end of the supply, `fresh` returns no number twice, and none of the table.
Every declaration, input and reset leads to such a state again. -/
theorem numbered (htable : table.Closed) (h : Life table config vs ds w) :
    w.context.Closed ∧
      (w.context.All fun s => ∀ v ∈ s.mentioned, v < w.checker.next) ∧
      (∀ v t, w.checker.subst.get? v = some t →
        v < w.checker.next ∧ t.Below w.checker.next) ∧
      (∀ d ∈ ds, d.All (Ty.Below w.checker.next)) ∧
      (∀ {α : Type} {x : Check α} {ws : List TyVar}, Check.Draws x w ws →
        (vs ++ ws).Nodup ∧ table.All fun s => ∀ v ∈ vs ++ ws, v ∉ s.mentioned) ∧
      (∀ d, ∃ ws, Check.Draws (Check.declaration d) w ws ∧
        ∀ r w', Runs (Check.declaration d) w r w' →
          Life table config (vs ++ ws) (ds ++ [r.2]) w') ∧
      (∀ input e w', Runs (Session.eval input) w e w' →
        ∃ ws ds', Life table config (vs ++ ws) (ds ++ ds') w') ∧
      Life table config vs ds (Session.reset w) := by
  obtain ⟨hw, hds, -⟩ := h.inOrder htable
  exact ⟨hw.closed, hw.context, hw.subst, hds, fun hws => h.draws_new htable hws,
    fun d => h.declare_next d, fun _ _ _ hrun => h.eval_next hrun, .reset h⟩

/-- Which inputs of a session pass, and how far its supply is used then. -/
def supply? (inputs : List String) : Option (List Bool × TyVar) :=
  match Session.evalAll inputs .new with
  | .ok es s => some (es.map (·.passed), s.checker.next)
  | .error _ _ => none

/-- A session in which the second input fails half-way through its equations.
The next number is none of those before, and not the 0 of the table. -/
theorem numbered_session :
    let inputs := ["let id = fun x -> x", "let y = (id 1) + (id true)", "let k = fun x y -> id x"]
    ∃ es s vs ds, Session.evalAll inputs .new = .ok es s ∧
      es.map (·.passed) = [true, false, true] ∧ Life Builtins.context {} vs ds s ∧
      s.context.Closed ∧ s.checker.next = 13 ∧ (vs ++ [13]).Nodup ∧ ∀ v ∈ vs ++ [13], v ≠ 0 := by
  intro inputs
  have hsupply : supply? inputs = some ([true, false, true], 13) := by decide +kernel
  unfold supply? at hsupply
  split at hsupply
  next es s hrun =>
    obtain ⟨hpassed, hnext⟩ := Prod.mk.inj (Option.some.inj hsupply)
    obtain ⟨vs, ds, h⟩ := evalAll_next (.session rfl rfl) hrun
    obtain ⟨hclosed, -, -, -, hdraws, -⟩ := numbered Builtins.context_closed h
    have hfresh : Check.Draws (Check.inferring fun _ => Infer.fresh) s [13] :=
      .inferring (.fresh (Infer.runs_fresh.mpr ⟨hnext ▸ by decide, by rw [hnext], rfl⟩))
    obtain ⟨hnodup, htable⟩ := hdraws hfresh
    refine ⟨es, s, _, _, hrun, hpassed, h, hclosed, hnext, hnodup, fun v hv hzero => ?_⟩
    exact htable "=" Builtins.comparison (by decide) v hv (hzero ▸ by decide)
  next => cases hsupply

end Life
end MiniML
