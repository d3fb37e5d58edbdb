import Mathlib
import MiniML.Proofs.Grammar.Makes
import MiniML.Proofs.Tree.Inline
import MiniML.Proofs.Tree.Nodes

/-!
# The shape of what is read

The trees of a program have a text in the place of a declaration (`Expr.Denotable`).
Parentheses around a single item leave no trace, so that tuples have two items at least, and
an application, a function and a case distinction have something to apply to, to bind and to
choose from. Each function keeps what is written at it (`Expr.Signed`), and no slot is filled
in yet. Every rule of the grammar makes such trees of such trees, wherever it backtracks, and
what stands behind a fault is read by the same rules.

Results:
* `callsHaveArgs_of_mem_parse`: there are no applications to nothing.
* `shape_of_mem_parse`: the shape of the trees of a program.
-/
namespace MiniML

/-- A list that is neither empty nor a single item. -/
theorem two_le_length {α : Type} {as : List α} (hne : as ≠ []) (hone : ∀ a, as = [a] → False) :
    2 ≤ as.length := by
  rcases as with _ | ⟨a, _ | ⟨b, as⟩⟩
  · exact absurd rfl hne
  · exact (hone a rfl).elim
  · simp

namespace Expr.Denotable

variable {d : Bool} {e : Expr}

/-- Where a declaration may stand, other expressions may stand as well. -/
theorem declared (h : e.Denotable false) : e.Denotable true := by
  cases h with
  | const l m => exact .const l m
  | ident n => exact .ident n
  | tuple m hlen hes => exact .tuple m hlen hes
  | unary op m he => exact .unary op m he
  | binary op m hl hr => exact .binary op m hl hr
  | app m hf hne hes => exact .app m hf hne hes
  | cond m ht hy hn => exact .cond m ht hy hn
  | cases m he hne hps hbs => exact .cases m he hne hps hbs
  | bind n m hh hv hb _ => exact .bind n m hh hv hb fun _ => rfl
  | lam m hne hps hsig hb => exact .lam m hne hps hsig hb

-- a node has arguments in all applications if its parts have
attribute [local simp] callsHaveArgs callsHaveArgsAll_iff callsHaveArgsOption_iff
  callsHaveArgsArms_iff

/-- Applications to nothing have no text. -/
theorem callsHaveArgs (h : e.Denotable d) : e.callsHaveArgs = true := by
  induction h with
  | const l m => rfl
  | ident n => rfl
  | tuple m _ _ ih => simpa using ih
  | unary op m _ ih => simpa using ih
  | binary op m _ _ hl hr => simpa using ⟨hl, hr⟩
  | app m _ hne _ hf ih => simpa using ⟨hne, hf, ih⟩
  | cond m _ _ _ ht hy hn => simpa using ⟨ht, hy, hn⟩
  | cases m _ _ _ _ he ih => simpa using ⟨he, ih⟩
  | bind n m _ _ _ _ hv hb => simpa using ⟨hv, hb⟩
  | lam m _ _ _ _ ih => simpa using ih
  | named n m _ _ _ _ _ hb hr => simpa using ⟨hb, hr⟩

end Expr.Denotable

namespace Grammar
open MiniML.Parser

variable {ts : Array Token}

/-! ## Annotations and patterns -/

theorem yields_hintProduct {self : Parser Hint} (h : Yields Hint.Denotable self) :
    Yields Hint.Denotable (hintProduct self) := by
  have hname : Yields Hint.Denotable (take "type" fun t => hintName? t.lexeme) := by
    refine yields_take fun t a hread => ?_
    unfold hintName? at hread
    split at hread
    · split at hread
      · cases hread
        exact .prim _
      · cases hread
    · cases hread
      exact .var _
    · cases hread
      exact .wildcard
    · cases hread
  have hitem : Yields Hint.Denotable (hintItem self) := by
    refine .either ?_ hname
    exact yields_behind _ fun _ => h.bind fun _ hg => yields_behind _ fun _ => yields_pure hg
  refine (hitem.sepBy1.and (yields_sepBy1_ne_nil _ _)).bind fun hs ⟨hall, hne⟩ => ?_
  split
  next => exact yields_pure (hall _ (by simp))
  next hone => exact yields_pure (.tuple (two_le_length hne hone) hall)

theorem yields_hint : Yields Hint.Denotable hint := by
  refine yields_recursive (fun self h _ => ?_) ()
  have harrow : Yields Hint.Denotable (token .arrow *> self ()) := yields_behind _ fun _ => h ()
  refine (yields_hintProduct (h ())).bind fun a ha => harrow.optional.bind fun o ho => ?_
  cases o with
  | none => exact yields_pure ha
  | some b => exact yields_pure (.fn ha (ho b rfl))

theorem yields_resultHint : Yields Hint.Denotable resultHint := yields_hintProduct yields_hint

/-- A pattern that has a text, and no types. -/
structure FormedPattern (p : Pattern) : Prop where
  denotable : p.Denotable
  blank : ∀ t ∈ p.slots, t = .error

theorem yields_ident : Yields (fun n => n.mark.ty = .error) ident := by
  refine yields_take fun t n hread => ?_
  split at hread
  · cases hread
    rfl
  · cases hread

theorem yields_pattern : Yields FormedPattern pattern := by
  refine yields_recursive (fun self h _ => ?_) ()
  have hliteral : Yields FormedPattern literalPattern := yields_behind _ fun _ =>
    yields_pure ⟨.literal _ _, by simp [Pattern.slots]⟩
  have htuple : Yields FormedPattern (tuplePattern (self ())) := by
    refine yields_behind _ fun _ => ((h ()).sepBy1.and (yields_sepBy1_ne_nil _ _)).bind
      fun ps ⟨hall, hne⟩ => yields_behind _ fun _ => ?_
    split
    next => exact yields_pure (hall _ (by simp))
    next hone =>
      refine yields_pure ⟨.tuple _ (two_le_length hne hone) fun p hp => (hall p hp).denotable, ?_⟩
      simp only [Pattern.slots, Pattern.slotsOfItems_eq, List.forall_mem_cons, List.mem_flatMap]
      exact ⟨trivial, fun t ⟨p, hp, ht⟩ => (hall p hp).blank t ht⟩
  have hwildcard : Yields FormedPattern
      (do return .wildcard { span := (← token .underscore).span }) :=
    yields_behind _ fun _ => yields_pure ⟨.wildcard _, by simp [Pattern.slots]⟩
  have hident : Yields FormedPattern (do return .ident (← ident)) :=
    yields_ident.bind fun n hn => yields_pure ⟨.ident n, by simpa [Pattern.slots] using hn⟩
  exact ((hliteral.either htuple).either hwildcard).either hident

/-- What is read for a parameter is formed. -/
theorem ParamsAt.formed {i j : Nat} {xs : List (Pattern × Option Hint)} (h : ParamsAt ts i j xs) :
    ∀ x ∈ xs, FormedPattern x.1 ∧ ∀ g ∈ x.2, g.Denotable := by
  induction h with
  | nil => exact nofun
  | cons hx _ ih =>
    refine List.forall_mem_cons.mpr ⟨?_, ih⟩
    cases hx with
    | plain hp =>
      obtain ⟨_, _, -, -, hrun, -⟩ := hp
      exact ⟨yields_pattern hrun, nofun⟩
    | annotated _ hp _ hh _ =>
      obtain ⟨_, _, -, -, hrun, -⟩ := hp
      obtain ⟨_, _, -, -, hrun', -⟩ := hh
      exact ⟨yields_pattern hrun, fun g hg => Option.some.inj hg ▸ yields_hint hrun'⟩

theorem ResultAt.denotable {i j : Nat} {o : Option Hint} (h : ResultAt ts i j o) :
    ∀ g ∈ o, g.Denotable := by
  cases h with
  | none => exact nofun
  | some _ hh =>
    obtain ⟨_, _, -, -, hrun, -⟩ := hh
    exact fun g hg => Option.some.inj hg ▸ yields_resultHint hrun

theorem FunHead.formed {start : Token} {params : List (Pattern × Option Hint)}
    {result : Option Hint} (h : FunHead ts start params result) :
    (∀ x ∈ params, FormedPattern x.1 ∧ ∀ g ∈ x.2, g.Denotable) ∧ ∀ g ∈ result, g.Denotable := by
  cases h with
  | intro _ _ hparams hresult _ => exact ⟨hparams.formed, hresult.denotable⟩

/-! ## Expressions -/

/-- An expression that has a text in its place, whose functions keep what is written at
them in these tokens, and that has no types. -/
structure Formed (ts : Array Token) (declaration : Bool) (e : Expr) : Prop where
  denotable : e.Denotable declaration
  signed : ∀ x ∈ e.nodes, x.Signed ts
  blank : ∀ t ∈ e.slots, t = .error

theorem Formed.anywhere {e : Expr} (h : Formed ts false e) (declaration : Bool) :
    Formed ts declaration e := by
  cases declaration with
  | false => exact h
  | true => exact ⟨h.denotable.declared, h.signed, h.blank⟩

/-- A node is formed if its parts are, and what stands at it is. -/
theorem formed_of_parts {d : Bool} {e : Expr} (hdenotable : e.Denotable d) (hsigned : e.Signed ts)
    (hown : ∀ t ∈ e.ownSlots, t = .error) (hinner : ∀ q ∈ e.inner, Formed ts false q)
    (hbehind : ∀ q ∈ e.behindIn?, Formed ts true q) : Formed ts d e := by
  have hparts : ∀ q ∈ e.parts, ∃ d, Formed ts d q := fun q hq => by
    rcases List.mem_append.mp hq with hq | hq
    · exact ⟨false, hinner q hq⟩
    · exact ⟨true, hbehind q (by simpa using hq)⟩
  refine ⟨hdenotable, Expr.forall_nodes.mpr ⟨hsigned, fun q hq => ?_⟩,
    Expr.forall_slots hown fun q hq => ?_⟩
  · exact (hparts q hq).elim fun _ h => h.signed
  · exact (hparts q hq).elim fun _ h => h.blank

/-- Whether what is read for a goal stands in the place of a declaration. -/
def Goal.declares : Goal → Bool
  | .expr declaration => declaration
  | .binary _ | .operand => false

-- the parts of a node, and what stands at it
attribute [local simp] Expr.inner Expr.behindIn? Expr.ownSlots Expr.ty Expr.mark

/-- The function that is made of its head, its body and its rest. -/
theorem formed_lam {declaration : Bool} {start : Token} {n : Option Name}
    {params own : List (Pattern × Option Hint)} {result : Option Hint} {b : Expr} {r : Option Expr}
    (hhead : FunHead ts start params result)
    (hparams : params = n.toList.map (fun n => (.ident n, none)) ++ own) (hne : own ≠ [])
    (hnamed : n.isSome → declaration = true) (hb : Formed ts false b)
    (hr : ∀ e ∈ r, Formed ts true e) (hrest : n.isSome = false → r = none) :
    Formed ts declaration (.lam n (own.map Prod.fst) (Hint.ofFunction (own.map Prod.snd) result) b r
      { span := spanTo start b r }) := by
  obtain ⟨hread, hresult⟩ := hhead.formed
  have hown : ∀ x ∈ own, FormedPattern x.1 ∧ ∀ g ∈ x.2, g.Denotable := fun x hx =>
    hread x (hparams ▸ List.mem_append_right _ hx)
  have hps : own.map Prod.fst ≠ [] := by simpa using hne
  have hpatterns : ∀ p ∈ own.map Prod.fst, FormedPattern p :=
    List.forall_mem_map.mpr fun x hx => (hown x hx).1
  have hsignature : Signature (own.map Prod.fst) (Hint.ofFunction (own.map Prod.snd) result) :=
    signature_ofFunction (fun x hx => (hown x hx).2) hresult
  refine formed_of_parts ?_ (signed_ofFunction hhead hparams hne b r) ?_
    (List.forall_mem_singleton.mpr hb) hr
  · cases n with
    | none =>
      obtain rfl := hrest rfl
      exact .lam _ hps (fun p hp => (hpatterns p hp).denotable) hsignature hb.denotable
    | some n =>
      obtain rfl := hnamed rfl
      exact .named n _ hps (fun p hp => (hpatterns p hp).denotable) hsignature hb.denotable
        fun e he => (hr e he).denotable
  · have hname : ∀ x ∈ n.toList, x.mark.ty = .error := fun x hx => by
      have hx : FormedPattern (.ident x) :=
        (hread (.ident x, none) (hparams ▸ List.mem_append_left _ (List.mem_map_of_mem hx))).1
      exact hx.blank _ List.mem_cons_self
    simp only [Expr.ownSlots, List.forall_mem_cons, List.forall_mem_append, List.forall_mem_map,
      List.mem_flatMap]
    exact ⟨trivial, hname, fun t ⟨p, hp, ht⟩ => (hpatterns p hp).blank t ht⟩

variable {self : Self} (h : ∀ g, Makes ts (Formed ts g.declares) (self g))
include h

theorem makes_some (g : Goal) :
    Makes ts (fun o => (∀ e ∈ o, Formed ts g.declares e) ∧ o ≠ none)
      (do return some (← self g)) :=
  (h g).makes fun _ he => makes_pure ⟨fun _ hd => Option.some.inj hd ▸ he, Option.some_ne_none _⟩

theorem makes_letBody (declaration : Bool) :
    Makes ts (fun o => (∀ e ∈ o, Formed ts true e) ∧ (o = none → declaration = true))
      (letBody self declaration) := by
  have hin : Makes ts (fun o => (∀ e ∈ o, Formed ts true e) ∧ (o = none → declaration = true))
      (do let _ ← token .in_; return some (← self (.expr true))) :=
    makes_behind (lays_mark _) fun _ => (makes_some h (.expr true)).imp fun o _ ho =>
      ⟨ho.1, fun hnone => absurd hnone ho.2⟩
  unfold letBody
  cases declaration with
  | false => exact hin
  | true =>
    refine makes_nextIs _ fun b => ?_
    cases b
    · exact makes_pure ⟨nofun, fun _ => rfl⟩
    · exact hin

theorem makes_letRule (declaration : Bool) :
    Makes ts (Formed ts declaration) (letRule self declaration) := by
  have hannotation : Makes ts (fun o => ∀ g ∈ o, g.Denotable) (optional (token .colon *> hint)) :=
    Yields.makes (Yields.optional (yields_behind _ fun _ => yields_hint))
      (lays_optional_hint .colon lays_hint)
  have hname : Makes ts (fun n => n.mark.ty = .error) (label "binding name" ident) :=
    Yields.makes (yields_ident.label _) (lays_ident.label _)
  refine makes_behind (lays_token _) fun _ => hname.makes fun n hn => hannotation.makes
    fun a ha => makes_behind (lays_mark _) fun _ => (h (.expr false)).makes fun v hv =>
      (makes_letBody h declaration).makes fun b hb => makes_pure ?_
  exact formed_of_parts (.bind n _ ha hv.denotable (fun e he => (hb.1 e he).denotable) hb.2)
    trivial (by simpa using hn) (List.forall_mem_singleton.mpr hv) hb.1

theorem makes_funRest (named : Bool) :
    Makes ts (fun o => (∀ e ∈ o, Formed ts true e) ∧ (named = false → o = none))
      (funRest self named) := by
  unfold funRest
  cases named with
  | false => exact makes_pure ⟨nofun, fun _ => rfl⟩
  | true =>
    refine makes_nextIs _ fun b => ?_
    cases b
    · exact makes_pure ⟨nofun, nofun⟩
    · exact makes_behind lays_skip fun _ => (makes_some h (.expr true)).imp fun o _ ho =>
        ⟨ho.1, nofun⟩

/-- What is written between the keyword and the arrow is known when the body is read. -/
theorem makes_funRule (declaration : Bool) :
    Makes ts (Formed ts declaration) (funRule self declaration) := by
  refine makes_anywhere fun i => (reads_token .fun_ i).bind fun start =>
    ((reads_from reads_funParams).label _).bind fun params =>
    (reads_from reads_result).bind fun result => ?_
  have hhead : Reads ts (fun k => ∃ j, (∃ i', (ts[i]? = some start ∧ start.lexeme = .fixed .fun_ ∧
        i' = i + 1) ∧ params ≠ [] ∧ ParamsAt ts i' j params) ∧ ResultAt ts j k result)
      (fun _ _ => FunHead ts start params result ∧ params ≠ []) (token .arrow) := by
    refine (reads_from (reads_token .arrow)).imp ?_
    rintro t _ ⟨k, ⟨j, ⟨_, ⟨ht, hfun, rfl⟩, hne, hparams⟩, hresult⟩, hk, harrow, -⟩
    exact ⟨.intro ht hfun hparams hresult ⟨t, hk, harrow⟩, hne⟩
  refine hhead.makes fun _ ⟨hhead, hne⟩ => (h (.expr false)).makes fun b hb => ?_
  obtain ⟨n, own, hsplit, hparams, hown, hnamed⟩ := splitName_eq declaration hne
  simp only [hsplit]
  exact (makes_funRest h n.isSome).makes fun r hr =>
    makes_pure (formed_lam hhead hparams hown hnamed hb hr.1 hr.2)

theorem makes_ifRule : Makes ts (Formed ts false) (ifRule self) := by
  refine makes_behind (lays_token _) fun _ => (h (.expr false)).makes fun t ht =>
    makes_behind (lays_mark _) fun _ => (h (.expr false)).makes fun y hy =>
      makes_nextIs _ fun b => ?_
  cases b
  · exact makes_pure (formed_of_parts (.cond _ ht.denotable hy.denotable nofun) trivial (by simp)
      (by simpa using ⟨ht, hy⟩) nofun)
  · refine makes_behind (lays_mark _) fun _ => (h (.expr false)).makes fun n hn => makes_pure ?_
    have hno : ∀ e ∈ some n, e.Denotable false := fun e he => Option.some.inj he ▸ hn.denotable
    exact formed_of_parts (.cond _ ht.denotable hy.denotable hno) trivial (by simp)
      (by simpa using ⟨ht, hy, hn⟩) nofun

theorem makes_arm :
    Makes ts (fun a => FormedPattern a.pattern ∧ Formed ts false a.body) (arm self) :=
  (yields_pattern.makes lays_pattern).makes fun _ hp =>
    Reads.makes (makes_behind (lays_mark _) fun _ => h (.expr false)) fun _ hb =>
      makes_pure ⟨hp, hb⟩

theorem makes_matchRule : Makes ts (Formed ts false) (matchRule self) := by
  refine makes_behind (lays_token _) fun _ => (h (.expr false)).makes fun e he =>
    makes_behind (lays_mark _) fun _ => makes_behind (lays_mark _).optional fun _ =>
      ((makes_arm h).sepBy1 _).makes fun as ⟨has, hne⟩ => makes_pure ?_
  refine formed_of_parts (.cases _ he.denotable hne (fun a ha => (has a ha).1.denotable)
    fun a ha => (has a ha).2.denotable) trivial ?_ ?_ nofun
  · simp only [Expr.ownSlots, List.forall_mem_cons, List.mem_flatMap]
    exact ⟨trivial, fun t ⟨a, ha, ht⟩ => (has a ha).1.blank t ht⟩
  · exact List.forall_mem_cons.mpr ⟨he, List.forall_mem_map.mpr fun a ha => (has a ha).2⟩

theorem makes_parenthesized : Makes ts (Formed ts false) (parenthesized self) := by
  refine makes_behind (lays_token _) fun _ => makes_nextIs _ fun b => ?_
  cases b
  · refine ((h (.expr false)).sepBy1 _).makes fun es ⟨hall, hne⟩ =>
      makes_behind (lays_token _) fun _ => ?_
    split
    next => exact makes_pure (hall _ (by simp))
    next hone =>
      exact makes_pure (formed_of_parts (.tuple _ (two_le_length hne hone) fun e he =>
        (hall e he).denotable) trivial (by simp) hall nofun)
  · exact makes_behind (lays_token _) fun _ =>
      makes_pure (formed_of_parts (.const _ _) trivial (by simp) nofun nofun)

theorem makes_atom : Makes ts (Formed ts false) (atom self) := by
  refine (Reads.either (Reads.either ?ident (makes_parenthesized h)) ?constant).label _
  case ident =>
    exact (yields_ident.makes lays_ident).makes fun n hn =>
      makes_pure (formed_of_parts (.ident n) trivial (by simpa using hn) nofun nofun)
  case constant =>
    exact makes_behind lays_constant fun _ =>
      makes_pure (formed_of_parts (.const _ _) trivial (by simp) nofun nofun)

theorem makes_atoms (n : Nat) :
    Makes ts (fun es => ∀ e ∈ es, Formed ts false e) (atoms self n) := by
  induction n with
  | zero => exact makes_pure (by simp)
  | succ n ih =>
    refine makes_peek fun o => ?_
    cases o with
    | none => exact makes_pure (by simp)
    | some t =>
      dsimp only
      split
      · exact (makes_atom h).makes fun e he => ih.makes fun es hes =>
          makes_pure (List.forall_mem_cons.mpr ⟨he, hes⟩)
      · exact makes_pure (by simp)

/-- There is at least one argument, or no application. -/
theorem makes_application : Makes ts (Formed ts false) (application self) := by
  have hargs : Makes ts (fun es => ∀ e ∈ es, Formed ts false e)
      (fun c => atoms self c.remaining c) := fun c => makes_atoms h c.remaining c
  refine (makes_atom h).makes fun f hf => hargs.makes fun es hes => ?_
  split
  next => exact makes_pure hf
  next last hlast =>
    have hne : es ≠ [] := by
      rintro rfl
      cases hlast
    exact makes_pure (formed_of_parts (.app _ hf.denotable hne fun e he => (hes e he).denotable)
      trivial (by simp) (List.forall_mem_cons.mpr ⟨hf, hes⟩) fun q hq =>
        absurd hq (Option.not_mem_none q))

theorem makes_operandRule : Makes ts (Formed ts false) (operandRule self) := by
  refine makes_peek fun o => ?_
  cases o with
  | none => exact makes_application h
  | some t =>
    dsimp only
    split
    · exact makes_application h
    · exact makes_behind lays_skip fun _ => (h .operand).makes fun e he => makes_pure
        (formed_of_parts (.unary _ _ he.denotable) trivial (by simp)
          (List.forall_mem_singleton.mpr he) nofun)

theorem makes_rightOperand (op : BinaryOp) : Makes ts (Formed ts false) (rightOperand self op) := by
  refine makes_peek fun o => ?_
  cases o with
  | none => exact h (.binary _)
  | some t =>
    dsimp only
    split
    · exact h (.expr false)
    · exact h (.binary _)

theorem makes_operators (least n : Nat) {left : Expr} (hl : Formed ts false left) :
    Makes ts (Formed ts false) (operators self least n left) := by
  induction n generalizing left with
  | zero => exact makes_pure hl
  | succ n ih =>
    refine makes_peek fun o => ?_
    cases o with
    | none => exact makes_pure hl
    | some t =>
      dsimp only
      split
      · exact makes_pure hl
      · split
        · exact makes_pure hl
        · refine makes_behind lays_skip fun _ => (makes_rightOperand h _).makes fun r hr =>
            ih (formed_of_parts (.binary _ _ hl.denotable hr.denotable) trivial (by simp) ?_ nofun)
          simpa using ⟨hl, hr⟩

theorem makes_binaryRule (least : Nat) : Makes ts (Formed ts false) (binaryRule self least) :=
  (makes_operandRule h).makes fun _ hl c => makes_operators h least c.remaining hl c

theorem makes_exprRule (g : Goal) : Makes ts (Formed ts g.declares) (exprRule self g) := by
  cases g with
  | operand => exact makes_operandRule h
  | binary least => exact makes_binaryRule h least
  | expr declaration =>
    have hany {p : Parser Expr} (hp : Makes ts (Formed ts false) p) :
        Makes ts (Formed ts declaration) p := hp.imp fun e _ he => he.anywhere declaration
    refine makes_peek fun o => ?_
    split
    · exact makes_letRule h declaration
    · exact makes_funRule h declaration
    · exact hany (makes_ifRule h)
    · exact hany (makes_matchRule h)
    · exact hany (makes_binaryRule h 1)

omit h

theorem makes_declaration : Makes ts (Formed ts true) declaration :=
  makes_recursive (Q := fun g => Formed ts g.declares) (fun _ h g => makes_exprRule h g)
    (.expr true)

/-! ## The trees of a program -/

variable {tokens : List Token}

theorem formed_of_mem_parse {d : Expr} (hd : d ∈ (parse tokens).1) :
    Formed tokens.toArray true d := by
  obtain ⟨c, c', hc, hrun⟩ := exists_run_of_mem_parse hd
  have hmakes := makes_declaration c hc trivial
  rw [hrun] at hmakes
  exact hmakes.2

/-- Every application in a program that was read has an argument. -/
theorem callsHaveArgs_of_mem_parse {d : Expr} (hd : d ∈ (parse tokens).1) :
    d.callsHaveArgs = true := (formed_of_mem_parse hd).denotable.callsHaveArgs

/-- The trees of a program have a text in the place of a declaration, so that at every depth
tuples have at least two items, and applications, functions and case distinctions at least one
argument, parameter and arm; each function in them keeps what is written at it; and they have
no types. -/
theorem shape_of_mem_parse {d : Expr} (hd : d ∈ (parse tokens).1) :
    d.Denotable true ∧ (∀ e ∈ d.nodes, e.Signed tokens.toArray) ∧ ∀ t ∈ d.slots, t = .error :=
  have hformed := formed_of_mem_parse hd
  ⟨hformed.denotable, hformed.signed, hformed.blank⟩

/-- In `let = ;; fun f (x : int) y : bool -> (x, y)` the function is read behind an error. -/
theorem shape_of_mem_parse_fun :
    let tokens : List Token :=
      [.fixed .let_, .fixed .equals, .fixed .separator, .fixed .fun_, .word .ident "f",
        .fixed .lparen, .word .ident "x", .fixed .colon, .word .ident "int", .fixed .rparen,
        .word .ident "y", .fixed .colon, .word .ident "bool", .fixed .arrow, .fixed .lparen,
        .word .ident "x", .fixed .comma, .word .ident "y", .fixed .rparen].map fun l => ⟨l, {}⟩
    let f : Expr := .lam (some ⟨"f", {}⟩) [.ident ⟨"x", {}⟩, .ident ⟨"y", {}⟩]
      (some (.fn (.prim .int) (.fn .wildcard (.prim .bool))))
      (.tuple [.ident ⟨"x", {}⟩, .ident ⟨"y", {}⟩] {}) none {}
    f ∈ (parse tokens).1 ∧ f.Denotable true ∧ f.Signed tokens.toArray ∧
      ∀ t ∈ f.slots, t = .error := by
  intro tokens f
  have hparse : (parse tokens).1 = [f] := by cbv
  have hf : f ∈ (parse tokens).1 := hparse ▸ List.mem_singleton_self f
  obtain ⟨hdenotable, hsigned, hblank⟩ := shape_of_mem_parse hf
  exact ⟨hf, hdenotable, hsigned f f.mem_nodes_self, hblank⟩

end Grammar
end MiniML
