import MiniML.Proofs.Grammar.Spelling

/-!
# Printed expressions are read back

As for patterns, each rule is shown to read what is printed for it, on the
assumption that the parsers it calls read what is shorter (`ExprsBelow`). They are
called for whole expressions, which the end of the text, a separator, a comma or a
closing parenthesis follows, and for expressions in parentheses, which may have
anything behind them that is no argument and no operator.

Results:
* `exprsBelow_rule`: the rule of expressions keeps the assumption.
* `accepts_declaration`: what is printed for a declaration is read as one.
-/
namespace MiniML

open MiniML.Piece MiniML.Parser MiniML.Grammar

/-! ## Operands -/

/-- The lexemes that may stand behind a whole expression. -/
def EndsExpr (l : Lexeme) : Prop := l ∈ [Lexeme.fixed .rparen, .fixed .comma, .fixed .separator]

/-- The lexemes that go on with no application and no operation. -/
def EndsOperand (l : Lexeme) : Prop := startsAtom l = false ∧ binaryOp? l = none

theorem EndsExpr.operand {l : Lexeme} (h : EndsExpr l) : EndsOperand l := by
  simp only [EndsExpr, List.mem_cons, List.not_mem_nil, or_false] at h
  rcases h with rfl | rfl | rfl <;> exact ⟨rfl, rfl⟩

theorem EndsExpr.ne {l : Lexeme} (h : EndsExpr l) (f : Fixed)
    (hf : f ∉ [Fixed.rparen, .comma, .separator]) : l ≠ .fixed f := by
  rintro rfl
  simp_all [EndsExpr]

/-- What an expression is read as: the same one, at its place, with empty slots. -/
def Expr.ReadAs (e x : Expr) : Prop := x.unplaced = e.bare

/-- The parsers read expressions of less than `n` tokens: whole ones as such, and
ones in parentheses in any place. -/
structure ExprsBelow (n : Nat) (call : Self) : Prop where
  whole : ∀ (d : Bool) (e : Expr), e.Denotable d → ∀ ts rest, ts.length < n →
    Spells (e.pieces d) ts rest → Heads EndsExpr rest → Accepts (call (.expr d)) ts rest e.ReadAs
  enclosed : ∀ (g : Goal) (e : Expr), e.Denotable false → ∀ ts rest, ts.length < n →
    Spells (parens (e.pieces false)) ts rest → Heads EndsOperand rest →
    Accepts (call g) ts rest e.ReadAs

section Operand

variable {self : Self} {n : Nat} {ts mid rest : List Token} {Q : Expr → Prop}

/-- A parenthesis begins an atom. -/
theorem heads_parens {ps : List Piece} (hts : Spells (parens ps) ts rest) :
    Heads (fun l => unaryOp? l = none ∧ startsForm l = false) ts := by
  obtain ⟨t, us, rfl, ht, -⟩ := hts
  exact heads_cons ht ⟨rfl, rfl⟩

/-- An expression does not begin with what ends another one. -/
theorem heads_expr {d : Bool} {e : Expr} (hts : Spells (e.pieces d) ts rest) :
    Heads (fun l => l ≠ .fixed .rparen ∧ l ≠ .fixed .separator) ts ∧ ts ≠ [] := by
  have hfirst {l : Lexeme} {ps : List Piece} (hts : Spells (.lexeme l :: ps) ts rest)
      (hl : l ≠ .fixed .rparen ∧ l ≠ .fixed .separator) :
      Heads (fun l => l ≠ .fixed .rparen ∧ l ≠ .fixed .separator) ts ∧ ts ≠ [] := by
    obtain ⟨t, us, rfl, ht, -⟩ := hts
    exact ⟨heads_cons ht hl, List.cons_ne_nil _ _⟩
  cases e with
  | const l m =>
    cases l with
    | unit => exact hfirst hts ⟨nofun, nofun⟩
    | _ =>
      obtain ⟨t, us, rfl, ht, -⟩ := hts
      exact ⟨heads_cons rfl ⟨constant_ne ht _ rfl, constant_ne ht _ rfl⟩, List.cons_ne_nil _ _⟩
  | unary op e m => exact hfirst hts (by cases op <;> exact ⟨nofun, nofun⟩)
  | lam o ps h b r m =>
    cases o with
    | some n => exact hfirst hts ⟨nofun, nofun⟩
    | none => cases d <;> exact hfirst hts ⟨nofun, nofun⟩
  | _ => exact hfirst hts ⟨nofun, nofun⟩

theorem accepts_atom_parens {t : Token} {us : List Token} (ht : t.lexeme = .fixed .lparen)
    (h : Accepts (parenthesized self) (t :: us) rest Q) : Accepts (atom self) (t :: us) rest Q := by
  have hname : Refuses Grammar.ident (t :: us) := refuses_take (by
    rintro _ ⟨⟩
    rw [ht])
  exact (hname.bind.either h).either.label _

theorem accepts_atom_enclosed (hself : ExprsBelow n self) {e : Expr} (he : e.Denotable false)
    (hn : ts.length ≤ n) (hts : Spells (parens (e.pieces false)) ts rest) :
    Accepts (atom self) ts rest e.ReadAs := by
  obtain ⟨t, us, u, rfl, ht, hinner, hu⟩ := hts.parens
  have hend : Heads EndsExpr (u :: rest) := heads_cons hu List.mem_cons_self
  have hwhole := hself.whole false e he us _ hn hinner hend
  have hcomma : Heads (· ≠ .fixed .comma) (u :: rest) := heads_cons hu nofun
  refine accepts_atom_parens ht ((accepts_token ht).bind fun _ _ => ?_)
  refine (accepts_nextIs_not ((heads_expr hinner).1.mono fun _ h => h.1)).bind fun b hb => ?_
  subst hb
  refine (accepts_sepBy1_one hwhole (refuses_token hcomma)).bind fun es hes => ?_
  obtain ⟨x, rfl, hx⟩ := hes
  exact (accepts_token hu).bind fun _ _ => accepts_pure hx

theorem accepts_atom_const {l : Literal} {m : Mark} (hts : Spells l.pieces ts rest) :
    Accepts (atom self) ts rest (Expr.const l m).ReadAs := by
  cases l with
  | unit =>
    obtain ⟨t, us, rfl, ht, u, vs, rfl, hu, rfl⟩ := hts
    refine accepts_atom_parens ht ((accepts_token ht).bind fun _ _ => ?_)
    refine (accepts_nextIs _ hu).bind fun b hb => ?_
    subst hb
    exact (accepts_token hu).bind fun _ _ => accepts_pure rfl
  | _ =>
    obtain ⟨t, us, rfl, ht, rfl⟩ := hts
    have hname : Refuses Grammar.ident (t :: us) := refuses_take (by
      rintro _ ⟨⟩
      have ht : literal? t.lexeme = some _ := ht
      split
      · next heq =>
        rw [heq] at ht
        cases ht
      · rfl)
    have hparens : Refuses (parenthesized self) (t :: us) :=
      (refuses_token (heads_cons rfl (constant_ne ht _ rfl))).bind
    refine ((refuses_either hname.bind hparens).either
      ((accepts_constant ht).bind fun r hr => accepts_pure ?_)).label _
    rw [← hr]
    rfl

theorem accepts_atom_ident {n : Name} (hts : Spells n.pieces ts rest) :
    Accepts (atom self) ts rest (Expr.ident n).ReadAs := by
  refine ((accepts_name hts).bind fun m hm => accepts_pure ?_).either.either.label _
  exact congrArg Expr.ident hm

theorem readAs_list {es xs : List Expr} (h : List.Forall₂ Expr.ReadAs es xs) :
    Expr.mapMarksAll Mark.unplaced xs = Expr.mapMarksAll (fun _ => {}) es := by
  induction h with
  | nil => rfl
  | cons he _ ih => exact congrArg₂ List.cons he ih

theorem accepts_atom_tuple (hself : ExprsBelow n self) {d : Bool} {es : List Expr} {m : Mark}
    (hlen : 2 ≤ es.length) (hes : ∀ e ∈ es, e.Denotable false) (hn : ts.length ≤ n)
    (hts : Spells ((Expr.tuple es m).pieces d) ts rest) :
    Accepts (atom self) ts rest (Expr.tuple es m).ReadAs := by
  obtain ⟨t, us, u, rfl, ht, hitems, hu⟩ := hts.parens
  rw [Expr.piecesAll_eq] at hitems
  have hend : Heads EndsExpr (u :: rest) := heads_cons hu List.mem_cons_self
  have hread := accepts_separated (p := self (.expr false)) (Q := Expr.ReadAs) (f := .comma)
    (P := EndsExpr) (List.ne_nil_of_length_pos (Nat.zero_lt_of_lt hlen)) (by simp [EndsExpr]) hend
    (heads_cons hu nofun)
    (fun e he vs mid hvs he' => hself.whole false e (hes e he) vs mid (Nat.lt_of_le_of_lt hvs hn) he')
    hitems
  have hfirst : Heads (· ≠ .fixed .rparen) us := by
    obtain ⟨e, es, rfl⟩ := List.exists_cons_of_length_pos (Nat.zero_lt_of_lt hlen)
    obtain ⟨mid, he, -⟩ := spells_append.mp hitems
    exact (heads_expr he).1.mono fun _ h => h.1
  refine accepts_atom_parens ht ((accepts_token ht).bind fun _ _ => ?_)
  refine (accepts_nextIs_not hfirst).bind fun b hb => ?_
  subst hb
  refine hread.bind fun xs hxs => (accepts_token hu).bind fun _ _ => ?_
  split
  · exact absurd hlen (by rw [hxs.length_eq]; simp)
  · exact accepts_pure (congrArg (Expr.tuple · {}) (readAs_list hxs))

/-! ## Applications and operations -/

theorem accepts_atoms_nil (h : Heads (startsAtom · = false) ts) (n : Nat) :
    Accepts (atoms self n) ts ts (· = []) := by
  cases n with
  | zero => exact accepts_pure rfl
  | succ n =>
    refine accepts_peek.bind fun o ho => ?_
    subst ho
    split
    · exact accepts_pure rfl
    · next t ht =>
      rw [h t ht, if_neg Bool.false_ne_true]
      exact accepts_pure rfl

theorem accepts_atoms (hself : ExprsBelow n self) {es : List Expr}
    (hes : ∀ e ∈ es, e.Denotable false) (hrest : Heads (startsAtom · = false) rest)
    (hn : ts.length ≤ n) (hts : Spells (es.flatMap fun e => parens (e.pieces false)) ts rest)
    {k : Nat} (hk : es.length ≤ k) : Accepts (atoms self k) ts rest (List.Forall₂ Expr.ReadAs es) := by
  induction es generalizing ts k with
  | nil =>
    cases hts
    exact (accepts_atoms_nil hrest k).mono (by rintro _ rfl; exact .nil)
  | cons e es ih =>
    obtain ⟨k, rfl⟩ := Nat.exists_eq_succ_of_ne_zero (Nat.ne_of_gt (Nat.zero_lt_of_lt hk))
    obtain ⟨mid, he, hes'⟩ := spells_append.mp hts
    have hatom := accepts_atom_enclosed hself (hes e List.mem_cons_self) hn he
    have hmid : mid.length ≤ n := by
      have := he.length
      omega
    refine accepts_peek.bind fun o ho => ?_
    subst ho
    obtain ⟨t, us, rfl, ht, -⟩ := he
    have ht : t.lexeme = .fixed .lparen := ht
    rw [List.head?_cons]
    dsimp only
    rw [ht, if_pos (show startsAtom (.fixed .lparen) = true from rfl)]
    exact hatom.bind fun x hx => (ih (fun y hy => hes y (List.mem_cons_of_mem _ hy)) hmid hes'
      (Nat.le_of_succ_le_succ hk)).bind fun xs hxs => accepts_pure (.cons hx hxs)

/-- An atom alone is applied to nothing. -/
theorem accepts_application (h : Accepts (atom self) ts rest Q)
    (hrest : Heads (startsAtom · = false) rest) : Accepts (application self) ts rest Q := by
  refine h.bind fun x hx => (accepts_remaining (accepts_atoms_nil hrest _)).bind fun xs hxs => ?_
  subst hxs
  exact accepts_pure hx

/-- An application alone is the operand of no operator in front. -/
theorem accepts_operandRule (h : Accepts (application self) ts rest Q)
    (hts : Heads (unaryOp? · = none) ts) : Accepts (operandRule self) ts rest Q := by
  refine accepts_peek.bind fun o ho => ?_
  subst ho
  split
  · exact h
  · next t ht =>
    rw [hts t ht]
    exact h

theorem accepts_operators_nil (hrest : Heads (binaryOp? · = none) rest) (least k : Nat) {x : Expr}
    (hx : Q x) : Accepts (operators self least k x) rest rest Q := by
  cases k with
  | zero => exact accepts_pure hx
  | succ k =>
    refine accepts_peek.bind fun o ho => ?_
    subst ho
    split
    · exact accepts_pure hx
    · next t ht =>
      rw [hrest t ht]
      exact accepts_pure hx

/-- An operand alone is the operand of no operator behind. -/
theorem accepts_binaryRule (h : Accepts (operandRule self) ts rest Q)
    (hrest : Heads (binaryOp? · = none) rest) (least : Nat) :
    Accepts (binaryRule self least) ts rest Q :=
  h.bind fun x hx => accepts_remaining (p := fun k => operators self least k x)
    (accepts_operators_nil hrest least _ hx)

theorem accepts_exprRule (h : Accepts (binaryRule self 1) ts rest Q)
    (hts : Heads (startsForm · = false) ts) (d : Bool) :
    Accepts (exprRule self (.expr d)) ts rest Q := by
  refine accepts_peek.bind fun o ho => ?_
  subst ho
  cases hhead : ts.head? with
  | none => exact h
  | some t =>
    have hform (f : Fixed) (hf : startsForm (.fixed f) = true) :
        (some t).map Token.lexeme ≠ some (.fixed f) := by
      intro heq
      have ht := hts t hhead
      rw [Option.some.inj heq, hf] at ht
      cases ht
    split
    · next heq => exact absurd heq (hform _ rfl)
    · next heq => exact absurd heq (hform _ rfl)
    · next heq => exact absurd heq (hform _ rfl)
    · next heq => exact absurd heq (hform _ rfl)
    · exact h

/-- What an atom alone is read as in the place of any goal. -/
theorem accepts_goal (h : Accepts (atom self) ts rest Q)
    (hts : Heads (fun l => unaryOp? l = none ∧ startsForm l = false) ts)
    (hrest : Heads EndsOperand rest) (g : Goal) : Accepts (exprRule self g) ts rest Q := by
  have hoperand := accepts_operandRule (accepts_application h (hrest.mono fun _ h => h.1))
    (hts.mono fun _ h => h.1)
  have hbinary := accepts_binaryRule hoperand (hrest.mono fun _ h => h.2)
  cases g with
  | operand => exact hoperand
  | binary least => exact hbinary least
  | expr d => exact accepts_exprRule (hbinary 1) (hts.mono fun _ h => h.2) d

theorem accepts_unary (hself : ExprsBelow n self) {d : Bool} {op : UnaryOp} {e : Expr} {m : Mark}
    (he : e.Denotable false) (hn : ts.length ≤ n)
    (hts : Spells ((Expr.unary op e m).pieces d) ts rest) (hrest : Heads EndsExpr rest) :
    Accepts (exprRule self (.expr d)) ts rest (Expr.unary op e m).ReadAs := by
  obtain ⟨t, us, rfl, ht, he'⟩ := hts
  have ht : t.lexeme = .fixed op.fixed := ht
  have hend : Heads EndsOperand rest := hrest.mono fun _ h => h.operand
  have hoperand : Accepts (operandRule self) (t :: us) rest (Expr.unary op e m).ReadAs := by
    refine accepts_peek.bind fun o ho => ?_
    subst ho
    have hop : unaryOp? t.lexeme = some op := by
      rw [ht]
      cases op <;> rfl
    rw [List.head?_cons]
    dsimp only
    rw [hop]
    refine accepts_skip.bind fun _ _ =>
      (hself.enclosed .operand e he us rest hn he' hend).bind fun x hx => accepts_pure ?_
    exact congrArg (Expr.unary op · {}) hx
  exact accepts_exprRule (accepts_binaryRule hoperand (hend.mono fun _ h => h.2) 1)
    (heads_cons ht (by cases op <;> rfl)) d

theorem accepts_operators (hself : ExprsBelow n self) {op : BinaryOp} {r x : Expr} {t : Token}
    {us : List Token} (hr : r.Denotable false) (hn : us.length < n)
    (ht : t.lexeme = .fixed op.fixed) (hus : Spells (parens (r.pieces false)) us rest)
    (hrest : Heads EndsOperand rest)
    (hQ : ∀ (y : Expr) (s : Span), r.ReadAs y → Q (.binary op x y { span := s })) (k : Nat) :
    Accepts (operators self 1 (k + 1) x) (t :: us) rest Q := by
  refine accepts_peek.bind fun o ho => ?_
  subst ho
  have hop : binaryOp? t.lexeme = some op := by
    rw [ht]
    cases op <;> rfl
  have hright : Accepts (rightOperand self op) us rest r.ReadAs := by
    have henclosed := hself.enclosed (.binary op.rightLevel) r hr us rest hn hus hrest
    obtain ⟨u, vs, rfl, hu, -⟩ := hus
    have hu : u.lexeme = .fixed .lparen := hu
    refine accepts_peek.bind fun o ho => ?_
    subst ho
    rw [List.head?_cons]
    dsimp only
    rw [hu, if_neg (by decide)]
    exact henclosed
  rw [List.head?_cons]
  dsimp only
  rw [hop]
  dsimp only
  rw [if_neg (by cases op <;> decide)]
  exact accepts_skip.bind fun _ _ => hright.bind fun y hy =>
    accepts_operators_nil (hrest.mono fun _ h => h.2) 1 k (hQ y _ hy)

theorem accepts_binary (hself : ExprsBelow n self) {d : Bool} {op : BinaryOp} {l r : Expr} {m : Mark}
    (hl : l.Denotable false) (hr : r.Denotable false) (hn : ts.length ≤ n)
    (hts : Spells ((Expr.binary op l r m).pieces d) ts rest) (hrest : Heads EndsExpr rest) :
    Accepts (exprRule self (.expr d)) ts rest (Expr.binary op l r m).ReadAs := by
  obtain ⟨mid, hl', t, us, rfl, ht, hr'⟩ := spells_append.mp hts
  have ht : t.lexeme = .fixed op.fixed := ht
  have hlen := hl'.length
  rw [List.length_cons] at hlen
  have hleft := accepts_operandRule
    (accepts_application (accepts_atom_enclosed hself hl hn hl')
      (heads_cons ht (by cases op <;> rfl)))
    ((heads_parens hl').mono fun _ h => h.1)
  refine accepts_exprRule (hleft.bind fun x hx => ?_) ((heads_parens hl').mono fun _ h => h.2) d
  refine accepts_remaining (p := fun k => operators self 1 k x)
    (accepts_operators hself hr (by omega) ht hr' (hrest.mono fun _ h => h.operand)
      (fun y s hy => ?_) us.length)
  exact congrArg₂ (Expr.binary op · · {}) hx hy

theorem length_le_flatMap {β : Type} {f : β → List Piece} (hf : ∀ x, 0 < (f x).length)
    (xs : List β) : xs.length ≤ (xs.flatMap f).length := by
  induction xs with
  | nil => exact Nat.le_refl _
  | cons x xs ih =>
    have := hf x
    rw [List.flatMap_cons, List.length_append, List.length_cons]
    omega

theorem accepts_app (hself : ExprsBelow n self) {d : Bool} {f : Expr} {es : List Expr} {m : Mark}
    (hf : f.Denotable false) (hne : es ≠ []) (hes : ∀ e ∈ es, e.Denotable false)
    (hn : ts.length ≤ n) (hts : Spells ((Expr.app f es m).pieces d) ts rest)
    (hrest : Heads EndsExpr rest) :
    Accepts (exprRule self (.expr d)) ts rest (Expr.app f es m).ReadAs := by
  obtain ⟨mid, hf', hes'⟩ := spells_append.mp hts
  rw [Expr.piecesAll_eq, List.flatMap_map] at hes'
  have hend : Heads EndsOperand rest := hrest.mono fun _ h => h.operand
  have happ : Accepts (application self) ts rest (Expr.app f es m).ReadAs := by
    have hmid : mid.length ≤ n := by
      have := hf'.length
      omega
    have hcount : es.length ≤ mid.length := by
      have := length_le_flatMap (f := fun e : Expr => parens (e.pieces false))
        (fun _ => Nat.succ_pos _) es
      have := hes'.length
      omega
    have hargs : Accepts (fun c => atoms self c.remaining c) mid rest (List.Forall₂ Expr.ReadAs es) :=
      accepts_remaining (accepts_atoms hself hes (hend.mono fun _ h => h.1) hmid hes' hcount)
    refine (accepts_atom_enclosed hself hf hn hf').bind fun x hx => hargs.bind fun xs hxs => ?_
    split
    · next hlast =>
      rw [List.getLast?_eq_none_iff.mp hlast] at hxs
      cases hxs
      exact absurd rfl hne
    · exact accepts_pure (congrArg₂ (Expr.app · · {}) hx (readAs_list hxs))
  exact accepts_exprRule (accepts_binaryRule
    (accepts_operandRule happ ((heads_parens hf').mono fun _ h => h.1)) (hend.mono fun _ h => h.2) 1)
    ((heads_parens hf').mono fun _ h => h.2) d

end Operand

/-! ## Forms -/

section Form

variable {self : Self} {n : Nat} {d : Bool} {t : Token} {ts us rest : List Token} {Q : Expr → Prop}

/-- The rule that a keyword leads to; other lexemes lead to operations. -/
def formRule (self : Self) (d : Bool) : Fixed → Parser Expr
  | .let_ => letRule self d
  | .fun_ => funRule self d
  | .if_ => ifRule self
  | .match_ => matchRule self
  | _ => binaryRule self 1

theorem accepts_form {f : Fixed} (ht : t.lexeme = .fixed f)
    (h : Accepts (formRule self d f) (t :: us) rest Q) :
    Accepts (exprRule self (.expr d)) (t :: us) rest Q := by
  refine accepts_peek.bind fun o ho => ?_
  subst ho
  rw [List.head?_cons, Option.map_some, ht]
  cases f <;> exact h

/-- What a part that may be missing is read as. -/
def ReadAsOption (o x : Option Expr) : Prop :=
  Expr.mapMarksOption Mark.unplaced x = Expr.mapMarksOption (fun _ => {}) o

theorem readAsOption_none : ReadAsOption none none := rfl

theorem readAsOption_some {e x : Expr} (h : e.ReadAs x) : ReadAsOption (some e) (some x) :=
  congrArg some h

/-- The annotation behind a colon, if there is one. -/
theorem accepts_annotation {p : Parser Hint} {o : Option Hint} {pieces : Hint → List Piece}
    (hrest : Heads (· ≠ .fixed .colon) rest)
    (hp : ∀ h ∈ o, ∀ us, Spells (pieces h) us rest → Accepts p us rest (· = h))
    (hts : Spells (behind .colon (o.map pieces)) ts rest) :
    Accepts (optional (token .colon *> p)) ts rest (· = o) := by
  cases o with
  | none =>
    cases hts
    exact (refuses_token hrest).bind.optional
  | some h =>
    obtain ⟨t, us, rfl, ht, hh⟩ := hts
    refine ((accepts_token ht).seqRight (hp h rfl us hh)).optional.mono ?_
    rintro _ ⟨g, rfl, hg⟩
    exact congrArg some hg

theorem accepts_letBody (hself : ExprsBelow n self) {b : Option Expr}
    (hb : ∀ e ∈ b, e.Denotable true) (hd : b = none → d = true) (hn : ts.length ≤ n)
    (hrest : Heads EndsExpr rest) (hts : Spells (behind .in_ (Expr.piecesOption true b)) ts rest) :
    Accepts (letBody self d) ts rest (ReadAsOption b) := by
  cases b with
  | none =>
    cases hts
    rw [hd rfl]
    refine (accepts_nextIs_not (hrest.mono fun _ h => h.ne .in_ (by decide))).bind fun b hb => ?_
    subst hb
    exact accepts_pure rfl
  | some e =>
    obtain ⟨t, us, rfl, ht, he⟩ := hts
    have hread : Accepts (do let _ ← token .in_; return some (← self (.expr true))) (t :: us) rest
        (ReadAsOption (some e)) :=
      (accepts_token ht).bind fun _ _ => (hself.whole true e (hb e rfl) us rest hn he hrest).bind
        fun x hx => accepts_pure (readAsOption_some hx)
    cases d with
    | false => exact hread
    | true =>
      refine (accepts_nextIs .in_ ht).bind fun b hb => ?_
      subst hb
      exact hread

theorem accepts_funRest (hself : ExprsBelow n self) {r : Option Expr}
    (hr : ∀ e ∈ r, e.Denotable true) (hn : ts.length ≤ n) (hrest : Heads EndsExpr rest)
    (hts : Spells (behind .in_ (Expr.piecesOption true r)) ts rest) :
    Accepts (funRest self true) ts rest (ReadAsOption r) := by
  cases r with
  | none =>
    cases hts
    refine (accepts_nextIs_not (hrest.mono fun _ h => h.ne .in_ (by decide))).bind fun b hb => ?_
    subst hb
    exact accepts_pure rfl
  | some e =>
    obtain ⟨t, us, rfl, ht, he⟩ := hts
    refine (accepts_nextIs .in_ ht).bind fun b hb => ?_
    subst hb
    exact accepts_skip.bind fun _ _ => (hself.whole true e (hr e rfl) us rest hn he hrest).bind
      fun x hx => accepts_pure (readAsOption_some hx)

/-- What may follow a part in parentheses. -/
theorem heads_behind {f : Fixed} {o : Option (List Piece)} (hf : EndsOperand (.fixed f))
    (hrest : Heads EndsExpr rest) (hts : Spells (behind f o) ts rest) : Heads EndsOperand ts := by
  cases o with
  | none =>
    cases hts
    exact hrest.mono fun _ h => h.operand
  | some ps =>
    obtain ⟨t, us, rfl, ht, -⟩ := hts
    exact heads_cons ht hf

theorem readAs_bind {x y : Name} {h : Option Hint} {v w : Expr} {b c : Option Expr} {m : Mark}
    {s : Span} (hy : x.ReadAs y) (hw : v.ReadAs w) (hc : ReadAsOption b c) :
    (Expr.bind x h v b m).ReadAs (.bind y h w c { span := s }) := by
  unfold Name.ReadAs at hy
  unfold Expr.ReadAs Expr.unplaced Expr.bare at hw ⊢
  unfold ReadAsOption at hc
  rw [Expr.mapMarks, Expr.mapMarks, hy, hw, hc]
  rfl

theorem accepts_let (hself : ExprsBelow n self) {x : Name} {h : Option Hint} {v : Expr}
    {b : Option Expr} {m : Mark} (hh : ∀ g ∈ h, g.Denotable) (hv : v.Denotable false)
    (hb : ∀ e ∈ b, e.Denotable true) (hd : b = none → d = true) (hn : ts.length ≤ n)
    (hts : Spells ((Expr.bind x h v b m).pieces d) ts rest) (hrest : Heads EndsExpr rest) :
    Accepts (exprRule self (.expr d)) ts rest (Expr.bind x h v b m).ReadAs := by
  obtain ⟨t, us, rfl, ht, hts⟩ := hts
  obtain ⟨us₁, hname, hts⟩ := spells_append.mp hts
  obtain ⟨us₂, hhint, u, us₃, rfl, hu, hts⟩ := spells_append.mp hts
  obtain ⟨us₄, hvalue, hbody⟩ := spells_append.mp hts
  have hlen : us₃.length < n ∧ us₄.length ≤ n := by
    have h₁ := hname.length
    have h₂ := hhint.length
    have h₃ := hvalue.length
    simp only [List.length_cons] at hn h₂
    omega
  have hannotation := accepts_annotation (p := Grammar.hint) (heads_cons hu nofun)
    (fun g hg vs hvs => hintsBelow_hint _ g (hh g hg) vs _ (Nat.lt_succ_self _) hvs
      (heads_cons hu ⟨nofun, nofun⟩)) hhint
  refine accepts_form ht ((accepts_token ht).bind fun _ _ =>
    ((accepts_name hname).label _).bind fun y hy => hannotation.bind fun g hg =>
      (accepts_token hu).bind fun _ _ =>
        (hself.enclosed (.expr false) v hv us₃ us₄ hlen.1 hvalue
          (heads_behind ⟨rfl, rfl⟩ hrest hbody)).bind fun w hw =>
          (accepts_letBody hself hb hd hlen.2 hrest hbody).bind fun c hc => accepts_pure ?_)
  subst hg
  exact readAs_bind hy hw hc

theorem accepts_cond (hself : ExprsBelow n self) {c y : Expr} {o : Option Expr} {m : Mark}
    (hc : c.Denotable false) (hy : y.Denotable false) (ho : ∀ e ∈ o, e.Denotable false)
    (hn : ts.length ≤ n) (hts : Spells ((Expr.cond c y o m).pieces d) ts rest)
    (hrest : Heads EndsExpr rest) :
    Accepts (exprRule self (.expr d)) ts rest (Expr.cond c y o m).ReadAs := by
  obtain ⟨t, us, rfl, ht, hts⟩ := hts
  obtain ⟨us₁, htest, u, us₂, rfl, hu, hts⟩ := spells_append.mp hts
  obtain ⟨us₃, hyes, hno⟩ := spells_append.mp hts
  have hlen : us.length < n ∧ us₂.length < n ∧ us₃.length ≤ n := by
    have h₁ := htest.length
    have h₂ := hyes.length
    simp only [List.length_cons] at hn h₁
    omega
  have htest := hself.enclosed (.expr false) c hc us _ hlen.1 htest (heads_cons hu ⟨rfl, rfl⟩)
  have hyes := hself.enclosed (.expr false) y hy us₂ us₃ hlen.2.1 hyes
    (heads_behind ⟨rfl, rfl⟩ hrest hno)
  refine accepts_form ht ((accepts_token ht).bind fun _ _ => htest.bind fun c' hc' =>
    (accepts_token hu).bind fun _ _ => hyes.bind fun y' hy' => ?_)
  have hread {o' : Option Expr} (ho' : ReadAsOption o o') (s : Span) :
      (Expr.cond c y o m).ReadAs (.cond c' y' o' { span := s }) := by
    unfold Expr.ReadAs Expr.unplaced Expr.bare at hc' hy' ⊢
    unfold ReadAsOption at ho'
    rw [Expr.mapMarks, Expr.mapMarks, hc', hy', ho']
    rfl
  cases o with
  | none =>
    cases hno
    refine (accepts_nextIs_not (hrest.mono fun _ h => h.ne .else_ (by decide))).bind fun b hb => ?_
    subst hb
    exact accepts_pure (hread readAsOption_none _)
  | some e =>
    obtain ⟨v, us₄, rfl, hv, he⟩ := hno
    have hlen' : us₄.length < n := by
      have := hlen.2.2
      rw [List.length_cons] at this
      omega
    have helse := hself.enclosed (.expr false) e (ho e rfl) us₄ rest hlen' he
      (hrest.mono fun _ h => h.operand)
    refine (accepts_nextIs .else_ hv).bind fun b hb => ?_
    subst hb
    exact (accepts_token hv).bind fun _ _ => helse.bind fun e' he' =>
      accepts_pure (hread (readAsOption_some he') _)

/-- What an alternative is read as. -/
def Arm.ReadAs (a b : Arm) : Prop := b.mapMarks Mark.unplaced = a.mapMarks fun _ => {}

theorem accepts_arm (hself : ExprsBelow n self) {a : Arm} (hp : a.pattern.Denotable)
    (he : a.body.Denotable false) (hn : ts.length ≤ n) (hts : Spells (Expr.armPieces a) ts rest)
    (hrest : Heads EndsOperand rest) : Accepts (arm self) ts rest a.ReadAs := by
  obtain ⟨mid, hpattern, t, us, rfl, ht, hbody⟩ := spells_append.mp hts
  have hlen : us.length < n := by
    have := hpattern.length
    rw [List.length_cons] at this
    omega
  have hpattern := patternsBelow_pattern (ts.length + 1) a.pattern hp ts _ (Nat.lt_succ_self _) hpattern
  have hbody := hself.enclosed (.expr false) a.body he us rest hlen hbody hrest
  refine hpattern.bind fun q hq => ((accepts_token ht).seqRight hbody).bind fun x hx =>
    accepts_pure ?_
  exact congrArg₂ (Arm.mk · · {}) hq hx

theorem readAs_arms {as bs : List Arm} (h : List.Forall₂ Arm.ReadAs as bs) :
    Expr.mapMarksArms Mark.unplaced bs = Expr.mapMarksArms (fun _ => {}) as := by
  rw [Expr.mapMarksArms_eq, Expr.mapMarksArms_eq]
  induction h with
  | nil => rfl
  | cons ha _ ih => exact congrArg₂ List.cons ha ih

theorem accepts_match (hself : ExprsBelow n self) {e : Expr} {as : List Arm} {m : Mark}
    (he : e.Denotable false) (hne : as ≠ []) (hps : ∀ a ∈ as, a.pattern.Denotable)
    (has : ∀ a ∈ as, a.body.Denotable false) (hn : ts.length ≤ n)
    (hts : Spells ((Expr.cases e as m).pieces d) ts rest) (hrest : Heads EndsExpr rest) :
    Accepts (exprRule self (.expr d)) ts rest (Expr.cases e as m).ReadAs := by
  obtain ⟨t, us, rfl, ht, hts⟩ := hts
  obtain ⟨us₁, hscrutinee, u, us₂, rfl, hu, harms⟩ := spells_append.mp hts
  rw [Expr.piecesArms_eq] at harms
  have hlen : us.length < n ∧ us₂.length ≤ n := by
    have h₁ := hscrutinee.length
    simp only [List.length_cons] at hn h₁
    omega
  have hpipe : Heads (· ≠ .fixed .pipe) us₂ := by
    obtain ⟨a, as, rfl⟩ := List.exists_cons_of_ne_nil hne
    obtain ⟨mid, ha, -⟩ := spells_append.mp harms
    obtain ⟨mid', hp, -⟩ := spells_append.mp ha
    exact (heads_pattern hp).mono fun _ h => h.2
  have hscrutinee := hself.enclosed (.expr false) e he us _ hlen.1 hscrutinee
    (heads_cons hu ⟨rfl, rfl⟩)
  have harms := accepts_separated (p := arm self) (Q := Arm.ReadAs) (f := .pipe) (P := EndsOperand)
    hne ⟨rfl, rfl⟩ (hrest.mono fun _ h => h.operand)
    (hrest.mono fun _ h => h.ne .pipe (by decide))
    (fun a ha vs mid hvs ha' hmid => accepts_arm hself (hps a ha) (has a ha)
      (Nat.le_trans hvs hlen.2) ha' hmid) harms
  refine accepts_form ht ((accepts_token ht).bind fun _ _ => hscrutinee.bind fun x hx =>
    (accepts_token hu).bind fun _ _ => (refuses_token hpipe).optional.bind fun _ _ =>
      harms.bind fun bs hbs => accepts_pure ?_)
  exact congrArg₂ (Expr.cases · · {}) hx (readAs_arms hbs)

theorem Hint.Denotable.split {g : Hint} (hg : g.Denotable) (k : Nat) :
    (∀ a ∈ (g.split k).1, a.Denotable) ∧ (g.split k).2.Denotable := by
  induction k generalizing g with
  | zero => cases hg <;> exact ⟨nofun, by constructor <;> assumption⟩
  | succ k ih =>
    cases hg with
    | fn ha hb => exact ⟨List.forall_mem_cons.mpr ⟨ha, (ih hb).1⟩, (ih hb).2⟩
    | _ => exact ⟨nofun, by constructor <;> assumption⟩

/-- The parameters of a function in front of its body. -/
theorem accepts_params {xs : List (Pattern × Option Hint)} (hne : xs ≠ [])
    (hxs : ∀ x ∈ xs, ParamDenotable x)
    (hrest : Heads (· ∈ [Lexeme.fixed .colon, .fixed .arrow]) rest)
    (hts : Spells (xs.flatMap paramPieces) ts rest) :
    Accepts (label "parameter" (many1 param)) ts rest (List.Forall₂ ParamReadAs xs) := by
  cases row_params hxs hrest hts with
  | nil => exact absurd rfl hne
  | cons hx _ hrow => exact (accepts_many1 hx hrow).label _

theorem paramShares_denotable {ps : List Pattern} {h : Option Hint} (hps : ∀ p ∈ ps, p.Denotable)
    (hsig : Signature ps h) : ∀ x ∈ paramShares ps h, ParamDenotable x := by
  intro x hx
  cases h with
  | none =>
    obtain ⟨p, hp, rfl⟩ := List.mem_map.mp hx
    exact ⟨hps p hp, nofun⟩
  | some g =>
    obtain ⟨p, o⟩ := x
    obtain ⟨hp, ho⟩ := List.of_mem_zip hx
    obtain ⟨a, ha, rfl⟩ := List.mem_map.mp ho
    exact ⟨hps p hp, fun b hb => by
      cases hb
      exact ((hsig g rfl).1.split ps.length).1 a ha⟩

theorem accepts_resultHint {ps : List Pattern} {h : Option Hint} (hsig : Signature ps h)
    {u : Token} (hu : u.lexeme = .fixed .arrow)
    (hts : Spells (resultPieces (resultShare ps h)) ts (u :: us)) :
    Accepts (optional (token .colon *> Grammar.resultHint)) ts (u :: us) (· = resultShare ps h) := by
  refine accepts_annotation (heads_cons hu nofun) (fun g hg vs hvs => ?_) hts
  obtain ⟨k, hk, rfl⟩ := Option.map_eq_some_iff.mp hg
  exact accepts_hintProduct (hintsBelow_hint vs.length) ((hsig k hk).1.split ps.length).2
    (Nat.le_refl _) (heads_cons hu nofun) hvs

/-- What the name of a function is read as, if it has one. -/
def NameReadAs (o o' : Option Name) : Prop :=
  (o'.map fun n => ({ n with mark := n.mark.unplaced } : Name)) = o.map fun n => { n with mark := {} }

/-- The parameters that a function is printed with: its name stands in front. -/
def printedParams (o : Option Name) (ps : List Pattern) (h : Option Hint) :
    List (Pattern × Option Hint) :=
  o.toList.map (fun n => (.ident n, none)) ++ paramShares ps h

theorem printedParams_ne_nil {o : Option Name} {ps : List Pattern} {h : Option Hint} (hne : ps ≠ [])
    (hsig : Signature ps h) : printedParams o ps h ≠ [] := by
  have hshares : paramShares ps h ≠ [] := fun heq => hne (by
    rw [← map_fst_paramShares hsig, heq]
    rfl)
  exact List.append_ne_nil_of_right_ne_nil _ hshares

theorem printedParams_denotable {o : Option Name} {ps : List Pattern} {h : Option Hint}
    (hps : ∀ p ∈ ps, p.Denotable) (hsig : Signature ps h) :
    ∀ x ∈ printedParams o ps h, ParamDenotable x := by
  intro x hx
  rcases List.mem_append.mp hx with hname | hshare
  · obtain ⟨n, -, rfl⟩ := List.mem_map.mp hname
    exact ⟨.ident n, nofun⟩
  · exact paramShares_denotable hps hsig x hshare

theorem heads_resultPieces {o : Option Hint} {u : Token} (hu : u.lexeme = .fixed .arrow)
    (hts : Spells (resultPieces o) ts (u :: us)) :
    Heads (· ∈ [Lexeme.fixed .colon, .fixed .arrow]) ts := by
  cases o with
  | none =>
    cases hts
    exact heads_cons hu (List.mem_cons_of_mem _ List.mem_cons_self)
  | some h =>
    obtain ⟨t, vs, rfl, ht, -⟩ := hts
    exact heads_cons ht List.mem_cons_self

/-- The name is split from the parameters, in the place of a declaration. -/
theorem splitName_printedParams {o : Option Name} {ps : List Pattern} {h : Option Hint}
    (hne : ps ≠ []) (hsig : Signature ps h) {qs : List (Pattern × Option Hint)}
    (hqs : List.Forall₂ ParamReadAs (printedParams o ps h) qs) :
    ∃ o' qs', (if o.isSome then splitName qs else (none, qs)) = (o', qs') ∧ NameReadAs o o' ∧
      o'.isSome = o.isSome ∧ List.Forall₂ ParamReadAs (paramShares ps h) qs' := by
  cases o with
  | none => exact ⟨none, qs, rfl, rfl, rfl, hqs⟩
  | some n =>
    obtain ⟨⟨p, o⟩, qs, ⟨hp, ho⟩, hshares, rfl⟩ := List.forall₂_cons_left_iff.mp hqs
    replace hshares : List.Forall₂ ParamReadAs (paramShares ps h) qs := hshares
    obtain ⟨n', rfl⟩ : ∃ n', p = .ident n' := by
      cases p with
      | ident n' => exact ⟨n', rfl⟩
      | _ => cases hp
    obtain rfl : o = none := ho
    have hlen : qs.length = ps.length := by
      rw [← hshares.length_eq, ← List.length_map (f := Prod.fst), map_fst_paramShares hsig]
    obtain ⟨q, qs, rfl⟩ := List.exists_cons_of_length_pos (hlen ▸ List.length_pos_of_ne_nil hne)
    exact ⟨some n', q :: qs, rfl, congrArg some (Pattern.ident.inj hp), rfl, hshares⟩

theorem map_snd_of_readAs {xs qs : List (Pattern × Option Hint)}
    (h : List.Forall₂ ParamReadAs xs qs) : qs.map Prod.snd = xs.map Prod.snd := by
  induction h with
  | nil => rfl
  | cons hq _ ih => exact congrArg₂ List.cons hq.2 ih

theorem readAs_lam {o o' : Option Name} {ps : List Pattern} {h : Option Hint} {b x : Expr}
    {r c : Option Expr} {m : Mark} {s : Span} {qs : List (Pattern × Option Hint)}
    (hsig : Signature ps h) (ho : NameReadAs o o')
    (hqs : List.Forall₂ ParamReadAs (paramShares ps h) qs) (hx : b.ReadAs x)
    (hc : ReadAsOption r c) :
    (Expr.lam o ps h b r m).ReadAs
      (.lam o' (qs.map Prod.fst) (Hint.ofFunction (qs.map Prod.snd) (resultShare ps h)) x c
        { span := s }) := by
  have hfst : List.Forall₂ Pattern.ReadAs ps (qs.map Prod.fst) := by
    rw [← map_fst_paramShares hsig, List.forall₂_map_left_iff, List.forall₂_map_right_iff]
    exact hqs.imp fun _ _ h => h.1
  unfold NameReadAs at ho
  unfold Expr.ReadAs Expr.unplaced Expr.bare at hx ⊢
  unfold ReadAsOption at hc
  rw [map_snd_of_readAs hqs, ofFunction_paramShares hsig, Expr.mapMarks, Expr.mapMarks, ho,
    readAs_items hfst, hx, hc]
  rfl

/-- A function as it is printed where its name, if it has one, can be told from its
parameters. -/
theorem accepts_fun (hself : ExprsBelow n self) {o : Option Name} {ps : List Pattern}
    {h : Option Hint} {b : Expr} {r : Option Expr} {m : Mark} (hne : ps ≠ [])
    (hps : ∀ p ∈ ps, p.Denotable) (hsig : Signature ps h) (hb : b.Denotable false)
    (hr : ∀ e ∈ r, e.Denotable true) (ho : o = none → r = none) (hn : ts.length ≤ n)
    (hts : Spells (.fixed .fun_ :: ((printedParams o ps h).flatMap paramPieces ++
      (resultPieces (resultShare ps h) ++ .fixed .arrow ::
        (parens (b.pieces false) ++ behind .in_ (Expr.piecesOption true r))))) ts rest)
    (hrest : Heads EndsExpr rest) :
    Accepts (exprRule self (.expr o.isSome)) ts rest (Expr.lam o ps h b r m).ReadAs := by
  obtain ⟨t, us, rfl, ht, hts⟩ := hts
  obtain ⟨us₁, hparams, hts⟩ := spells_append.mp hts
  obtain ⟨us₂, hresult, u, us₃, rfl, hu, hts⟩ := spells_append.mp hts
  obtain ⟨us₄, hbody, htail⟩ := spells_append.mp hts
  have hlen : us₃.length < n ∧ us₄.length ≤ n := by
    have h₁ := hparams.length
    have h₂ := hresult.length
    have h₃ := hbody.length
    simp only [List.length_cons] at hn h₂
    omega
  have hparams := accepts_params (printedParams_ne_nil hne hsig) (printedParams_denotable hps hsig)
    (heads_resultPieces hu hresult) hparams
  have hresult := accepts_resultHint hsig hu hresult
  have hbody := hself.enclosed (.expr false) b hb us₃ us₄ hlen.1 hbody
    (heads_behind ⟨rfl, rfl⟩ hrest htail)
  refine accepts_form ht ((accepts_token ht).bind fun _ _ => hparams.bind fun qs hqs =>
    hresult.bind fun g hg => (accepts_token hu).bind fun _ _ => hbody.bind fun x hx => ?_)
  subst hg
  obtain ⟨o', qs', hsplit, ho', hsome, hqs'⟩ := splitName_printedParams hne hsig hqs
  have hread : Accepts (funRest self o'.isSome) us₄ rest (ReadAsOption r) := by
    rw [hsome]
    cases o with
    | none =>
      obtain rfl := ho rfl
      cases htail
      exact accepts_pure readAsOption_none
    | some x => exact accepts_funRest hself hr hlen.2 hrest htail
  rw [hsplit]
  exact hread.bind fun c hc => accepts_pure (readAs_lam hsig ho' hqs' hx hc)

end Form

/-! ## Expressions -/

/-- A token with a value begins no form, and it is no operator. -/
theorem literal_atom {l : Lexeme} {r : Except FaultCause Literal} (h : literal? l = some r) :
    unaryOp? l = none ∧ startsForm l = false := by
  cases l with
  | word c s => exact ⟨rfl, rfl⟩
  | fixed f =>
    cases f
    case true_ => exact ⟨rfl, rfl⟩
    case false_ => exact ⟨rfl, rfl⟩
    all_goals cases h

theorem heads_const {l : Literal} {ts rest : List Token} (hts : Spells l.pieces ts rest) :
    Heads (fun l => unaryOp? l = none ∧ startsForm l = false) ts := by
  cases l with
  | unit => exact heads_parens hts
  | _ =>
    obtain ⟨t, us, rfl, ht, -⟩ := hts
    exact heads_cons rfl (literal_atom ht)

theorem exprsBelow_rule {self : Self} {n : Nat} (hself : ExprsBelow n self) :
    ExprsBelow (n + 1) (exprRule self) where
  enclosed := fun g e he ts rest hn hts hrest =>
    accepts_goal (accepts_atom_enclosed hself he (Nat.le_of_lt_succ hn) hts) (heads_parens hts)
      hrest g
  whole := fun d e he ts rest hn hts hrest => by
    have hn := Nat.le_of_lt_succ hn
    have hend : Heads EndsOperand rest := hrest.mono fun _ h => h.operand
    cases he with
    | const l m => exact accepts_goal (accepts_atom_const hts) (heads_const hts) hend _
    | ident x =>
      refine accepts_goal (accepts_atom_ident hts) ?_ hend _
      obtain ⟨t, us, rfl, ht, -⟩ := hts
      exact heads_cons ht ⟨rfl, rfl⟩
    | tuple m hlen hes =>
      exact accepts_goal (accepts_atom_tuple hself hlen hes hn hts) (heads_parens hts) hend _
    | unary op m he => exact accepts_unary hself he hn hts hrest
    | binary op m hl hr => exact accepts_binary hself hl hr hn hts hrest
    | app m hf hne hes => exact accepts_app hself hf hne hes hn hts hrest
    | cond m hc hy ho => exact accepts_cond hself hc hy ho hn hts hrest
    | cases m he hne hps has => exact accepts_match hself he hne hps has hn hts hrest
    | bind x m hh hv hb hd => exact accepts_let hself hh hv hb hd hn hts hrest
    | @lam _ ps h b m hne hps hsig hb =>
      cases d with
      | true =>
        exact accepts_goal (accepts_atom_enclosed hself (.lam m hne hps hsig hb) hn hts)
          (heads_parens hts) hend _
      | false =>
        refine accepts_fun (o := none) (r := none) hself hne hps hsig hb nofun (fun _ => rfl) hn ?_ hrest
        simpa [Expr.pieces, Expr.piecesOption, printedParams, parensIf, behind] using hts
    | @named x ps h b r m hne hps hsig hb hr =>
      refine accepts_fun (o := some x) hself hne hps hsig hb hr nofun hn ?_ hrest
      simpa [Expr.pieces, Pattern.pieces, printedParams, paramPieces] using hts

theorem exprsBelow_unroll (n : Nat) : ExprsBelow n (unroll exprRule n) := by
  induction n with
  | zero =>
    exact ⟨fun _ _ _ _ _ hn => absurd hn (Nat.not_lt_zero _),
      fun _ _ _ _ _ hn => absurd hn (Nat.not_lt_zero _)⟩
  | succ n ih => exact exprsBelow_rule ih

/-- The parser of declarations reads what is printed for one. -/
theorem accepts_declaration {e : Expr} {ts rest : List Token} (he : e.Denotable true)
    (hts : Spells (e.pieces true) ts rest) (hrest : Heads EndsExpr rest) :
    Accepts Grammar.declaration ts rest e.ReadAs :=
  accepts_recursive fun n hn => (exprsBelow_unroll n).whole true e he ts rest hn hts hrest

end MiniML
