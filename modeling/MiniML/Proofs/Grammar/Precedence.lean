import MiniML.Proofs.Grammar.PairedRules
import MiniML.Proofs.Tree.Grouping
import Mathlib.Data.List.Induction

/-!
# Precedence

Operands with operators between them are read to the tree in which the operators are
grouped.

An operand is read up to the next token that starts no atom, whatever that is: its
parentheses are read up to their counterparts (`Closes.accepts`), and outside of them there
are only atoms and operators in front. So an operand that is read alone is read to
the same expression where an operator or the end of an expression follows.

What is then shown by induction on the grouped tree is told from the token in front
of it on: a rule that takes all operators of the tree reads the tree, and goes on with the
operators behind it (`accepts_binaryRule_grouped`). The left operand of an operator
comes first, with the operator among what stands behind it.
-/
namespace MiniML.Grammar
open MiniML.Parser

/-! ## Operands -/

/-- The tokens begin an atom. -/
def StartsAtom (s : List Token) : Prop := ∃ t ∈ s.head?, startsAtom t.lexeme = true

theorem StartsAtom.exists_cons {s : List Token} (h : StartsAtom s) :
    ∃ t s', s = t :: s' ∧ startsAtom t.lexeme = true := by
  obtain ⟨t, ht, hstart⟩ := h
  obtain ⟨s', rfl⟩ := List.head?_eq_some_iff.mp ht
  exact ⟨t, s', rfl, hstart⟩

/-- No operator and no form starts an atom. -/
theorem startsAtom_apart {l : Lexeme} (h : startsAtom l = true) :
    unaryOp? l = none ∧ startsForm l = false := by
  cases l with
  | word => exact ⟨rfl, rfl⟩
  | fixed f => cases f <;> first | exact ⟨rfl, rfl⟩ | cases h

/-- Nor does any constant. -/
theorem startsAtom_of_literal? {l : Lexeme} {o : Except FaultCause Literal}
    (h : literal? l = some o) : startsAtom l = true := by
  unfold literal? at h
  split at h <;> first | rfl | cases h

section Atom

variable {self : Self} {t : Token} {ts : List Token} {Q : Expr → Prop}

theorem accepts_atom_word {s : String} (ht : t.lexeme = .word .ident s) (rest : List Token) :
    Accepts (atom self) (t :: rest) rest (· = .ident ⟨s, { span := t.span }⟩) := by
  have hident : Accepts ident (t :: rest) rest (· = ⟨s, { span := t.span }⟩) :=
    accepts_take (by rw [ht]) rfl
  exact Accepts.label _ (.either (.either (hident.bind_eq (accepts_pure rfl))))

theorem refuses_ident (ht : ∀ s, t.lexeme ≠ .word .ident s) : Refuses ident (t :: ts) :=
  refuses_take (by
    rintro _ ⟨⟩
    split
    next s hs => exact absurd hs (ht s)
    next => rfl)

theorem accepts_atom_literal {l : Literal} (ht : literal? t.lexeme = some (.ok l))
    (rest : List Token) :
    Accepts (atom self) (t :: rest) rest (· = .const l { span := t.span }) := by
  have hname : Refuses ident (t :: rest) := refuses_ident fun s hs => by
    rw [hs] at ht
    cases ht
  have hparens : Refuses (parenthesized self) (t :: rest) :=
    (refuses_token (heads_cons rfl (constant_ne ht _ rfl))).bind
  have hconstant : Accepts constant (t :: rest) rest (· = (l, t.span)) :=
    accepts_take (by rw [ht]; rfl) rfl
  refine ((refuses_either hname.bind hparens).either (hconstant.bind_eq ?_)).label _
  exact accepts_pure rfl

theorem refuses_atom (hname : ∀ s, t.lexeme ≠ .word .ident s)
    (hparens : Refuses (parenthesized self) (t :: ts))
    (hliteral : ∀ l, literal? t.lexeme ≠ some (.ok l)) : Refuses (atom self) (t :: ts) := by
  have hconstant : Refuses constant (t :: ts) := refuses_take_of_ne (by
    rintro _ ⟨⟩ a ha
    obtain ⟨o, ho, hmap⟩ := Option.map_eq_some_iff.mp ha
    cases o with
    | error => cases hmap
    | ok l => exact hliteral l ho)
  exact (refuses_either (refuses_either (refuses_ident hname).bind hparens) hconstant.bind).label _

end Atom

section Operand

variable {self self' : Self} {r : Nat} (h : ∀ g, Together r .ended (self g) (self' g))
  {c c' : Cursor} {e : Expr}
include h

/-- An atom is read alike wherever it stands. -/
theorem atom_anywhere (hc : c.Inside) (hr : c.rest.length ≤ r) (hrun : atom self c = .ok e c') :
    c.Onward c' ∧ ∃ s, c.rest = s ++ c'.rest ∧ StartsAtom s ∧
      ∀ rest, Accepts (atom self') (s ++ rest) rest (· = e) := by
  obtain ⟨hon, -, s, hs, -, hended⟩ := (together_atom h).accepts hc (Nat.lt_succ_of_le hr) hrun
  refine ⟨hon, ?_⟩
  have haccepts {rest : List Token} {x : Expr} (ha : Accepts (atom self) c.rest rest (· = x)) :
      rest = c'.rest ∧ x = e := by
    obtain ⟨_, _, hrun', -, rfl, rfl⟩ := ha c hc rfl
    cases hrun.symm.trans hrun'
    exact ⟨rfl, rfl⟩
  have hnot : ¬ Refuses (atom self) c.rest := fun hrefuses => by
    obtain ⟨_, _, hrun', -⟩ := hrefuses c hc rfl
    cases hrun.symm.trans hrun'
  obtain ⟨t, ts, hts⟩ : ∃ t ts, c.rest = t :: ts :=
    List.exists_cons_of_ne_nil (hs ▸ List.append_ne_nil_of_left_ne_nil (Ended.ne_nil hended) _)
  rw [hts] at haccepts hnot hr ⊢
  by_cases hname : ∃ s, t.lexeme = .word .ident s
  · obtain ⟨s, hs⟩ := hname
    obtain ⟨rfl, rfl⟩ := haccepts (accepts_atom_word hs ts)
    exact ⟨[t], rfl, ⟨t, rfl, by rw [hs]; rfl⟩, accepts_atom_word hs⟩
  by_cases hliteral : ∃ l, literal? t.lexeme = some (.ok l)
  · obtain ⟨l, hl⟩ := hliteral
    obtain ⟨rfl, rfl⟩ := haccepts (accepts_atom_literal hl ts)
    exact ⟨[t], rfl, ⟨t, rfl, startsAtom_of_literal? hl⟩, accepts_atom_literal hl⟩
  have hno (hparens : Refuses (parenthesized self) (t :: ts)) : Refuses (atom self) (t :: ts) :=
    refuses_atom (not_exists.mp hname) hparens (not_exists.mp hliteral)
  by_cases ht : t.lexeme = .fixed .lparen
  · have hparen (vs : List Token) : Accepts (token .lparen) (t :: vs) vs (· = t) :=
      accepts_take (by rw [if_pos ht]) rfl
    rcases (closes_behindParen h t).accepts (Nat.lt_of_succ_le hr) with
      hrefuses | ⟨x, s, ts', rfl, hx, hbehind⟩
    · exact absurd (hno ((hparen ts).refuses_eq hrefuses)) hnot
    · have hatom {self : Self} {us rest : List Token}
          (hx : Accepts (behindParen self t) us rest (· = x)) :
          Accepts (atom self) (t :: us) rest (· = x) :=
        accepts_atom_parens ht ((hparen us).bind_eq hx)
      obtain ⟨rfl, rfl⟩ := haccepts (hatom hx)
      exact ⟨t :: s, rfl, ⟨t, rfl, by rw [ht]; rfl⟩, fun rest => hatom (hbehind rest)⟩
  · exact absurd (hno (refuses_token (heads_cons rfl ht)).bind) hnot

/-- Atoms in a row are read up to what starts no atom. -/
theorem atoms_before {es : List Expr} {n : Nat} (hc : c.Inside) (hr : c.rest.length ≤ r)
    (hrun : atoms self n c = .ok es c') :
    ∃ s, c.rest = s ++ c'.rest ∧ ∀ rest, Heads (startsAtom · = false) rest → ∀ m, s.length ≤ m →
      Accepts (atoms self' m) (s ++ rest) rest (· = es) := by
  have hnil : ∃ s, c.rest = s ++ c.rest ∧ ∀ rest, Heads (startsAtom · = false) rest →
      ∀ m, s.length ≤ m → Accepts (atoms self' m) (s ++ rest) rest (· = []) :=
    ⟨[], rfl, fun rest hrest m _ => accepts_atoms_nil hrest m⟩
  induction n generalizing c es with
  | zero =>
    cases hrun
    exact hnil
  | succ n ih =>
    obtain ⟨o, d, hpeek, hrun⟩ := bind_ok hrun
    cases hpeek
    cases hhead : c.peek with
    | none =>
      rw [hhead] at hrun
      cases hrun
      exact hnil
    | some t =>
      rw [hhead] at hrun
      dsimp only at hrun
      split at hrun
      case isFalse =>
        cases hrun
        exact hnil
      obtain ⟨x, d, hatom, hrun⟩ := bind_ok hrun
      obtain ⟨xs, d', hatoms, hrun⟩ := bind_ok hrun
      cases hrun
      obtain ⟨hon, s, hs, hstart, hreads⟩ := atom_anywhere h hc hr hatom
      have hd : d.rest.length ≤ r := by
        rw [hs, List.length_append] at hr
        omega
      obtain ⟨s', hs', hreads'⟩ := ih hon.inside hd hatoms
        ⟨[], rfl, fun rest hrest m _ => accepts_atoms_nil hrest m⟩
      refine ⟨s ++ s', by rw [hs, hs', List.append_assoc], fun rest hrest m hm => ?_⟩
      obtain ⟨t, s, rfl, ht⟩ := hstart.exists_cons
      rw [List.length_append, List.length_cons] at hm
      obtain ⟨m, rfl⟩ : ∃ k, m = k + 1 := Nat.exists_eq_succ_of_ne_zero (by omega)
      rw [List.append_assoc]
      refine accepts_peek.bind_eq ?_
      rw [List.cons_append, List.head?_cons]
      dsimp only
      rw [if_pos ht]
      exact (hreads _).bind_eq
        ((hreads' rest hrest m (by omega)).bind_eq (accepts_pure rfl))

theorem application_before (hc : c.Inside) (hr : c.rest.length ≤ r)
    (hrun : application self c = .ok e c') :
    ∃ s, c.rest = s ++ c'.rest ∧ StartsAtom s ∧ ∀ rest, Heads (startsAtom · = false) rest →
      Accepts (application self') (s ++ rest) rest (· = e) := by
  obtain ⟨x, d, hatom, hrun⟩ := bind_ok hrun
  obtain ⟨xs, d', hatoms, hrun⟩ := bind_ok hrun
  obtain ⟨hon, s, hs, hstart, hreads⟩ := atom_anywhere h hc hr hatom
  have hd : d.rest.length ≤ r := by
    rw [hs, List.length_append] at hr
    omega
  obtain ⟨s', hs', hreads'⟩ := atoms_before h hon.inside hd hatoms
  obtain rfl : d' = c' := by
    cases hlast : xs.getLast? <;> rw [hlast] at hrun <;> cases hrun <;> rfl
  refine ⟨s ++ s', by rw [hs, hs', List.append_assoc], ?_, fun rest hrest => ?_⟩
  · obtain ⟨t, s, rfl, ht⟩ := hstart.exists_cons
    exact ⟨t, rfl, ht⟩
  · rw [List.append_assoc]
    refine (hreads _).bind_eq ((accepts_remaining (hreads' rest hrest _ ?_)).bind_eq ?_)
    · rw [List.length_append]
      exact Nat.le_add_right _ _
    · cases hlast : xs.getLast? <;> rw [hlast] at hrun <;> cases hrun <;> exact accepts_pure rfl

end Operand

/-- An operand is an application, or has an operator in front. -/
theorem operandRule_cases {self : Self} {c c' : Cursor} {e : Expr}
    (hrun : operandRule self c = .ok e c') :
    application self c = .ok e c' ∧ Heads (unaryOp? · = none) c.rest ∨
      ∃ t ts op x, c.rest = t :: ts ∧ unaryOp? t.lexeme = some op ∧
        self .operand c.advance = .ok x c' ∧ e = .unary op x { span := t.span.merge x.span } := by
  obtain ⟨o, d, hpeek, hrun⟩ := bind_ok hrun
  cases hpeek
  rw [Cursor.peek_eq] at hrun
  cases hts : c.rest with
  | nil =>
    rw [hts] at hrun
    exact .inl ⟨hrun, heads_nil _⟩
  | cons t ts =>
    rw [hts, List.head?_cons] at hrun
    dsimp only at hrun
    cases hop : unaryOp? t.lexeme with
    | none =>
      rw [hop] at hrun
      exact .inl ⟨hrun, heads_cons rfl hop⟩
    | some op =>
      rw [hop] at hrun
      obtain ⟨_, d, hskip, hrun⟩ := bind_ok hrun
      cases hskip
      obtain ⟨x, d', hself, hrun⟩ := bind_ok hrun
      cases hrun
      exact .inr ⟨t, ts, op, x, rfl, hop, hself, rfl⟩

/-- An operand is read alike in front of what starts no atom. -/
theorem operandRule_before {n m : Nat} {c c' : Cursor} {e : Expr} (hc : c.Inside)
    (hn : c.rest.length ≤ n) (hm : c.rest.length ≤ m)
    (hrun : operandRule (unroll exprRule n) c = .ok e c') :
    ∃ t s, c.rest = t :: s ++ c'.rest ∧ startsForm t.lexeme = false ∧
      ∀ rest, Heads (startsAtom · = false) rest →
        Accepts (operandRule (unroll exprRule m)) (t :: s ++ rest) rest (· = e) := by
  induction n using Nat.strongRecOn generalizing m c e with
  | ind n ih =>
    rcases operandRule_cases hrun with ⟨happ, hop⟩ | ⟨t, ts, op, x, hts, hop, hself, rfl⟩
    · have htogether (g : Goal) : Together c.rest.length .ended (unroll exprRule n g)
          (unroll exprRule m g) := together_unroll (fun _ _ _ h g => together_exprRule h g) hn hm g
      obtain ⟨s, hs, hstart, hreads⟩ := application_before htogether hc (Nat.le_refl _) happ
      obtain ⟨t, s, rfl, ht⟩ := hstart.exists_cons
      obtain ⟨hop, hform⟩ := startsAtom_apart ht
      exact ⟨t, s, hs, hform, fun rest hrest =>
        accepts_operandRule (hreads rest hrest) (heads_cons rfl hop)⟩
    · have hadvance := Cursor.rest_advance hts
      rw [hts, List.length_cons] at hn hm
      obtain ⟨n, rfl⟩ : ∃ k, n = k + 1 := Nat.exists_eq_succ_of_ne_zero (by omega)
      obtain ⟨m, rfl⟩ : ∃ k, m = k + 1 := Nat.exists_eq_succ_of_ne_zero (by omega)
      have hn' : c.advance.rest.length ≤ n := hadvance ▸ Nat.le_of_succ_le_succ hn
      have hm' : c.advance.rest.length ≤ m := hadvance ▸ Nat.le_of_succ_le_succ hm
      obtain ⟨u, s, hs, -, hreads⟩ := ih n (Nat.lt_succ_self n) (Cursor.onward_advance hc).inside
        hn' hm' hself
      refine ⟨t, u :: s, by rw [hts, ← hadvance, hs]; rfl, ?_, fun rest hrest => ?_⟩
      · generalize t.lexeme = l at hop ⊢
        unfold unaryOp? at hop
        split at hop <;> first | rfl | cases hop
      · refine accepts_peek.bind_eq ?_
        rw [List.cons_append, List.head?_cons]
        dsimp only
        rw [hop]
        exact accepts_skip.bind fun _ _ =>
          Accepts.bind_eq (hreads rest hrest) (accepts_pure rfl)

/-! ## Grouped trees -/

/-- The tokens alone are read to an operand. -/
def ReadsOperand (ts : List Token) (e : Expr) : Prop :=
  ∃ c, recursive exprRule .operand (.ofTokens ts) = .ok e c ∧ c.hasNext = false

/-- The tokens of a tree: those of its operands, with the operators between them. -/
inductive Written : OpTree → List Token → Prop
  | leaf {e : Expr} {ts : List Token} : ReadsOperand ts e → Written (.leaf e) ts
  | node {op : BinaryOp} {l r : OpTree} {t : Token} {ts us : List Token} : Written l ts →
      binaryOp? t.lexeme = some op → Written r us → Written (.node op l r) (ts ++ t :: us)

/-- An operand that is read alone is read alike in front of what starts no atom. -/
theorem ReadsOperand.before {ts : List Token} {e : Expr} (h : ReadsOperand ts e) :
    ∃ t s, ts = t :: s ∧ startsForm t.lexeme = false ∧
      ∀ n, ts.length ≤ n → ∀ rest, Heads (startsAtom · = false) rest →
        Accepts (operandRule (unroll exprRule n)) (ts ++ rest) rest (· = e) := by
  obtain ⟨c, hrun, hend⟩ := h
  have hrest : c.rest = [] := by
    refine List.eq_nil_of_length_eq_zero ?_
    rw [c.length_rest]
    unfold Cursor.hasNext at hend
    unfold Cursor.remaining
    have := of_decide_eq_false hend
    omega
  have hts := Cursor.rest_ofTokens ts
  have hlen : (Cursor.ofTokens ts).rest.length ≤ (Cursor.ofTokens ts).remaining :=
    Nat.le_of_eq (Cursor.ofTokens ts).length_rest
  have hread {n : Nat} (hn : ts.length ≤ n) :=
    operandRule_before (m := n) (Nat.zero_le _) hlen (by rwa [hts]) hrun
  obtain ⟨t, s, hs, hform, -⟩ := hread (Nat.le_refl _)
  rw [hts, hrest, List.append_nil] at hs
  refine ⟨t, s, hs, hform, fun n hn rest hafter => ?_⟩
  obtain ⟨t', s', hs', -, hreads⟩ := hread hn
  rw [hts, hrest, List.append_nil] at hs'
  rw [hs']
  exact hreads rest hafter

variable {t : OpTree} {ts after rest : List Token}

/-- A tree begins with an operand. -/
theorem Written.head (h : Written t ts) : ∃ u us, ts = u :: us ∧ startsForm u.lexeme = false := by
  induction h with
  | leaf h =>
    obtain ⟨u, us, hts, hform, -⟩ := h.before
    exact ⟨u, us, hts, hform⟩
  | node _ _ _ ih _ =>
    obtain ⟨u, us, rfl, hform⟩ := ih
    exact ⟨u, _, rfl, hform⟩

/-- One operator and operand more. -/
theorem Written.snoc {o : BinaryOp} {e : Expr} {u : Token} {us : List Token} (h : Written t ts)
    (hu : binaryOp? u.lexeme = some o) (he : ReadsOperand us e) :
    Written (t.snoc o e) (ts ++ u :: us) := by
  induction h with
  | leaf h => exact .node (.leaf h) hu (.leaf he)
  | @node p l r v vs ws hl hv hr _ ih =>
    rw [OpTree.snoc]
    split
    · rw [List.append_assoc, List.cons_append]
      exact .node hl hv ih
    · exact .node (.node hl hv hr) hu (.leaf he)

section Operators

variable {self : Self} {least : Nat} {x y : Expr} {o : BinaryOp} {u : Token} {mid : List Token}
  {Q : Expr → Prop}

theorem startsAtom_of_binaryOp? {l : Lexeme} (h : binaryOp? l = some o) : startsAtom l = false := by
  unfold binaryOp? at h
  split at h <;> first | rfl | cases h

/-- An operator that binds at least as tight as asked for is added. -/
theorem accepts_operators_cons {k : Nat} (hu : binaryOp? u.lexeme = some o)
    (hleast : least ≤ o.precedence) (hright : Accepts (rightOperand self o) ts mid (· = y))
    (h : Accepts (operators self least k (.binary o x y { span := x.span.merge y.span }))
      mid rest Q) :
    Accepts (operators self least (k + 1) x) (u :: ts) rest Q := by
  refine accepts_peek.bind_eq ?_
  rw [List.head?_cons]
  dsimp only
  rw [hu]
  dsimp only
  rw [if_neg (Nat.not_lt_of_le hleast)]
  exact accepts_skip.bind fun _ _ => hright.bind_eq h

/-- Operators are added up to one that binds less tight. -/
theorem accepts_operators_stop (h : Heads (fun l => ∀ q ∈ binaryOp? l, q.precedence < least) after)
    (k : Nat) : Accepts (operators self least k x) after after (· = x) := by
  cases k with
  | zero => exact accepts_pure rfl
  | succ k =>
    refine accepts_peek.bind_eq ?_
    split
    · exact accepts_pure rfl
    next v hv =>
      split
      · exact accepts_pure rfl
      next q hq =>
        rw [if_pos (h v hv q hq)]
        exact accepts_pure rfl

theorem accepts_rightOperand (hu : startsForm u.lexeme = false)
    (h : Accepts (self (.binary o.rightLevel)) (u :: ts) rest Q) :
    Accepts (rightOperand self o) (u :: ts) rest Q := by
  refine accepts_peek.bind_eq ?_
  rw [List.head?_cons]
  dsimp only
  rw [hu, if_neg Bool.false_ne_true]
  exact h

end Operators

/-- A rule that takes the operators of a grouped tree reads the tree, and goes on behind it. -/
theorem accepts_binaryRule_grouped {n least : Nat} {Q : Expr → Prop} (h : Written t ts)
    (hgrouped : t.Grouped) (hn : (ts ++ after).length ≤ n)
    (hleast : ∀ p ∈ t.root?, least ≤ p.precedence)
    (hafter : Heads (startsAtom · = false) after)
    (hstop : Heads (fun l => ∀ q ∈ binaryOp? l, ∀ p ∈ t.root?, q.precedence < p.rightLevel) after)
    (hQ : ∀ k, after.length ≤ k →
      Accepts (operators (unroll exprRule n) least k t.expr) after rest Q) :
    Accepts (binaryRule (unroll exprRule n) least) (ts ++ after) rest Q := by
  induction h generalizing n least after rest Q with
  | @leaf e ts h =>
    obtain ⟨u, us, -, -, hread⟩ := h.before
    rw [List.length_append] at hn
    exact (hread n (by omega) after hafter).bind_eq
      (accepts_remaining (p := fun k => operators (unroll exprRule n) least k e)
        (hQ _ (Nat.le_refl _)))
  | @node o l r u ts us hl hu hr ihl ihr =>
    obtain ⟨hrootl, hrootr, hgl, hgr⟩ := hgrouped
    have hleast : least ≤ o.precedence := hleast o rfl
    rw [List.append_assoc, List.cons_append] at hn ⊢
    -- the left operand comes first, and the operator stands behind it
    refine ihl hgl hn (fun p hp => Nat.le_trans hleast (hrootl p hp).precedence_le)
      (heads_cons rfl (startsAtom_of_binaryOp? hu)) (heads_cons rfl fun q hq p hp => ?_)
      fun k hk => ?_
    · obtain rfl := Option.some.inj (hu.symm.trans hq)
      exact BinaryOp.standsLeft_iff.mp (hrootl p hp)
    rw [List.length_append, List.length_cons] at hn
    rw [List.length_cons, List.length_append] at hk
    obtain ⟨n, rfl⟩ : ∃ j, n = j + 1 := Nat.exists_eq_succ_of_ne_zero (by omega)
    obtain ⟨k, rfl⟩ : ∃ j, k = j + 1 := Nat.exists_eq_succ_of_ne_zero (by omega)
    have hstopped : Heads (fun l => ∀ q ∈ binaryOp? l, q.precedence < o.rightLevel) after :=
      hstop.mono fun l hl q hq => hl q hq o rfl
    have hlevel (p : BinaryOp) (hp : p ∈ r.root?) : o.rightLevel ≤ p.precedence :=
      BinaryOp.standsRight_iff.mp (hrootr p hp)
    have hright : Accepts (binaryRule (unroll exprRule n) o.rightLevel) (us ++ after) after
        (· = r.expr) :=
      ihr hgr (by omega) hlevel hafter
        (hstopped.mono fun l hl q hq p hp => Nat.lt_of_lt_of_le (hl q hq)
          (Nat.le_trans (hlevel p hp) p.precedence_le_rightLevel))
        fun k _ => accepts_operators_stop hstopped k
    obtain ⟨v, vs, rfl, hform⟩ := hr.head
    exact accepts_operators_cons hu hleast (accepts_rightOperand hform hright) (hQ k (by omega))

/-! ## Operands with operators between them -/

/-- An operator with its right operand, and their tokens. -/
structure Operation where
  sign : Token
  op : BinaryOp
  tokens : List Token
  operand : Expr

namespace Operation

/-- The tokens are those of the operator, and of the operand alone. -/
def Valid (s : Operation) : Prop :=
  binaryOp? s.sign.lexeme = some s.op ∧ ReadsOperand s.tokens s.operand

/-- All tokens of operations in a row. -/
def spelled (steps : List Operation) : List Token := steps.flatMap fun s => s.sign :: s.tokens

end Operation

/-- The tree groups an operand and operations in a row. -/
def Groups (t : OpTree) (first : Expr) (steps : List Operation) : Prop :=
  t.Grouped ∧ t.leaves = first :: steps.map Operation.operand ∧ t.ops = steps.map Operation.op

theorem exists_groups {first : List Token} {e : Expr} (he : ReadsOperand first e)
    (steps : List Operation) (hsteps : ∀ s ∈ steps, s.Valid) :
    ∃ t, Groups t e steps ∧ Written t (first ++ Operation.spelled steps) := by
  induction steps using List.reverseRecOn with
  | nil => exact ⟨.leaf e, ⟨trivial, rfl, rfl⟩, by simpa [Operation.spelled] using Written.leaf he⟩
  | append_singleton steps s ih =>
    obtain ⟨t, ⟨hgrouped, hleaves, hops⟩, hwritten⟩ :=
      ih fun s hs => hsteps s (List.mem_append_left _ hs)
    obtain ⟨hop, hoperand⟩ := hsteps s (by simp)
    refine ⟨t.snoc s.op s.operand, ⟨hgrouped.snoc _ _, ?_, ?_⟩, ?_⟩
    · rw [OpTree.leaves_snoc, hleaves, List.map_append]
      rfl
    · rw [OpTree.ops_snoc, hops, List.map_append]
      rfl
    · have := hwritten.snoc hop hoperand
      simpa [Operation.spelled] using this

/-- Operands with operators between them are read, up to what goes on with no application
and no operation, and the tree groups them in the only possible way. -/
theorem binary_groups {first after : List Token} {e : Expr} {steps : List Operation} {c : Cursor}
    (he : ReadsOperand first e) (hsteps : ∀ s ∈ steps, s.Valid) (hafter : Heads EndsOperand after)
    (hc : c.Inside) (hrest : c.rest = first ++ Operation.spelled steps ++ after) :
    ∃ t : OpTree, Groups t e steps ∧ (∀ t', Groups t' e steps → t' = t) ∧
      ∃ c', recursive exprRule (.binary 1) c = .ok t.expr c' ∧ c'.tokens = c.tokens ∧
        c'.index = c.index + (first ++ Operation.spelled steps).length ∧ c'.rest = after := by
  obtain ⟨t, ht, hwritten⟩ := exists_groups he steps hsteps
  refine ⟨t, ht, fun t' ht' => ?_, ?_⟩
  · exact ht'.1.unique ht.1 (ht'.2.1.trans ht.2.1.symm) (ht'.2.2.trans ht.2.2.symm)
  have hend : Heads (binaryOp? · = none) after := hafter.mono fun _ h => h.2
  have hread : Accepts (recursive exprRule (.binary 1))
      (first ++ Operation.spelled steps ++ after) after (· = t.expr) := by
    refine accepts_recursive fun n hn => ?_
    obtain ⟨n, rfl⟩ := Nat.exists_eq_succ_of_ne_zero (Nat.ne_of_gt (Nat.zero_lt_of_lt hn))
    refine accepts_binaryRule_grouped hwritten ht.1 (Nat.le_of_lt_succ hn)
      (fun p _ => p.one_le_precedence) (hafter.mono fun _ h => h.1)
      (hend.mono fun l hl q hq => ?_) fun k _ => accepts_operators_nil hend 1 k rfl
    rw [hl] at hq
    cases hq
  obtain ⟨x, c', hrun, hon, hrest', rfl⟩ := hread c hc hrest
  refine ⟨c', hrun, hon.tokens, ?_, hrest'⟩
  have hlength := congrArg List.length hrest
  have hlength' := congrArg List.length hrest'
  rw [Cursor.length_rest] at hlength hlength'
  rw [List.length_append] at hlength
  have hinside := hon.inside
  have htokens := hon.tokens
  unfold Cursor.remaining at hlength hlength'
  unfold Cursor.Inside at hc hinside
  rw [htokens] at hlength' hinside
  omega

/-- In `a - b * -c = d ;;`, the product is the right operand of the difference, which
is the left operand of the comparison. -/
theorem binary_groups_sub_mul_eq :
    let token : Lexeme → Token := fun l => ⟨l, {}⟩
    let name : String → Expr := fun s => .ident ⟨s, {}⟩
    let word : String → Token := fun s => token (.word .ident s)
    let steps : List Operation := [⟨token (.fixed .minus), .sub, [word "b"], name "b"⟩,
      ⟨token (.fixed .star), .mul, [token (.fixed .minus), word "c"], .unary .neg (name "c") {}⟩,
      ⟨token (.fixed .equals), .eq, [word "d"], name "d"⟩]
    let after : List Token := [token (.fixed .separator)]
    let c : Cursor := .ofTokens (word "a" :: Operation.spelled steps ++ after)
    let product : OpTree := .node .mul (.leaf (name "b")) (.leaf (.unary .neg (name "c") {}))
    let tree : OpTree := .node .eq (.node .sub (.leaf (name "a")) product) (.leaf (name "d"))
    ReadsOperand [word "a"] (name "a") ∧ (∀ s ∈ steps, s.Valid) ∧ Heads EndsOperand after ∧
      c.Inside ∧ c.rest = [word "a"] ++ Operation.spelled steps ++ after ∧
      ∃ c', recursive exprRule (.binary 1) c = .ok tree.expr c' ∧ c'.rest = after := by
  intro token name word steps after c product tree
  have ha : ReadsOperand [word "a"] (name "a") := ⟨_, rfl, rfl⟩
  have hsteps : ∀ s ∈ steps, s.Valid := by
    simp only [steps, List.forall_mem_cons]
    exact ⟨⟨rfl, _, rfl, rfl⟩, ⟨rfl, _, rfl, rfl⟩, ⟨rfl, _, rfl, rfl⟩, nofun⟩
  have hafter : Heads EndsOperand after := heads_cons rfl ⟨rfl, rfl⟩
  have hrest : c.rest = [word "a"] ++ Operation.spelled steps ++ after := Cursor.rest_ofTokens _
  have hgrouped : tree.Grouped := by
    simp [tree, product, OpTree.Grouped, OpTree.root?, BinaryOp.StandsLeft, BinaryOp.StandsRight,
      BinaryOp.precedence]
  obtain ⟨t, -, hunique, c', hrun, -, -, hrest'⟩ :=
    binary_groups ha hsteps hafter (Nat.zero_le _) hrest
  obtain rfl := hunique tree ⟨hgrouped, rfl, rfl⟩
  exact ⟨ha, hsteps, hafter, Nat.zero_le _, hrest, c', hrun, hrest'⟩

end MiniML.Grammar
