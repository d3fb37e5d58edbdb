import MiniML.Grammar.Pattern
import MiniML.Proofs.Grammar.Accept
import MiniML.Proofs.Grammar.Print

/-!
# Printed annotations, patterns and parameters are read back

The tokens of a tree stand before others, and what is read depends on the first
of those (`Spells`, `Heads`). Each rule of the grammar is shown to read what is
printed for it, on the assumption that the parser it calls itself with reads
what is shorter (`HintsBelow`, `PatternsBelow`); induction on the number of
unrollings discharges the assumption.

Results:
* `accepts_separated`: a list is read, if its items are.
* `hintsBelow_hint`, `patternsBelow_pattern`: annotations and patterns are read.
* `accepts_param`: so are parameters, with an annotation or without one.
* `ofFunction_paramShares`: the annotation of a function is made up of the
  shares that its parameters and its result were printed with.
-/
namespace MiniML

open MiniML.Piece MiniML.Parser MiniML.Grammar

/-! ## Tokens in front of others -/

/-- The first of the tokens say what the pieces ask for, and the rest follows. -/
def Spells : List Piece → List Token → List Token → Prop
  | [], ts, rest => ts = rest
  | p :: ps, ts, rest => ∃ t us, ts = t :: us ∧ p.Matches t ∧ Spells ps us rest

section Spells

variable {ps qs : List Piece} {ts rest : List Token}

theorem Prints.spells (h : Prints ps ts) : Spells ps ts [] := by
  induction h with
  | nil => rfl
  | cons ht _ ih => exact ⟨_, _, rfl, ht, ih⟩

theorem spells_append : Spells (ps ++ qs) ts rest ↔ ∃ mid, Spells ps ts mid ∧ Spells qs mid rest := by
  induction ps generalizing ts with
  | nil => simp [Spells]
  | cons p ps ih =>
    simp only [List.cons_append, Spells, ih]
    constructor
    · rintro ⟨t, us, rfl, ht, mid, hps, hqs⟩
      exact ⟨mid, ⟨t, us, rfl, ht, hps⟩, hqs⟩
    · rintro ⟨mid, ⟨t, us, rfl, ht, hps⟩, hqs⟩
      exact ⟨t, us, rfl, ht, mid, hps, hqs⟩

theorem Spells.length (h : Spells ps ts rest) : ts.length = ps.length + rest.length := by
  induction ps generalizing ts with
  | nil => exact h ▸ (Nat.zero_add _).symm
  | cons p ps ih =>
    obtain ⟨t, us, rfl, -, hps⟩ := h
    rw [List.length_cons, List.length_cons, ih hps]
    omega

theorem Spells.parens (h : Spells (Piece.parens ps) ts rest) :
    ∃ t us u, ts = t :: us ∧ t.lexeme = .fixed .lparen ∧ Spells ps us (u :: rest) ∧
      u.lexeme = .fixed .rparen := by
  obtain ⟨t, us, rfl, ht, h⟩ := h
  obtain ⟨mid, hps, u, vs, rfl, hu, rfl⟩ := spells_append.mp h
  exact ⟨t, us, u, rfl, ht, hps, hu⟩

end Spells

/-! ## Lists with separators -/

section Separated

variable {α β : Type} {p : Parser α} {Q : β → α → Prop} {pieces : β → List Piece} {f : Fixed}
  {P : Lexeme → Prop} {x : β} {xs : List β} {ts rest : List Token}

/-- Behind an item stands a separator or the rest. -/
theorem heads_separated (hP : P (.fixed f)) (hrest : Heads P rest)
    (h : Spells (xs.flatMap fun x => .fixed f :: pieces x) ts rest) : Heads P ts := by
  cases xs with
  | nil =>
    cases h
    exact hrest
  | cons x xs =>
    obtain ⟨t, us, rfl, ht, -⟩ := h
    exact heads_cons ht hP

/-- The items behind the first one. -/
theorem row_separated (hP : P (.fixed f)) (hrest : Heads P rest) (hstop : Heads (· ≠ .fixed f) rest)
    (hitem : ∀ x ∈ xs, ∀ us mid, us.length < ts.length → Spells (pieces x) us mid →
      Heads P mid → Accepts p us mid (Q x))
    (h : Spells (xs.flatMap fun x => .fixed f :: pieces x) ts rest) :
    Row (token f *> p) Q xs ts rest := by
  induction xs generalizing ts with
  | nil =>
    cases h
    exact .nil (refuses_token hstop).bind
  | cons x xs ih =>
    obtain ⟨t, us, rfl, ht, h⟩ := h
    obtain ⟨mid, hx, hxs⟩ := spells_append.mp h
    have hshort : mid.length < (t :: us).length := by
      have := hx.length
      rw [List.length_cons]
      omega
    have hfirst := hitem x List.mem_cons_self us mid (Nat.lt_succ_self _) hx
      (heads_separated hP hrest hxs)
    refine .cons ((accepts_token ht).seqRight hfirst) hshort (ih (fun y hy vs mid' hlen => ?_) hxs)
    exact hitem y (List.mem_cons_of_mem _ hy) vs mid' (Nat.lt_trans hlen hshort)

theorem accepts_separated (hne : xs ≠ []) (hP : P (.fixed f))
    (hrest : Heads P rest) (hstop : Heads (· ≠ .fixed f) rest)
    (hitem : ∀ x ∈ xs, ∀ us mid, us.length ≤ ts.length → Spells (pieces x) us mid →
      Heads P mid → Accepts p us mid (Q x))
    (h : Spells (separated f (xs.map pieces)) ts rest) :
    Accepts (sepBy1 p (token f)) ts rest (List.Forall₂ Q xs) := by
  obtain ⟨x, xs, rfl⟩ := List.exists_cons_of_ne_nil hne
  obtain ⟨mid, hx, hxs⟩ := spells_append.mp h
  rw [List.flatMap_map] at hxs
  have hmid : mid.length ≤ ts.length := by
    have := hx.length
    omega
  refine accepts_sepBy1
    (hitem x List.mem_cons_self ts mid (Nat.le_refl _) hx (heads_separated hP hrest hxs))
    (row_separated hP hrest hstop (fun y hy us mid' hlen => ?_) hxs)
  exact hitem y (List.mem_cons_of_mem _ hy) us mid' (Nat.le_of_lt (Nat.lt_of_lt_of_le hlen hmid))

end Separated

/-! ## Annotations -/

/-- The lexemes that go on with an annotation. -/
def EndsHint (l : Lexeme) : Prop := l ≠ .fixed .star ∧ l ≠ .fixed .arrow

/-- The parser reads annotations of less than `n` tokens. -/
def HintsBelow (n : Nat) (self : Parser Hint) : Prop :=
  ∀ h : Hint, h.Denotable → ∀ ts rest, ts.length < n → Spells h.pieces ts rest →
    Heads EndsHint rest → Accepts self ts rest (· = h)

section Hint

variable {self : Parser Hint} {n : Nat} {h : Hint} {ts rest : List Token}

theorem accepts_hintItem (hself : HintsBelow n self) (hh : h.Denotable) (hn : ts.length ≤ n)
    (hts : Spells (parensIf (h.isFn || h.isTuple) h.pieces) ts rest) :
    Accepts (hintItem self) ts rest (· = h) := by
  have hparens (hts : Spells (parens h.pieces) ts rest) : Accepts (hintItem self) ts rest (· = h) := by
    obtain ⟨t, us, u, rfl, ht, hps, hu⟩ := hts.parens
    refine .either ((accepts_token ht).bind fun _ _ => ?_)
    have hinner := hself h hh us (u :: rest) hn hps (heads_cons hu ⟨nofun, nofun⟩)
    exact hinner.bind fun g hg => (accepts_token hu).bind fun _ _ => accepts_pure hg
  have hatom {l : Lexeme} (hl : hintName? l = some (.ok h)) (hts : Spells [.lexeme l] ts rest) :
      Accepts (hintItem self) ts rest (· = h) := by
    obtain ⟨t, us, rfl, rfl, rfl⟩ := hts
    have hlparen : Refuses (token .lparen) (t :: us) := refuses_token (heads_cons rfl fun heq => by
      rw [heq] at hl
      cases hl)
    exact hlparen.bind.either (accepts_take hl rfl)
  cases hh with
  | prim p => exact hatom (by rw [hintName?, Prim.ofName?_name]) hts
  | var x => exact hatom rfl hts
  | wildcard => exact hatom rfl hts
  | fn ha hb => exact hparens hts
  | tuple hlen hhs => exact hparens hts

theorem accepts_hintProduct (hself : HintsBelow n self) (hh : h.Denotable) (hn : ts.length ≤ n)
    (hrest : Heads (· ≠ .fixed .star) rest) (hts : Spells (parensIf h.isFn h.pieces) ts rest) :
    Accepts (hintProduct self) ts rest (· = h) := by
  have hsingle (hts : Spells (parensIf (h.isFn || h.isTuple) h.pieces) ts rest) :
      Accepts (hintProduct self) ts rest (· = h) := by
    have hitem := accepts_hintItem hself hh hn hts
    refine (accepts_sepBy1_one hitem (refuses_token hrest)).bind ?_
    rintro _ ⟨g, rfl, hg⟩
    exact accepts_pure hg
  cases hh with
  | prim p => exact hsingle hts
  | var x => exact hsingle hts
  | wildcard => exact hsingle hts
  | fn ha hb => exact hsingle hts
  | @tuple hs hlen hhs =>
    have hts : Spells (separated .star (Hint.itemPieces hs)) ts rest := hts
    rw [Hint.itemPieces_eq] at hts
    have hitems := accepts_separated (p := hintItem self) (Q := fun g k : Hint => k = g)
      (P := fun _ => True) (List.ne_nil_of_length_pos (Nat.zero_lt_of_lt hlen)) trivial
      (fun _ _ => trivial) hrest
      (fun g hg us mid hus hg' _ => accepts_hintItem hself (hhs g hg) (Nat.le_trans hus hn) hg') hts
    refine hitems.bind fun gs hgs => ?_
    obtain rfl : hs = gs := List.forall₂_eq_eq_eq ▸ hgs.imp fun _ _ => Eq.symm
    split
    · exact absurd hlen (by simp)
    · exact accepts_pure rfl

theorem hintsBelow_rule {self : Unit → Parser Hint} (hself : HintsBelow n (self ())) :
    HintsBelow (n + 1) (hintRule self ()) := by
  intro h hh ts rest hn hts hrest
  have hn := Nat.le_of_lt_succ hn
  have harrow : Heads (· ≠ .fixed .arrow) rest := fun t ht => (hrest t ht).2
  have hproduct (hts : Spells (parensIf h.isFn h.pieces) ts rest) :
      Accepts (hintRule self ()) ts rest (· = h) := by
    refine (accepts_hintProduct hself hh hn (fun t ht => (hrest t ht).1) hts).bind fun g hg => ?_
    refine (refuses_token harrow).bind.optional.bind fun o ho => ?_
    subst ho
    exact accepts_pure hg
  cases hh with
  | prim p => exact hproduct hts
  | var x => exact hproduct hts
  | wildcard => exact hproduct hts
  | tuple hlen hhs => exact hproduct hts
  | fn ha hb =>
    obtain ⟨mid, ha', t, us, rfl, ht, hb'⟩ := spells_append.mp hts
    have hlen := ha'.length
    rw [List.length_cons] at hlen
    refine (accepts_hintProduct hself ha hn (heads_cons ht nofun) ha').bind fun g hg => ?_
    have hresult := hself _ hb us rest (by omega) hb' hrest
    refine ((accepts_token ht).seqRight hresult).optional.bind ?_
    rintro _ ⟨k, rfl, hk⟩
    exact accepts_pure (by rw [hg, hk])

theorem hintsBelow_hint (n : Nat) : HintsBelow n Grammar.hint := by
  have hunroll (n : Nat) : HintsBelow n (unroll hintRule n ()) := by
    induction n with
    | zero => exact fun _ _ _ _ hn => absurd hn (Nat.not_lt_zero _)
    | succ n ih => exact hintsBelow_rule ih
  exact fun h hh ts rest _ hts hrest =>
    accepts_recursive fun m hm => hunroll m h hh ts rest hm hts hrest

end Hint

/-! ## Patterns -/

section Pattern

variable {ts rest : List Token}

theorem accepts_constant {l : Literal} {t : Token} (ht : (Piece.constant l).Matches t) :
    Accepts Grammar.constant (t :: rest) rest fun r => r.1 = l := by
  have ht : literal? t.lexeme = some (.ok l) := ht
  exact accepts_take (a := (l, t.span)) (by rw [ht]; rfl) rfl

/-- A token with a value is no other fixed lexeme. -/
theorem constant_ne {l : Literal} {t : Token} (ht : (Piece.constant l).Matches t) (f : Fixed)
    (hf : literal? (.fixed f) = none) : t.lexeme ≠ .fixed f := by
  intro heq
  have ht : literal? t.lexeme = some (.ok l) := ht
  rw [heq, hf] at ht
  cases ht

theorem accepts_unit {t u : Token} (ht : t.lexeme = .fixed .lparen) (hu : u.lexeme = .fixed .rparen) :
    Accepts Grammar.unit (t :: u :: rest) rest fun r => r.1 = .unit :=
  (accepts_token ht).bind fun _ _ => (accepts_token hu).bind fun _ _ => accepts_pure rfl

/-- What a name is read as: the same one, at its place, with an empty slot. -/
def Name.ReadAs (n m : Name) : Prop :=
  ({ m with mark := m.mark.unplaced } : Name) = { n with mark := {} }

theorem accepts_name {n : Name} (hts : Spells n.pieces ts rest) :
    Accepts Grammar.ident ts rest n.ReadAs := by
  obtain ⟨t, us, rfl, ht, rfl⟩ := hts
  have ht : t.lexeme = .word .ident n.text := ht
  exact accepts_take (a := ⟨n.text, { span := t.span }⟩) (by rw [ht]) rfl

/-- What a pattern is read as: the same one, at its place, with empty slots. -/
def Pattern.ReadAs (p q : Pattern) : Prop := q.unplaced = p.bare

/-- The parser reads patterns of less than `n` tokens. -/
def PatternsBelow (n : Nat) (self : Parser Pattern) : Prop :=
  ∀ p : Pattern, p.Denotable → ∀ ts rest, ts.length < n → Spells p.pieces ts rest →
    Accepts self ts rest p.ReadAs

theorem readAs_items {ps qs : List Pattern} (h : List.Forall₂ Pattern.ReadAs ps qs) :
    Pattern.mapMarksItems Mark.unplaced qs = Pattern.mapMarksItems (fun _ => {}) ps := by
  induction h with
  | nil => rfl
  | cons hp _ ih => exact congrArg₂ List.cons hp ih

theorem accepts_literalPattern {l : Literal} {m : Mark}
    (hts : Spells (Pattern.literal l m).pieces ts rest) :
    Accepts literalPattern ts rest (Pattern.literal l m).ReadAs := by
  have hvalue : Accepts (either Grammar.unit Grammar.constant) ts rest fun r => r.1 = l := by
    cases l with
    | unit =>
      obtain ⟨t, us, rfl, ht, u, vs, rfl, hu, rfl⟩ := hts
      exact (accepts_unit ht hu).either
    | _ =>
      obtain ⟨t, us, rfl, ht, rfl⟩ := hts
      exact (refuses_token (heads_cons rfl (constant_ne ht _ rfl))).bind.either (accepts_constant ht)
  refine hvalue.bind fun r hr => accepts_pure ?_
  rw [← hr]
  rfl

theorem refuses_literalPattern (h : Heads (fun l => l ≠ .fixed .lparen ∧ literal? l = none) ts) :
    Refuses literalPattern ts := by
  have hunit : Refuses Grammar.unit ts := (refuses_token fun t ht => (h t ht).1).bind
  have hconstant : Refuses Grammar.constant ts := refuses_take fun t ht => by rw [(h t ht).2]; rfl
  exact (refuses_either hunit hconstant).bind

theorem refuses_tuplePattern {self : Parser Pattern} (h : Heads (· ≠ .fixed .lparen) ts) :
    Refuses (tuplePattern self) ts := (refuses_token h).bind

/-- A pattern does not begin with what ends another one. -/
theorem heads_pattern {p : Pattern} (hts : Spells p.pieces ts rest) :
    Heads (fun l => l ≠ .fixed .rparen ∧ l ≠ .fixed .pipe) ts := by
  cases p with
  | ident n =>
    obtain ⟨t, us, rfl, ht, -⟩ := hts
    exact heads_cons ht ⟨nofun, nofun⟩
  | wildcard m =>
    obtain ⟨t, us, rfl, ht, -⟩ := hts
    exact heads_cons ht ⟨nofun, nofun⟩
  | tuple ps m =>
    obtain ⟨t, us, rfl, ht, -⟩ := hts
    exact heads_cons ht ⟨nofun, nofun⟩
  | literal l m =>
    cases l with
    | unit =>
      obtain ⟨t, us, rfl, ht, -⟩ := hts
      exact heads_cons ht ⟨nofun, nofun⟩
    | _ =>
      obtain ⟨t, us, rfl, ht, -⟩ := hts
      exact heads_cons rfl ⟨constant_ne ht _ rfl, constant_ne ht _ rfl⟩

theorem accepts_tuplePattern {self : Parser Pattern} {n : Nat} {ps : List Pattern} {m : Mark}
    (hself : PatternsBelow n self) (hlen : 2 ≤ ps.length) (hps : ∀ p ∈ ps, p.Denotable)
    (hn : ts.length ≤ n) (hts : Spells (Pattern.tuple ps m).pieces ts rest) :
    Accepts (tuplePattern self) ts rest (Pattern.tuple ps m).ReadAs := by
  obtain ⟨t, us, u, rfl, ht, hps', hu⟩ := hts.parens
  rw [Pattern.piecesItems_eq] at hps'
  have hitems := accepts_separated (p := self) (Q := Pattern.ReadAs) (f := .comma) (P := fun _ => True)
    (List.ne_nil_of_length_pos (Nat.zero_lt_of_lt hlen)) trivial (fun _ _ => trivial)
    (heads_cons hu nofun)
    (fun p hp vs mid hvs hp' _ => hself p (hps p hp) vs mid (Nat.lt_of_le_of_lt hvs hn) hp') hps'
  refine (accepts_token ht).bind fun _ _ => hitems.bind fun qs hqs =>
    (accepts_token hu).bind fun _ _ => ?_
  split
  · exact absurd hlen (by rw [hqs.length_eq]; simp)
  · exact accepts_pure (congrArg (Pattern.tuple · {}) (readAs_items hqs))

/-- Behind a parenthesis the first item of a tuple is no end. -/
theorem refuses_unit {t : Token} (ht : t.lexeme = .fixed .lparen)
    (h : Heads (· ≠ .fixed .rparen) ts) : Refuses literalPattern (t :: ts) := by
  have hunit : Refuses Grammar.unit (t :: ts) :=
    (accepts_token ht).refuses fun _ _ => (refuses_token h).bind
  have hconstant : Refuses Grammar.constant (t :: ts) := refuses_take (by
    rintro _ ⟨⟩
    rw [ht]
    rfl)
  exact (refuses_either hunit hconstant).bind

theorem patternsBelow_rule {self : Unit → Parser Pattern} {n : Nat}
    (hself : PatternsBelow n (self ())) : PatternsBelow (n + 1) (patternRule self ()) := by
  intro p hp ts rest hn hts
  cases hp with
  | ident x =>
    have hname := accepts_name hts
    obtain ⟨t, us, rfl, ht, rfl⟩ := hts
    have hliteral : Refuses literalPattern (t :: us) :=
      refuses_literalPattern (heads_cons ht ⟨nofun, rfl⟩)
    have htuple : Refuses (tuplePattern (self ())) (t :: us) :=
      refuses_tuplePattern (heads_cons ht nofun)
    refine (refuses_either (refuses_either hliteral htuple)
      (refuses_token (heads_cons ht nofun)).bind).either (hname.bind fun m hm => accepts_pure ?_)
    exact congrArg Pattern.ident hm
  | wildcard m =>
    obtain ⟨t, us, rfl, ht, rfl⟩ := hts
    have hliteral : Refuses literalPattern (t :: us) :=
      refuses_literalPattern (heads_cons ht ⟨nofun, rfl⟩)
    have htuple : Refuses (tuplePattern (self ())) (t :: us) :=
      refuses_tuplePattern (heads_cons ht nofun)
    refine ((refuses_either hliteral htuple).either
      ((accepts_token ht).bind fun _ _ => accepts_pure ?_)).either
    rfl
  | literal l m => exact (accepts_literalPattern hts).either.either.either
  | @tuple ps m hlen hps =>
    have htuple := accepts_tuplePattern hself hlen hps (Nat.le_of_lt_succ hn) hts
    obtain ⟨t, us, u, rfl, ht, hitems, -⟩ := hts.parens
    obtain ⟨q, qs, rfl⟩ := List.exists_cons_of_length_pos (Nat.zero_lt_of_lt hlen)
    obtain ⟨mid, hq, -⟩ := spells_append.mp hitems
    exact ((refuses_unit ht ((heads_pattern hq).mono fun _ h => h.1)).either htuple).either.either

theorem patternsBelow_pattern (n : Nat) : PatternsBelow n Grammar.pattern := by
  have hunroll (n : Nat) : PatternsBelow n (unroll patternRule n ()) := by
    induction n with
    | zero => exact fun _ _ _ _ hn => absurd hn (Nat.not_lt_zero _)
    | succ n ih => exact patternsBelow_rule ih
  exact fun p hp ts rest _ hts => accepts_recursive fun m hm => hunroll m p hp ts rest hm hts

/-- No pattern begins here. -/
theorem refuses_pattern
    (h : Heads (· ∈ [Lexeme.fixed .rparen, .fixed .colon, .fixed .arrow]) ts) :
    Refuses Grammar.pattern ts := by
  have hne (l : Lexeme) (hl : l ∉ [Lexeme.fixed .rparen, .fixed .colon, .fixed .arrow]) :
      Heads (· ≠ l) ts := fun t ht heq => hl (heq ▸ h t ht)
  have hliteral : Refuses literalPattern ts := refuses_literalPattern fun t ht => by
    have := h t ht
    simp only [List.mem_cons, List.not_mem_nil, or_false] at this
    rcases this with h | h | h <;> rw [h] <;> exact ⟨nofun, rfl⟩
  have hname : Refuses Grammar.ident ts := refuses_take fun t ht => by
    have := h t ht
    simp only [List.mem_cons, List.not_mem_nil, or_false] at this
    rcases this with h | h | h <;> rw [h]
  exact refuses_recursive fun self => refuses_either (refuses_either (refuses_either hliteral
    (refuses_token (hne _ (by decide))).bind) (refuses_token (hne _ (by decide))).bind) hname.bind

end Pattern

/-! ## Parameters -/

section Param

variable {ts rest : List Token} {x : Pattern × Option Hint} {xs : List (Pattern × Option Hint)}

/-- What a parameter is read as. -/
def ParamReadAs (x y : Pattern × Option Hint) : Prop := x.1.ReadAs y.1 ∧ y.2 = x.2

/-- A parameter that has a text. -/
def ParamDenotable (x : Pattern × Option Hint) : Prop := x.1.Denotable ∧ ∀ h ∈ x.2, h.Denotable

theorem refuses_annotatedParam_of (h : Heads (· ≠ .fixed .lparen) ts) : Refuses annotatedParam ts :=
  (refuses_token h).bind

/-- A pattern is no parameter with an annotation. -/
theorem refuses_annotatedParam {p : Pattern} (hp : p.Denotable) (hts : Spells p.pieces ts rest) :
    Refuses annotatedParam ts := by
  cases hp with
  | ident n =>
    obtain ⟨t, us, rfl, ht, -⟩ := hts
    exact refuses_annotatedParam_of (heads_cons ht nofun)
  | wildcard m =>
    obtain ⟨t, us, rfl, ht, -⟩ := hts
    exact refuses_annotatedParam_of (heads_cons ht nofun)
  | literal l m =>
    cases l with
    | unit =>
      obtain ⟨t, us, rfl, ht, u, vs, rfl, hu, -⟩ := hts
      have hend : Heads (· ∈ [Lexeme.fixed .rparen, .fixed .colon, .fixed .arrow]) (u :: vs) :=
        heads_cons hu List.mem_cons_self
      exact (accepts_token ht).refuses fun _ _ => (refuses_pattern hend).bind
    | _ =>
      obtain ⟨t, us, rfl, ht, -⟩ := hts
      exact refuses_annotatedParam_of (heads_cons rfl (constant_ne ht _ rfl))
  | @tuple ps m hlen hps =>
    -- the first item is read, and a comma follows
    obtain ⟨t, us, u, rfl, ht, hitems, -⟩ := hts.parens
    obtain ⟨q, r, qs, rfl⟩ : ∃ q r qs, ps = q :: r :: qs := by
      match ps, hlen with
      | q :: r :: qs, _ => exact ⟨q, r, qs, rfl⟩
    obtain ⟨mid, hq, v, vs, rfl, hv, -⟩ := spells_append.mp hitems
    have hfirst := patternsBelow_pattern (us.length + 1) q (hps q List.mem_cons_self) us _
      (Nat.lt_succ_self _) hq
    have hcomma : Heads (· ≠ .fixed .colon) (v :: vs) := heads_cons hv nofun
    exact (accepts_token ht).refuses fun _ _ => hfirst.refuses fun _ _ =>
      (refuses_token hcomma).bind.bind

theorem accepts_param (hx : ParamDenotable x) (hts : Spells (paramPieces x) ts rest) :
    Accepts param ts rest (ParamReadAs x) := by
  obtain ⟨p, o⟩ := x
  cases o with
  | none =>
    have hp := patternsBelow_pattern (ts.length + 1) p hx.1 ts rest (Nat.lt_succ_self _) hts
    exact (refuses_annotatedParam hx.1 hts).either (hp.bind fun q hq => accepts_pure ⟨hq, rfl⟩)
  | some h =>
    obtain ⟨t, us, u, rfl, ht, hinner, hu⟩ := hts.parens
    obtain ⟨mid, hp, v, vs, rfl, hv, hh⟩ := spells_append.mp hinner
    have hpattern := patternsBelow_pattern (us.length + 1) p hx.1 us _ (Nat.lt_succ_self _) hp
    have hhint := hintsBelow_hint (vs.length + 1) h (hx.2 h rfl) vs _ (Nat.lt_succ_self _) hh
      (heads_cons hu ⟨nofun, nofun⟩)
    exact .either ((accepts_token ht).bind fun _ _ => hpattern.bind fun q hq =>
      ((accepts_token hv).seqRight hhint).bind fun g hg => (accepts_token hu).bind fun _ _ =>
        accepts_pure ⟨hq, congrArg some hg⟩)

/-- No parameter begins where the annotation of the result or the body does. -/
theorem refuses_param (h : Heads (· ∈ [Lexeme.fixed .colon, .fixed .arrow]) ts) :
    Refuses param ts := by
  have hlparen : Heads (· ≠ .fixed .lparen) ts := h.mono fun l hl heq => by
    rw [heq] at hl
    exact absurd hl (by decide)
  exact refuses_either (refuses_annotatedParam_of hlparen)
    (refuses_pattern (h.mono fun l hl => List.mem_cons_of_mem _ hl)).bind

theorem length_paramPieces_pos (x : Pattern × Option Hint) : 0 < (paramPieces x).length := by
  obtain ⟨p, _ | h⟩ := x
  · cases p with
    | literal l m => cases l <;> exact Nat.succ_pos _
    | _ => exact Nat.succ_pos _
  · exact Nat.succ_pos _

theorem row_params (hxs : ∀ x ∈ xs, ParamDenotable x)
    (hrest : Heads (· ∈ [Lexeme.fixed .colon, .fixed .arrow]) rest)
    (hts : Spells (xs.flatMap paramPieces) ts rest) : Row param ParamReadAs xs ts rest := by
  induction xs generalizing ts with
  | nil =>
    cases hts
    exact .nil (refuses_param hrest)
  | cons x xs ih =>
    obtain ⟨mid, hx, hxs'⟩ := spells_append.mp hts
    have hshort : mid.length < ts.length := by
      have hlen := hx.length
      have hpos := length_paramPieces_pos x
      omega
    exact .cons (accepts_param (hxs x List.mem_cons_self) hx) hshort
      (ih (fun y hy => hxs y (List.mem_cons_of_mem _ hy)) hxs')

end Param

/-! ## Signatures of functions -/

section Signature

variable {ps : List Pattern} {h : Option Hint}

theorem Hint.foldr_split {n : Nat} {g : Hint} (hn : (g.split n).1.length = n) :
    ((g.split n).1.map some).foldr (fun p acc => .fn (p.getD .wildcard) acc) (g.split n).2 = g := by
  induction n generalizing g with
  | zero => cases g <;> rfl
  | succ n ih =>
    cases g with
    | fn a b => exact congrArg (Hint.fn a) (ih (Nat.succ.inj hn))
    | _ => exact absurd hn (Nat.succ_ne_zero n).symm

theorem map_fst_paramShares (hsig : Signature ps h) : (paramShares ps h).map Prod.fst = ps := by
  cases h with
  | none => simp [paramShares, Function.comp_def]
  | some g => exact List.map_fst_zip (Nat.le_of_eq (by rw [List.length_map, (hsig g rfl).2]))

/-- The shares of parameters and result make up the annotation. -/
theorem ofFunction_paramShares (hsig : Signature ps h) :
    Hint.ofFunction ((paramShares ps h).map Prod.snd) (resultShare ps h) = h := by
  cases h with
  | none => simp [Hint.ofFunction, paramShares, resultShare]
  | some g =>
    have hlen := (hsig g rfl).2
    have hsnd : (paramShares ps (some g)).map Prod.snd = (g.split ps.length).1.map some :=
      List.map_snd_zip (Nat.le_of_eq (by rw [List.length_map, hlen]))
    rw [hsnd]
    exact congrArg some (Hint.foldr_split hlen)

end Signature

end MiniML
