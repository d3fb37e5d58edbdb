import MiniML.Proofs.Grammar.Paired
import MiniML.Proofs.Grammar.SpelledExpr

/-!
# The grammar up to a closing parenthesis

Each rule of the grammar does the same on streams of tokens that are the same up to
a closing parenthesis without a counterpart. Only a few rules read parentheses, and
each of them reads the opening one first and its counterpart last
(`Closes.parens`). What a rule for expressions reads ends an atom.
-/
namespace MiniML.Grammar
open MiniML.Parser

variable {r : Nat}

theorem together_ident : Together r .ended ident ident := by
  refine together_take fun t a ha => ?_
  split at ha
  next s ht => exact ⟨by rw [ht]; exact nofun, by rw [ht]; exact nofun, t, rfl, by rw [ht]; rfl⟩
  next => cases ha

/-- The token of a constant is an atom. -/
theorem endsAtom_of_literal? {l : Lexeme} {o : Except FaultCause Literal}
    (h : literal? l = some o) :
    l ≠ .fixed .lparen ∧ l ≠ .fixed .rparen ∧ l.endsAtom = true := by
  unfold literal? at h
  split at h <;> first | exact ⟨nofun, nofun, rfl⟩ | cases h

theorem together_constant : Together r .ended constant constant := by
  refine together_take fun t a ha => ?_
  obtain ⟨o, ho, -⟩ := Option.map_eq_some_iff.mp ha
  obtain ⟨hl, hr, hend⟩ := endsAtom_of_literal? ho
  exact ⟨hl, hr, t, rfl, hend⟩

theorem together_unit : Together (r + 1) .ended unit unit :=
  Closes.parens fun _ => closes_token (fun _ => rfl) fun _ => rfl

/-! ## Hints -/

section Hint

variable {self self' : Parser Hint}

theorem together_hintItem (h : Together r .nonempty self self') :
    Together (r + 1) .nonempty (hintItem self) (hintItem self') := by
  refine .either ((Closes.parens fun _ => h.closes fun _ =>
    closes_token (fun _ => rfl) fun _ => rfl).mono (k := .ended) (Nat.le_refl _) rfl)
      (together_take fun t a ha => ?_)
  cases hl : t.lexeme with
  | word => exact ⟨nofun, nofun, List.cons_ne_nil _ _⟩
  | fixed f =>
    rw [hl] at ha
    refine ⟨?_, ?_, List.cons_ne_nil _ _⟩ <;> rintro ⟨⟩ <;> cases ha

theorem together_hintProduct (h : Together r .nonempty self self') :
    Together (r + 1) .nonempty (hintProduct self) (hintProduct self') := by
  refine ((together_hintItem h).sepBy1 (by decide) rfl).first (l := .empty) rfl fun hs => ?_
  split <;> exact together_pure _

theorem together_hint : Together r .nonempty hint hint := by
  refine together_recursive (fun r self self' h _ => ?_) ()
  refine (together_hintProduct (h ())).first (l := .any) rfl fun _ => ?_
  have harrow : Together (r + 1) .nonempty (token .arrow *> self ()) (token .arrow *> self' ()) :=
    (together_token (by decide)).seqRight rfl (h ())
  refine harrow.later.optional.bind (l := .empty) fun o => ?_
  cases o <;> exact together_pure _

theorem together_resultHint : Together (r + 1) .nonempty resultHint resultHint :=
  together_hintProduct together_hint

/-- An annotation. -/
theorem together_hinted {p q : Parser Hint} (h : Together r .nonempty p q) :
    Together (r + 1) .nonempty (token .colon *> p) (token .colon *> q) :=
  (together_token (by decide)).seqRight rfl h

end Hint

/-! ## Patterns -/

theorem together_literalPattern : Together (r + 1) .nonempty literalPattern literalPattern :=
  ((together_unit.either together_constant).first (l := .empty) rfl fun _ => together_pure _).mono
    (Nat.le_refl _) rfl

theorem together_tuplePattern {self self' : Parser Pattern} (h : Together r .nonempty self self') :
    Together (r + 1) .nonempty (tuplePattern self) (tuplePattern self') := by
  refine (Closes.parens fun _ => (h.sepBy1 (by decide) rfl).closes fun items => ?_).mono
    (Nat.le_refl _) rfl
  split <;> exact closes_token (fun _ => rfl) fun _ => rfl

theorem together_pattern : Together r .nonempty pattern pattern := by
  refine together_recursive (fun r self self' h _ => ?_) ()
  have hwildcard : Together (r + 1) .nonempty (token .underscore) (token .underscore) :=
    together_token (by decide)
  exact ((together_literalPattern.either (together_tuplePattern (h ()))).either
    (hwildcard.first (l := .empty) rfl fun _ => together_pure _)).either
    ((together_ident.first (l := .empty) rfl fun _ => together_pure _).mono (Nat.le_refl _) rfl)

theorem together_param : Together (r + 1) .nonempty param param := by
  have hhint := (together_hinted (together_hint (r := r))).later
  have hannotated : Together (r + 1) .ended annotatedParam annotatedParam :=
    Closes.parens fun _ => together_pattern.closes fun _ => hhint.closes fun _ =>
      closes_token (fun _ => rfl) fun _ => rfl
  exact (hannotated.mono (Nat.le_refl _) rfl).either
    (together_pattern.first (l := .empty) rfl fun _ => together_pure _)

/-! ## Expressions -/

section Expr

variable {self self' : Self} (h : ∀ g, Together r .ended (self g) (self' g))
include h

/-- An expression that may be missing. -/
theorem together_some (g : Goal) :
    Together r .ended (do return some (← self g)) (do return some (← self' g)) :=
  (h g).bind (l := .empty) fun _ => together_pure _

theorem together_letBody (declaration : Bool) :
    Together r .tail (letBody self declaration) (letBody self' declaration) := by
  have hin : Together r .tail (do let _ ← token .in_; return some (← self (.expr true)))
      (do let _ ← token .in_; return some (← self' (.expr true))) :=
    ((together_token (by decide)).bind fun _ => together_some h _).mono (Nat.le_refl _) rfl
  unfold letBody
  cases declaration with
  | false => exact hin
  | true =>
    refine (together_nextIs _).bind (l := .tail) fun b => ?_
    cases b
    · exact (together_pure _).mono (Nat.le_refl _) rfl
    · exact hin

theorem together_letRule (declaration : Bool) :
    Together (r + 1) .ended (letRule self declaration) (letRule self' declaration) := by
  refine (together_token (by decide)).first (l := .ended) rfl fun _ => ?_
  refine (together_ident.label _).bind (l := .ended) fun _ => ?_
  refine (together_hinted together_hint).later.optional.bind (l := .ended) fun _ => ?_
  refine (together_token (by decide)).bind (l := .ended) fun _ => ?_
  refine (h _).bind (l := .tail) fun _ => ?_
  exact (together_letBody h declaration).bind (l := .empty) fun _ => together_pure _

theorem together_funRest (named : Bool) :
    Together r .tail (funRest self named) (funRest self' named) := by
  unfold funRest
  cases named with
  | false => exact (together_pure _).mono (Nat.le_refl _) rfl
  | true =>
    intro n ts us henc hn
    by_cases hin : ∃ t ∈ ts.head?, t.lexeme = .fixed .in_
    · obtain ⟨t, ht, hl⟩ := hin
      obtain ⟨ts', rfl⟩ := List.head?_eq_some_iff.mp ht
      obtain ⟨us', rfl⟩ := List.head?_eq_some_iff.mp (henc.head?.trans ht)
      have hrest := alike_skip (f := fun _ => (do return some (← self (.expr true))))
        (g := fun _ => (do return some (← self' (.expr true)))) henc (Nat.lt_succ_of_lt hn) ht
        (by rw [hl]; exact nofun) (by rw [hl]; exact nofun) (together_some h _)
      exact .behind rfl rfl .nil (k := .empty) rfl (accepts_nextIs _ hl) (accepts_nextIs _ hl)
        (hrest.mono rfl)
    · have hno : Heads (· ≠ .fixed .in_) ts := fun t ht hl => hin ⟨t, ht, hl⟩
      have hno' : Heads (· ≠ .fixed .in_) us := fun t ht hl => hin ⟨t, henc.head? ▸ ht, hl⟩
      exact .behind rfl rfl .nil (k := .empty) rfl (accepts_nextIs_not hno)
        (accepts_nextIs_not hno') (((together_pure none).mono (Nat.le_refl _) rfl) n ts us henc hn)

theorem together_funRule (declaration : Bool) :
    Together (r + 1) .ended (funRule self declaration) (funRule self' declaration) := by
  have hparams : Together (r + 1) .nonempty (many1 param) (many1 param) := together_param.many1 rfl
  have hresult := (together_hinted (together_resultHint (r := r)).later).later
  refine (together_token (by decide)).first (l := .ended) rfl fun _ => ?_
  refine (hparams.later.label _).bind (l := .ended) fun _ => ?_
  refine hresult.optional.bind (l := .ended) fun _ => ?_
  refine (together_token (by decide)).bind (l := .ended) fun _ => ?_
  refine (h _).bind (l := .tail) fun _ => ?_
  exact (together_funRest h _).bind (l := .empty) fun _ => together_pure _

theorem together_ifRule : Together (r + 1) .ended (ifRule self) (ifRule self') := by
  refine (together_token (by decide)).first (l := .ended) rfl fun _ => ?_
  refine (h _).bind (l := .ended) fun _ => ?_
  refine (together_token (by decide)).bind (l := .ended) fun _ => ?_
  refine (h _).bind (l := .tail) fun _ => (together_nextIs _).bind (l := .tail) fun b => ?_
  cases b
  · exact (together_pure _).mono (Nat.le_refl _) rfl
  · exact ((together_token (by decide)).bind (l := .ended) fun _ =>
      (h _).bind (l := .empty) fun _ => together_pure _).mono (Nat.le_refl _) rfl

theorem together_arm : Together r .ended (arm self) (arm self') := by
  cases r with
  | zero => exact together_zero _ _
  | succ r =>
    have hbody : Together (r + 1) .ended (token .arrow *> self (.expr false))
        (token .arrow *> self' (.expr false)) :=
      (together_token (by decide)).seqRight rfl (h _).later
    exact together_pattern.first (l := .ended) rfl fun _ =>
      hbody.later.bind (l := .empty) fun _ => together_pure _

theorem together_matchRule : Together (r + 1) .ended (matchRule self) (matchRule self') := by
  refine (together_token (by decide)).first (l := .ended) rfl fun _ => ?_
  refine (h _).bind (l := .ended) fun _ => ?_
  refine (together_token (by decide)).bind (l := .ended) fun _ => ?_
  refine (together_token (by decide)).optional.bind (l := .ended) fun _ => ?_
  exact ((together_arm h).sepBy1 (by decide) rfl).bind (l := .empty) fun _ => together_pure _

/-- What an opening parenthesis of an atom is followed by. -/
def behindParen (self : Self) (start : Token) : Parser Expr := do
  if ← nextIs .rparen then
    let stop ← token .rparen
    return .const .unit { span := start.span.merge stop.span }
  let items ← sepBy1 (self (.expr false)) (token .comma)
  let stop ← token .rparen
  match items with
  | [e] => return e
  | es => return .tuple es { span := start.span.merge stop.span }

omit h in
theorem parenthesized_eq (self : Self) :
    parenthesized self = token .lparen >>= behindParen self := rfl

theorem closes_behindParen (start : Token) :
    Closes r (behindParen self start) (behindParen self' start) := by
  refine (together_nextIs _).closes fun b => ?_
  cases b
  · refine ((h _).sepBy1 (by decide) rfl).closes fun items => ?_
    split <;> exact closes_token (fun _ => rfl) fun _ => rfl
  · exact closes_token (fun _ => rfl) fun _ => rfl

theorem together_parenthesized :
    Together (r + 1) .ended (parenthesized self) (parenthesized self') := by
  rw [parenthesized_eq, parenthesized_eq]
  exact Closes.parens (closes_behindParen h)

theorem together_atom : Together (r + 1) .ended (atom self) (atom self') :=
  (((together_ident.first (l := .empty) rfl fun _ => together_pure _).either
    (together_parenthesized h)).either
      (together_constant.first (l := .empty) rfl fun _ => together_pure _)).label _

theorem together_atoms {s n m : Nat} (hs : s ≤ r) (hn : s ≤ n + 1) (hm : s ≤ m + 1) :
    Together s .tail (atoms self n) (atoms self' m) := by
  induction s generalizing n m with
  | zero => exact together_zero _ _
  | succ s ih =>
    intro j ts us henc hj
    cases j with
    | zero =>
      -- whatever the bounds are, no atom starts here
      obtain ⟨hts, hus⟩ := henc.heads
      refine .read [] [] ts us rfl rfl .nil (.inl rfl) (accepts_atoms_nil (hts.mono ?_) n)
        (accepts_atoms_nil (hus.mono ?_) m) <;> exact fun _ hl => hl ▸ rfl
    | succ j =>
      obtain ⟨n, rfl⟩ : ∃ k, n = k + 1 := Nat.exists_eq_succ_of_ne_zero (by omega)
      obtain ⟨m, rfl⟩ : ∃ k, m = k + 1 := Nat.exists_eq_succ_of_ne_zero (by omega)
      have hself : ∀ g, Together s .ended (self g) (self' g) := fun g =>
        (h g).mono (Nat.le_of_succ_le hs) rfl
      have hnil : Together (s + 1) .tail (pure []) (pure [] : Parser (List Expr)) :=
        (together_pure _).mono (Nat.le_refl _) rfl
      have hrest : Together s .tail (atoms self n) (atoms self' m) :=
        ih (Nat.le_of_succ_le hs) (by omega) (by omega)
      have hatoms := (together_atom hself).first (l := .tail) rfl fun e =>
        hrest.bind (l := .empty) fun es => together_pure (e :: es)
      refine together_peek (fun j ts us henc hj => ?_) _ _ _ henc hj
      split
      · exact hnil _ _ _ henc hj
      · split
        · exact (hatoms _ _ _ henc hj).mono rfl
        · exact hnil _ _ _ henc hj

theorem together_application : Together (r + 1) .ended (application self) (application self') := by
  refine (together_atom h).first (l := .tail) rfl fun _ => (together_remaining (p := atoms self)
    (q := atoms self') fun _ _ _ hs hn hm => together_atoms h hs hn hm).bind (l := .empty)
      fun args => ?_
  split <;> exact together_pure _

theorem together_operandRule : Together (r + 1) .ended (operandRule self) (operandRule self') := by
  refine together_peek fun n ts us henc hn => ?_
  cases ht : ts.head? with
  | none => exact together_application h _ _ _ henc hn
  | some t =>
    dsimp only
    cases hop : unaryOp? t.lexeme with
    | none => exact together_application h _ _ _ henc hn
    | some op =>
      have hne : t.lexeme ≠ .fixed .lparen ∧ t.lexeme ≠ .fixed .rparen := by
        constructor <;> rintro hl <;> rw [hl] at hop <;> cases hop
      refine alike_skip (k := .ended) henc hn ht hne.1 hne.2 ?_
      exact (h _).bind (l := .empty) fun _ => together_pure _

theorem together_rightOperand (op : BinaryOp) :
    Together r .ended (rightOperand self op) (rightOperand self' op) := by
  refine together_peek fun n ts us henc hn => ?_
  split
  · split <;> exact h _ _ _ _ henc hn
  · exact h _ _ _ _ henc hn

theorem together_operators {s n m : Nat} (hs : s ≤ r) (hn : s ≤ n + 1) (hm : s ≤ m + 1)
    (least : Nat) (left : Expr) :
    Together s .tail (operators self least n left) (operators self' least m left) := by
  induction s generalizing n m left with
  | zero => exact together_zero _ _
  | succ s ih =>
    intro j ts us henc hj
    cases j with
    | zero =>
      obtain ⟨hts, hus⟩ := henc.heads
      refine .read left [] ts us rfl rfl .nil (.inl rfl)
        (accepts_operators_nil (hts.mono ?_) least n rfl)
        (accepts_operators_nil (hus.mono ?_) least m rfl) <;> exact fun _ hl => hl ▸ rfl
    | succ j =>
      obtain ⟨n, rfl⟩ : ∃ k, n = k + 1 := Nat.exists_eq_succ_of_ne_zero (by omega)
      obtain ⟨m, rfl⟩ : ∃ k, m = k + 1 := Nat.exists_eq_succ_of_ne_zero (by omega)
      have hleft : Together (s + 1) .tail (pure left) (pure left) :=
        (together_pure _).mono (Nat.le_refl _) rfl
      refine together_peek (fun j ts us henc hj => ?_) _ _ _ henc hj
      cases ht : ts.head? with
      | none => exact hleft _ _ _ henc hj
      | some t =>
        dsimp only
        cases hop : binaryOp? t.lexeme with
        | none => exact hleft _ _ _ henc hj
        | some op =>
          dsimp only
          split
          · exact hleft _ _ _ henc hj
          · have hne : t.lexeme ≠ .fixed .lparen ∧ t.lexeme ≠ .fixed .rparen := by
              constructor <;> rintro hl <;> rw [hl] at hop <;> cases hop
            refine (alike_skip (k := .ended) henc hj ht hne.1 hne.2 ?_).mono rfl
            have hright : Together s .ended (rightOperand self op) (rightOperand self' op) :=
              (together_rightOperand h op).mono (Nat.le_of_succ_le hs) rfl
            have hrest (x : Expr) : Together s .tail (operators self least n x)
                (operators self' least m x) := ih (Nat.le_of_succ_le hs) (by omega) (by omega) x
            exact hright.bind (l := .tail) fun right => hrest _

theorem together_binaryRule (least : Nat) :
    Together (r + 1) .ended (binaryRule self least) (binaryRule self' least) :=
  (together_operandRule h).first (l := .tail) rfl fun left =>
    together_remaining (p := fun n => operators self least n left)
      (q := fun n => operators self' least n left)
      fun _ _ _ hs hn hm => together_operators h hs hn hm least left

theorem together_exprRule (g : Goal) :
    Together (r + 1) .ended (exprRule self g) (exprRule self' g) := by
  cases g with
  | operand => exact together_operandRule h
  | binary least => exact together_binaryRule h least
  | expr declaration =>
    refine together_peek fun n ts us henc hn => ?_
    split
    · exact together_letRule h declaration _ _ _ henc hn
    · exact together_funRule h declaration _ _ _ henc hn
    · exact together_ifRule h _ _ _ henc hn
    · exact together_matchRule h _ _ _ henc hn
    · exact together_binaryRule h 1 _ _ _ henc hn

end Expr

/-- Every goal of the grammar of expressions. -/
theorem together_goal (g : Goal) :
    Together r .ended (recursive exprRule g) (recursive exprRule g) :=
  together_recursive (fun _ _ _ h g => together_exprRule h g) g

end MiniML.Grammar
