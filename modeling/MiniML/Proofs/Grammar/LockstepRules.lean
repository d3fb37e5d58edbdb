import MiniML.Proofs.Grammar.Lockstep

/-!
# The grammar in lockstep

Each rule of the grammar takes cursors beside each other to cursors beside each
other. A rule that calls itself does so behind a token, so it agrees on `r + 1`
tokens if the parsers that it calls agree on `r` tokens; this is what the recursion
asks for (`Passage.lockstep_recursive`).

Where a rule looks at the next token, a separator must lead it the same way as the
end of the tokens does.
-/
namespace MiniML.Grammar
open MiniML.Parser MiniML.Passage

variable {P : Passage} {r : Nat}

theorem lockstep_ident : P.Lockstep r 1 ident ident :=
  lockstep_take fun t ht => by rw [ht]

theorem lockstep_constant : P.Lockstep r 1 constant constant :=
  lockstep_take fun t ht => by rw [ht]; rfl

theorem lockstep_unit : P.Lockstep r 1 unit unit := by
  cases r with
  | zero => exact lockstep_zero _ _
  | succ r =>
    exact (lockstep_token (by decide)).first fun _ =>
      (lockstep_token (by decide)).weaken.bind fun _ => lockstep_pure _

/-! ## Hints -/

section Hint

variable {self self' : Parser Hint}

theorem lockstep_hintItem (h : P.Lockstep r 1 self self') :
    P.Lockstep (r + 1) 1 (hintItem self) (hintItem self') := by
  refine .either ?_ (lockstep_take fun t ht => by rw [ht]; rfl)
  exact (lockstep_token (by decide)).first fun _ => h.weaken.bind fun _ =>
    (lockstep_token (by decide)).weaken.bind fun _ => lockstep_pure _

theorem lockstep_hintProduct (h : P.Lockstep r 1 self self') :
    P.Lockstep (r + 1) 1 (hintProduct self) (hintProduct self') := by
  refine ((lockstep_hintItem h).sepBy1 (by decide)).first fun hs => ?_
  split <;> exact lockstep_pure _

theorem lockstep_hintRule {self self' : Unit → Parser Hint}
    (h : ∀ i, P.Lockstep r 1 (self i) (self' i)) (i : Unit) :
    P.Lockstep (r + 1) 1 (hintRule self i) (hintRule self' i) := by
  refine (lockstep_hintProduct (h ())).first fun _ => ?_
  have harrow : P.Lockstep (r + 1) 1 (token .arrow *> self ()) (token .arrow *> self' ()) :=
    (lockstep_token (by decide)).seqRight (h ()).weaken
  refine harrow.later.weaken.optional.bind fun o => ?_
  cases o <;> exact lockstep_pure _

theorem lockstep_hint : P.Lockstep r 1 hint hint :=
  lockstep_recursive (fun _ _ _ => lockstep_hintRule) ()

theorem lockstep_resultHint : P.Lockstep (r + 1) 1 resultHint resultHint :=
  lockstep_hintProduct lockstep_hint

end Hint

/-! ## Patterns -/

theorem lockstep_literalPattern : P.Lockstep (r + 1) 1 literalPattern literalPattern :=
  (lockstep_unit.either lockstep_constant).first fun _ => lockstep_pure _

theorem lockstep_tuplePattern {self self' : Parser Pattern} (h : P.Lockstep r 1 self self') :
    P.Lockstep (r + 1) 1 (tuplePattern self) (tuplePattern self') := by
  refine (lockstep_token (by decide)).first fun _ => (h.sepBy1 (by decide)).weaken.bind fun _ =>
    (lockstep_token (by decide)).weaken.bind fun _ => ?_
  split <;> exact lockstep_pure _

theorem lockstep_patternRule {self self' : Unit → Parser Pattern}
    (h : ∀ i, P.Lockstep r 1 (self i) (self' i)) (i : Unit) :
    P.Lockstep (r + 1) 1 (patternRule self i) (patternRule self' i) := by
  have hwildcard : P.Lockstep (r + 1) 1 (token .underscore) (token .underscore) :=
    lockstep_token (by decide)
  exact ((lockstep_literalPattern.either (lockstep_tuplePattern (h ()))).either
    (hwildcard.first fun _ => lockstep_pure _)).either
    (lockstep_ident.first fun _ => lockstep_pure _)

theorem lockstep_pattern : P.Lockstep r 1 pattern pattern :=
  lockstep_recursive (fun _ _ _ => lockstep_patternRule) ()

theorem lockstep_param : P.Lockstep (r + 1) 1 param param := by
  refine .either ?_ (lockstep_pattern.first fun _ => lockstep_pure _)
  have hhint : P.Lockstep (r + 1) 1 (token .colon *> hint) (token .colon *> hint) :=
    (lockstep_token (by decide)).seqRight lockstep_hint.weaken
  exact (lockstep_token (by decide)).first fun _ => lockstep_pattern.weaken.bind fun _ =>
    hhint.later.weaken.bind fun _ => (lockstep_token (by decide)).weaken.bind fun _ =>
      lockstep_pure _

/-! ## Expressions -/

section Expr

variable {self self' : Self} (h : ∀ g, P.Lockstep r 1 (self g) (self' g))
include h

theorem lockstep_letBody (declaration : Bool) :
    P.Lockstep r 0 (letBody self declaration) (letBody self' declaration) := by
  have hin : P.Lockstep r 0 (do let _ ← token .in_; return some (← self (.expr true)))
      (do let _ ← token .in_; return some (← self' (.expr true))) :=
    (lockstep_token (by decide)).weaken.bind fun _ => (h _).weaken.bind fun _ => lockstep_pure _
  unfold letBody
  cases declaration with
  | false => exact hin
  | true =>
    refine (lockstep_nextIs (by decide)).bind fun b => ?_
    cases b
    · exact lockstep_pure _
    · exact hin

theorem lockstep_letRule (declaration : Bool) :
    P.Lockstep (r + 1) 1 (letRule self declaration) (letRule self' declaration) := by
  have hhint : P.Lockstep (r + 1) 1 (token .colon *> hint) (token .colon *> hint) :=
    (lockstep_token (by decide)).seqRight lockstep_hint.weaken
  exact (lockstep_token (by decide)).first fun _ => (lockstep_ident.label _).weaken.bind fun _ =>
    hhint.later.weaken.optional.bind fun _ => (lockstep_token (by decide)).weaken.bind fun _ =>
      (h _).weaken.bind fun _ => (lockstep_letBody h declaration).bind fun _ => lockstep_pure _

/-- A rest is read from the token that was seen. -/
theorem lockstep_funRest (named : Bool) :
    P.Lockstep r 0 (funRest self named) (funRest self' named) := by
  unfold funRest
  cases named with
  | false => exact lockstep_pure _
  | true =>
    intro c d hb hlt
    have hsome : P.Lockstep r 0 (do return some (← self (.expr true)))
        (do return some (← self' (.expr true))) := (h _).weaken.bind fun _ => lockstep_pure _
    show P.Agree _ ((if c.nextIs .in_ then skip >>= fun _ => do return some (← self (.expr true))
      else pure none : Parser (Option Expr)) c) ((if d.nextIs .in_ then skip >>= fun _ => do
        return some (← self' (.expr true)) else pure none : Parser (Option Expr)) d)
    rw [hb.nextIs (by decide)]
    split
    next hin =>
      have hinside : c.index < P.body.length := by
        refine Nat.lt_of_le_of_ne hb.inside fun hend => ?_
        rcases hb.cases with ⟨t, hc, -, hlt⟩ | ⟨hc, -, -⟩
        · exact Nat.ne_of_lt hlt hend
        · unfold Cursor.nextIs at hin
          rw [hc] at hin
          cases hin
      exact (agree_skip hb (Nat.lt_succ_of_lt hlt) hinside hsome).mono (Nat.le_succ _)
    next => exact .ok none hb (Nat.le_refl _)

theorem lockstep_funRule (declaration : Bool) :
    P.Lockstep (r + 1) 1 (funRule self declaration) (funRule self' declaration) := by
  have hparams : P.Lockstep (r + 1) 1 (many1 param) (many1 param) := lockstep_param.many1
  have hhint : P.Lockstep (r + 1) 1 (token .colon *> resultHint) (token .colon *> resultHint) :=
    (lockstep_token (by decide)).seqRight (lockstep_resultHint.later.weaken)
  refine (lockstep_token (by decide)).first fun _ => (hparams.later.label _).weaken.bind fun _ =>
    hhint.later.weaken.optional.bind fun _ => (lockstep_token (by decide)).weaken.bind fun _ =>
      (h _).weaken.bind fun _ => ?_
  exact (lockstep_funRest h _).bind fun _ => lockstep_pure _

theorem lockstep_ifRule : P.Lockstep (r + 1) 1 (ifRule self) (ifRule self') := by
  refine (lockstep_token (by decide)).first fun _ => (h _).weaken.bind fun _ =>
    (lockstep_token (by decide)).weaken.bind fun _ => (h _).weaken.bind fun _ =>
      (lockstep_nextIs (by decide)).bind fun b => ?_
  cases b
  · exact lockstep_pure _
  · exact (lockstep_token (by decide)).weaken.bind fun _ => (h _).weaken.bind fun _ =>
      lockstep_pure _

theorem lockstep_arm : P.Lockstep r 1 (arm self) (arm self') := by
  cases r with
  | zero => exact lockstep_zero _ _
  | succ r =>
    have hbody : P.Lockstep (r + 1) 1 (token .arrow *> self (.expr false))
        (token .arrow *> self' (.expr false)) :=
      (lockstep_token (by decide)).seqRight (h _).later.weaken
    exact lockstep_pattern.first fun _ => hbody.later.weaken.bind fun _ => lockstep_pure _

theorem lockstep_matchRule : P.Lockstep (r + 1) 1 (matchRule self) (matchRule self') :=
  (lockstep_token (by decide)).first fun _ => (h _).weaken.bind fun _ =>
    (lockstep_token (by decide)).weaken.bind fun _ =>
      (lockstep_token (by decide)).weaken.optional.bind fun _ =>
        ((lockstep_arm h).sepBy1 (by decide)).weaken.bind fun _ => lockstep_pure _

theorem lockstep_parenthesized :
    P.Lockstep (r + 1) 1 (parenthesized self) (parenthesized self') := by
  refine (lockstep_token (by decide)).first fun _ => (lockstep_nextIs (by decide)).bind fun b => ?_
  cases b
  · refine ((h _).sepBy1 (by decide)).weaken.bind fun _ =>
      (lockstep_token (by decide)).weaken.bind fun _ => ?_
    split <;> exact lockstep_pure _
  · exact (lockstep_token (by decide)).weaken.bind fun _ => lockstep_pure _

theorem lockstep_atom : P.Lockstep (r + 1) 1 (atom self) (atom self') :=
  (((lockstep_ident.first fun _ => lockstep_pure _).either (lockstep_parenthesized h)).either
    (lockstep_constant.first fun _ => lockstep_pure _)).label _

omit h in
theorem atoms_eq_nil {c : Cursor} (hc : ∀ t ∈ c.peek, startsAtom t.lexeme = false) (n : Nat) :
    atoms self n c = .ok [] c := by
  cases n with
  | zero => rfl
  | succ n =>
    rw [atoms, peek_bind]
    cases hpeek : c.peek with
    | none => rfl
    | some t =>
      dsimp only
      rw [hc t hpeek]
      rfl

/-- Before the end of the passage there is a token left for each round, and at the
end the bounds do not matter. -/
theorem lockstep_atoms {s n m : Nat} (hs : s ≤ r) (hn : s ≤ n + 1) (hm : s ≤ m + 1) :
    P.Lockstep s 0 (atoms self n) (atoms self' m) := by
  induction s generalizing n m with
  | zero => exact lockstep_zero _ _
  | succ s ih =>
    intro c d hb hlt
    rcases hb.cases with ⟨t, hc, hd, hinside⟩ | ⟨hc, hd, -⟩
    · obtain ⟨n, rfl⟩ : ∃ k, n = k + 1 := Nat.exists_eq_succ_of_ne_zero (by omega)
      obtain ⟨m, rfl⟩ : ∃ k, m = k + 1 := Nat.exists_eq_succ_of_ne_zero (by omega)
      have hself : ∀ g, P.Lockstep s 1 (self g) (self' g) := fun g =>
        (h g).mono (Nat.le_of_succ_le hs) (Nat.le_refl _)
      rw [atoms, atoms, peek_bind, peek_bind, hc, hd]
      dsimp only
      split
      · refine ((lockstep_atom hself).first fun _ => ?_).weaken c d hb hlt
        exact (ih (Nat.le_of_succ_le hs) (by omega) (by omega)).bind fun _ => lockstep_pure _
      · exact .ok [] hb (Nat.le_refl _)
    · have hsep : ∀ t ∈ d.peek, startsAtom t.lexeme = false := fun t ht => by
        rw [P.separated t (hd ▸ ht)]
        rfl
      rw [atoms_eq_nil (by rw [hc]; exact nofun), atoms_eq_nil hsep]
      exact .ok [] hb (Nat.le_refl _)

theorem lockstep_application : P.Lockstep (r + 1) 1 (application self) (application self') := by
  refine (lockstep_atom h).first fun _ => (lockstep_remaining (p := atoms self) (q := atoms self')
    fun _ _ _ hs hn hm => lockstep_atoms h hs hn hm).bind fun args => ?_
  split <;> exact lockstep_pure _

theorem lockstep_operandRule : P.Lockstep (r + 1) 1 (operandRule self) (operandRule self') := by
  refine lockstep_peek (fun t c d hb hlt hinside => ?_) fun o ho => ?_
  · dsimp only
    cases unaryOp? t.lexeme with
    | none => exact lockstep_application h c d hb hlt
    | some op => exact agree_skip hb hlt hinside ((h _).weaken.bind fun _ => lockstep_pure _)
  · cases o with
    | none => exact lockstep_application h
    | some t =>
      dsimp only
      rw [ho t rfl]
      exact lockstep_application h

theorem lockstep_rightOperand (op : BinaryOp) :
    P.Lockstep r 1 (rightOperand self op) (rightOperand self' op) := by
  refine lockstep_peek (fun t c d hb hlt _ => ?_) fun o ho => ?_
  · dsimp only
    split <;> exact h _ c d hb hlt
  · cases o with
    | none => exact h _
    | some t =>
      dsimp only
      rw [ho t rfl]
      exact h _

omit h in
theorem operators_eq_left {c : Cursor} (hc : ∀ t ∈ c.peek, binaryOp? t.lexeme = none)
    (least n : Nat) (left : Expr) : operators self least n left c = .ok left c := by
  cases n with
  | zero => rfl
  | succ n =>
    rw [operators, peek_bind]
    cases hpeek : c.peek with
    | none => rfl
    | some t =>
      dsimp only
      rw [hc t hpeek]
      rfl

theorem lockstep_operators {s n m : Nat} (hs : s ≤ r) (hn : s ≤ n + 1) (hm : s ≤ m + 1)
    (least : Nat) (left : Expr) :
    P.Lockstep s 0 (operators self least n left) (operators self' least m left) := by
  induction s generalizing n m left with
  | zero => exact lockstep_zero _ _
  | succ s ih =>
    intro c d hb hlt
    rcases hb.cases with ⟨t, hc, hd, hinside⟩ | ⟨hc, hd, -⟩
    · obtain ⟨n, rfl⟩ : ∃ k, n = k + 1 := Nat.exists_eq_succ_of_ne_zero (by omega)
      obtain ⟨m, rfl⟩ : ∃ k, m = k + 1 := Nat.exists_eq_succ_of_ne_zero (by omega)
      rw [operators, operators, peek_bind, peek_bind, hc, hd]
      dsimp only
      cases binaryOp? t.lexeme with
      | none => exact .ok left hb (Nat.le_refl _)
      | some op =>
        dsimp only
        split
        · exact .ok left hb (Nat.le_refl _)
        · refine (agree_skip hb hlt hinside ?_).mono (Nat.le_succ _)
          refine (((lockstep_rightOperand h op).mono (Nat.le_of_succ_le hs) (Nat.zero_le _))).bind
            fun right => ih (Nat.le_of_succ_le hs) (by omega) (by omega) _
    · have hsep : ∀ t ∈ d.peek, binaryOp? t.lexeme = none := fun t ht => by
        rw [P.separated t (hd ▸ ht)]
        rfl
      rw [operators_eq_left (by rw [hc]; exact nofun), operators_eq_left hsep]
      exact .ok left hb (Nat.le_refl _)

theorem lockstep_binaryRule (least : Nat) :
    P.Lockstep (r + 1) 1 (binaryRule self least) (binaryRule self' least) :=
  (lockstep_operandRule h).first fun left =>
    lockstep_remaining (p := fun n => operators self least n left)
      (q := fun n => operators self' least n left)
      fun _ _ _ hs hn hm => lockstep_operators h hs hn hm least left

theorem lockstep_exprRule (g : Goal) :
    P.Lockstep (r + 1) 1 (exprRule self g) (exprRule self' g) := by
  cases g with
  | operand => exact lockstep_operandRule h
  | binary least => exact lockstep_binaryRule h least
  | expr declaration =>
    refine lockstep_peek (fun t c d hb hlt _ => ?_) fun o ho => ?_
    · rw [Option.map_some]
      generalize some t.lexeme = l
      split
      · exact lockstep_letRule h declaration c d hb hlt
      · exact lockstep_funRule h declaration c d hb hlt
      · exact lockstep_ifRule h c d hb hlt
      · exact lockstep_matchRule h c d hb hlt
      · exact lockstep_binaryRule h 1 c d hb hlt
    · cases o with
      | none => exact lockstep_binaryRule h 1
      | some t =>
        dsimp only [Option.map_some]
        rw [ho t rfl]
        exact lockstep_binaryRule h 1

end Expr

theorem lockstep_declaration : P.Lockstep r 1 declaration declaration :=
  lockstep_recursive (fun _ _ _ h g => lockstep_exprRule h g) (.expr true)

end MiniML.Grammar
