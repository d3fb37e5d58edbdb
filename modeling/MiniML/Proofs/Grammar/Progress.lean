import MiniML.Proofs.Grammar.Bounds
import MiniML.Proofs.Grammar.Recovery

/-!
# Reading comes to an end

The rules of the grammar call themselves only behind a token, so none of their bounds is
reached (`Parser.settles`), and neither are those of the repetitions in them
(`repetitionsEnd`). The loop that reads declarations comes to an end as well: a turn
that reports a fault resumes behind the token it began with at least, and one that reports
none has read a tree, for which it has taken a token (`turn_later`). So there are at most
as many turns as there are tokens, each with one tree and one fault at most, and the last
one leaves no token behind it (`turnsUpTo_stop`).

Results:
* `parse_progress`: all of this for the rules, their repetitions, and programs.
-/
namespace MiniML.Grammar
open MiniML.Parser

/-! ## The rules are guarded -/

theorem ends_hintItem (self self' : Parser Hint) : Ends (hintItem self) (hintItem self') :=
  (ends_token _).bind.either (ends_take _ _)

theorem ends_hintProduct (self self' : Parser Hint) :
    Ends (hintProduct self) (hintProduct self') :=
  (ends_hintItem self self').bind.bind

theorem guarded_hintRule : Guarded hintRule where
  onward _ h := onward_hintRule h
  lockstep _ _ _ _ h := lockstep_hintRule h
  ends self self' _ := (ends_hintProduct (self ()) (self' ())).bind

theorem ends_patternRule (self self' : Unit → Parser Pattern) (i : Unit) :
    Ends (patternRule self i) (patternRule self' i) := by
  have hliteral : Ends literalPattern literalPattern :=
    ((ends_token .lparen).bind.either (ends_take _ _)).bind
  have htuple : Ends (tuplePattern (self ())) (tuplePattern (self' ())) := (ends_token _).bind
  exact ((hliteral.either htuple).either (ends_token _).bind).either (ends_take _ _).bind

theorem guarded_patternRule : Guarded patternRule where
  onward _ h := onward_patternRule h
  lockstep _ _ _ _ h := lockstep_patternRule h
  ends := ends_patternRule

theorem ends_atom (self self' : Self) : Ends (atom self) (atom self') := by
  have hparens : Ends (parenthesized self) (parenthesized self') := (ends_token _).bind
  exact (((ends_take _ _).bind.either hparens).either (ends_take _ _).bind).label _

theorem ends_binaryRule (self self' : Self) (least : Nat) :
    Ends (binaryRule self least) (binaryRule self' least) :=
  (ends_peek (ends_atom self self').bind).bind

theorem guarded_exprRule : Guarded exprRule where
  onward _ h := onward_exprRule h
  lockstep _ _ _ _ h := lockstep_exprRule h
  ends self self' g := by
    cases g with
    | operand => exact ends_peek (ends_atom self self').bind
    | binary least => exact ends_binaryRule self self' least
    | expr declaration => exact ends_peek (ends_binaryRule self self' 1)

/-! ## The repetitions -/

/-- What the rules of the grammar repeat, down at any level of their unrolling. -/
inductive Repeated : {α : Type} → Parser α → Prop
  | hint (n : Nat) : Repeated (token .star *> hintItem (unroll hintRule n ()))
  | result : Repeated (token .star *> hintItem hint)
  | pattern (n : Nat) : Repeated (token .comma *> unroll patternRule n ())
  | param : Repeated param
  | arm (n : Nat) : Repeated (token .pipe *> arm (unroll exprRule n))
  | expr (n : Nat) : Repeated (token .comma *> unroll exprRule n (.expr false))

variable {α : Type} {c : Cursor}

theorem steady_hintItem {self : Parser Hint} (h : Steady self) : Steady (hintItem self) where
  onward := onward_hintItem h.onward
  lockstep P r := by
    cases r with
    | zero => exact Passage.lockstep_zero _ _
    | succ r => exact lockstep_hintItem (h.lockstep P r)
  ends := ends_hintItem self self

theorem steady_hint : Steady hint where
  onward := onward_hint
  lockstep _ _ := lockstep_hint
  ends c hc := guarded_hintRule.ends (unroll hintRule c.remaining) (unroll hintRule c.remaining)
    () c hc

theorem steady_pattern : Steady pattern where
  onward := onward_pattern
  lockstep _ _ := lockstep_pattern
  ends c hc := ends_patternRule (unroll patternRule c.remaining) (unroll patternRule c.remaining)
    () c hc

theorem steady_param : Steady param where
  onward := onward_param
  lockstep P r := by
    cases r with
    | zero => exact Passage.lockstep_zero _ _
    | succ r => exact lockstep_param
  ends := (ends_token _).bind.either steady_pattern.ends.bind

theorem steady_arm {self : Self} (h : ∀ g, Steady (self g)) : Steady (arm self) where
  onward := onward_arm fun g => (h g).onward
  lockstep P r := by
    cases r with
    | zero => exact Passage.lockstep_zero _ _
    | succ r => exact lockstep_arm fun g => (h g).lockstep P (r + 1)
  ends := steady_pattern.ends.bind

theorem Repeated.steady {p : Parser α} (h : Repeated p) : Steady p := by
  cases h with
  | hint n => exact (steady_hintItem (steady_unroll guarded_hintRule n ())).behind (by decide)
  | result => exact (steady_hintItem steady_hint).behind (by decide)
  | pattern n => exact (steady_unroll guarded_patternRule n ()).behind (by decide)
  | param => exact steady_param
  | arm n => exact (steady_arm (steady_unroll guarded_exprRule n)).behind (by decide)
  | expr n => exact (steady_unroll guarded_exprRule n _).behind (by decide)

/-- Atoms in a row end before the tokens do. -/
theorem atoms_eq {self : Self} (h : ∀ g, Steady (self g))
    (hfar : ∀ kf ∈ c.furthest, kf.1 ≤ c.tokens.size) {n : Nat} (hn : c.remaining ≤ n) :
    atoms self n c = atoms self c.remaining c := by
  cases ht : c.peek with
  | none =>
    have hnone (n : Nat) : atoms self n c = .ok [] c := by
      cases n with
      | zero => rfl
      | succ n =>
        rw [atoms, Passage.peek_bind, ht]
        rfl
    rw [hnone, hnone]
  | some t =>
    have honward := onward_atoms fun g => (h g).onward
    exact (Passage.eq_of_lockstep ht hfar (honward n) (honward c.remaining) fun P =>
      lockstep_atoms (r := c.remaining + 1) (fun g => (h g).lockstep P _) (Nat.le_refl _)
        (Nat.succ_le_succ hn) (Nat.le_refl _)).1

/-- Operators in a row end before the tokens do. -/
theorem operators_eq {self : Self} (h : ∀ g, Steady (self g))
    (hfar : ∀ kf ∈ c.furthest, kf.1 ≤ c.tokens.size) (least : Nat) (left : Expr) {n : Nat}
    (hn : c.remaining ≤ n) :
    operators self least n left c = operators self least c.remaining left c := by
  cases ht : c.peek with
  | none =>
    have hnone : ∀ t ∈ c.peek, binaryOp? t.lexeme = none := by
      rw [ht]
      exact nofun
    rw [operators_eq_left hnone, operators_eq_left hnone]
  | some t =>
    have honward := onward_operators fun g => (h g).onward
    exact (Passage.eq_of_lockstep ht hfar (honward least n left) (honward least c.remaining left)
      fun P => lockstep_operators (r := c.remaining + 1) (fun g => (h g).lockstep P _)
        (Nat.le_refl _) (Nat.succ_le_succ hn) (Nat.le_refl _) least left).1

/-- No repetition of the grammar comes to its bound at a cursor. -/
structure RepetitionsEnd (c : Cursor) : Prop where
  many : ∀ {α : Type} (p : Parser α), Repeated p → ∀ n, c.remaining < n →
    manyUpTo p n c = many p c
  atoms : ∀ k n, c.remaining ≤ n →
    atoms (unroll exprRule k) n c = atoms (unroll exprRule k) c.remaining c
  operators : ∀ k least left n, c.remaining ≤ n →
    operators (unroll exprRule k) least n left c =
      operators (unroll exprRule k) least c.remaining left c
  skipWhile : ∀ p n, c.remaining ≤ n → c.skipWhile p n = c.skipWhile p c.remaining

theorem repetitionsEnd (hfar : ∀ kf ∈ c.furthest, kf.1 ≤ c.tokens.size) : RepetitionsEnd c where
  many _ hp _ hn := hp.steady.manyUpTo_eq hfar hn
  atoms k _ hn := atoms_eq (steady_unroll guarded_exprRule k) hfar hn
  operators k least left _ hn :=
    operators_eq (steady_unroll guarded_exprRule k) hfar least left hn
  skipWhile p n hn := by rw [skipWhile_eq p n hn, skipWhile_eq p _ (Nat.le_refl _)]

/-! ## Programs -/

/-- A turn ends behind the token with which it began. -/
theorem turn_later (hnext : c.index < c.tokens.size) : c.index < (turn c).2.index := by
  have hleads := turn_leads hnext
  cases hfault : (turn c).1.fault with
  | some kf =>
    have hle := le_nextBoundary c.tokens.toList
      (max (if (turn c).1.tree.isSome then (turn c).1.stop else kf.1) ((turn c).1.start + 1))
    have hresume := hleads.resume kf hfault
    have hstart := hleads.start
    have hindex := hleads.index
    omega
  | none =>
    -- nothing is reported only if a tree was read up to a boundary
    have hsettles := settles guarded_exprRule (.expr true) (c := c.clear) nofun
    unfold turn at hfault ⊢
    cases hd : declaration c.clear with
    | ok d c' =>
      rw [hd] at hfault
      dsimp only at hfault ⊢
      unfold endDeclaration
      split
      · exact hsettles.taken d c' hd
      next hboundary =>
        rw [if_neg hboundary] at hfault
        obtain ⟨kf, hrecord, -⟩ := record_eq c' (junk c')
        rw [hrecord] at hfault
        cases hfault
    | error f c' =>
      rw [hd] at hfault
      dsimp only at hfault
      cases hc' : c'.furthest with
      | none => simp [hc', Cursor.record] at hfault
      | some kf => simp [hc'] at hfault

/-- Fewer tokens are left after a turn. -/
theorem remaining_turn (hc : c.Inside) (hnext : (skipSeparators c).hasNext) :
    (turn (skipSeparators c)).2.Inside ∧
      (turn (skipSeparators c)).2.tokens = c.tokens ∧
      (turn (skipSeparators c)).2.remaining < c.remaining := by
  obtain ⟨-, hle, htokens, -⟩ := skipSeparators_inside hc
  have hlt := of_decide_eq_true hnext
  have hleads := turn_leads hlt
  have hlater := turn_later hlt
  have hsame : (turn (skipSeparators c)).2.tokens = c.tokens := hleads.tokens.trans htokens
  refine ⟨hleads.inside, hsame, ?_⟩
  unfold Cursor.remaining
  rw [hsame]
  rw [htokens] at hlt
  omega

/-- The turns end with the tokens, and there are no more turns than tokens. -/
theorem turnsUpTo_stop {n : Nat} (hc : c.Inside) (hn : c.remaining < n) :
    (turnsUpTo n c).2.index = c.tokens.size ∧ (turnsUpTo n c).1.length ≤ c.remaining := by
  induction n generalizing c with
  | zero => cases hn
  | succ n ih =>
    by_cases hnext : (skipSeparators c).hasNext
    · obtain ⟨hinside, htokens, hfewer⟩ := remaining_turn hc hnext
      obtain ⟨hend, hlength⟩ := ih hinside (by omega)
      rw [turnsUpTo_next n hnext]
      exact ⟨hend.trans (congrArg Array.size htokens), by rw [List.length_cons]; omega⟩
    · obtain ⟨hinside, -, htokens, -⟩ := skipSeparators_inside hc
      have hge : ¬ (skipSeparators c).index < (skipSeparators c).tokens.size := by
        simpa [Cursor.hasNext] using hnext
      rw [turnsUpTo_end n hnext, ← htokens]
      exact ⟨Nat.le_antisymm hinside (Nat.le_of_not_lt hge), Nat.zero_le _⟩

/-- Any more turns are not taken. -/
theorem turnsUpTo_eq {n m : Nat} (hc : c.Inside) (hn : c.remaining < n) (hm : c.remaining < m) :
    turnsUpTo n c = turnsUpTo m c := by
  induction n generalizing c m with
  | zero => cases hn
  | succ n ih =>
    obtain ⟨m, rfl⟩ := Nat.exists_eq_succ_of_ne_zero (Nat.ne_zero_of_lt hm)
    by_cases hnext : (skipSeparators c).hasNext
    · obtain ⟨hinside, -, hfewer⟩ := remaining_turn hc hnext
      rw [turnsUpTo_next n hnext, turnsUpTo_next m hnext,
        ih (m := m) hinside (by omega) (by omega)]
    · rw [turnsUpTo_end n hnext, turnsUpTo_end m hnext]

/-- The rules of the grammar come to an end wherever they begin in the tokens, behind a
token if they succeed. Reading a program comes to the end of its tokens, with no more
declarations and no more faults than there are tokens. -/
theorem parse_progress (tokens : List Token) :
    (∀ c : Cursor, c.tokens = tokens.toArray → (∀ kf ∈ c.furthest, kf.1 ≤ tokens.length) →
        Settles exprRule (.expr false) expression c ∧ Settles exprRule (.expr true) declaration c ∧
        Settles patternRule () pattern c ∧ Settles hintRule () hint c ∧ RepetitionsEnd c) ∧
      (∀ n, tokens.length < n → declarations n (.ofTokens tokens) = program (.ofTokens tokens)) ∧
      (program (.ofTokens tokens)).2.index = tokens.length ∧
      (parse tokens).1.length ≤ tokens.length ∧ (parse tokens).2.length ≤ tokens.length := by
  have hc : (Cursor.ofTokens tokens).Inside := Nat.zero_le _
  have hremaining : (Cursor.ofTokens tokens).remaining = tokens.length := rfl
  obtain ⟨hend, hlength⟩ := turnsUpTo_stop hc (Nat.lt_succ_self _)
  refine ⟨fun c htokens hfar => ?_, fun n hn => ?_, ?_, ?_, ?_⟩
  · have hfar : ∀ kf ∈ c.furthest, kf.1 ≤ c.tokens.size := by simpa [htokens] using hfar
    exact ⟨settles guarded_exprRule _ hfar, settles guarded_exprRule _ hfar,
      settles guarded_patternRule _ hfar, settles guarded_hintRule _ hfar, repetitionsEnd hfar⟩
  · unfold program
    rw [declarations_eq, declarations_eq, turnsUpTo_eq hc hn (Nat.lt_succ_self _)]
  · unfold program
    rw [declarations_eq]
    exact hend
  · rw [parse_turns]
    exact Nat.le_trans (List.length_filterMap_le _ _) hlength
  · rw [parse_turns]
    exact Nat.le_trans (List.length_filterMap_le _ _) hlength

/-- In `let x = ( ;; y` the first declaration is given up at the separator, and the second
one is the last token. An expression cannot be read from the parenthesis, which is found out
behind it. -/
theorem parse_progress_broken :
    let tokens : List Token :=
      [.fixed .let_, .word .ident "x", .fixed .equals, .fixed .lparen, .fixed .separator,
        .word .ident "y"].map fun l => ⟨l, {}⟩
    let c : Cursor := (Cursor.ofTokens tokens).restore 3
    c.tokens = tokens.toArray ∧ (∀ kf ∈ c.furthest, kf.1 ≤ tokens.length) ∧
      Settles exprRule (.expr false) expression c ∧ (after (expression c)).index = 3 ∧
      (after (expression c)).furthest.map Prod.fst = some 4 ∧
      tokens.length < 7 ∧ declarations 7 (.ofTokens tokens) = program (.ofTokens tokens) ∧
      (program (.ofTokens tokens)).2.index = 6 ∧
      (parse tokens).1.length = 1 ∧ (parse tokens).2.length = 1 ∧
      (parse tokens).1.length ≤ 6 ∧ (parse tokens).2.length ≤ 6 := by
  intro tokens c
  have htokens : c.tokens = tokens.toArray := rfl
  have hfar : ∀ kf ∈ c.furthest, kf.1 ≤ tokens.length := nofun
  obtain ⟨hrules, hbound, hend, htrees, hfaults⟩ := parse_progress tokens
  exact ⟨htokens, hfar, (hrules c htokens hfar).1, by decide +kernel, by decide +kernel,
    by decide, hbound 7 (by decide), hend, by decide +kernel, by decide +kernel, htrees, hfaults⟩

end MiniML.Grammar
