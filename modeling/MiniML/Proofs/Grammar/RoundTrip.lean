import MiniML.Proofs.Grammar.Recovery
import MiniML.Proofs.Grammar.SpelledExpr

/-!
# Reading undoes printing

Tokens that say what the pieces of a program ask for are read as that program,
without a fault (`parse_pieces`). The loop over declarations goes from separator to
separator, and each declaration ends at one, so that nothing is passed over.
-/
namespace MiniML

open MiniML.Piece MiniML.Parser MiniML.Grammar

/-! ## Programs -/

section Program

variable {c : Cursor} {e : Expr} {es : List Expr} {ts us mid : List Token}

theorem rest_skipSeparators (c : Cursor) :
    (skipSeparators c).rest =
      c.rest.drop (c.rest.findIdx fun t => !decide (t.lexeme = .fixed .separator)) := by
  unfold skipSeparators
  rw [skipWhile_eq _ _ (Nat.le_refl _)]
  exact Cursor.rest_restore rfl _

theorem rest_skipSeparators_self (h : Heads (· ≠ .fixed .separator) c.rest) :
    (skipSeparators c).rest = c.rest := by
  rw [rest_skipSeparators]
  cases hrest : c.rest with
  | nil => rfl
  | cons t ts =>
    have ht : t.lexeme ≠ .fixed .separator := h t (by rw [hrest]; rfl)
    rw [List.findIdx_cons, decide_eq_false ht]
    rfl

theorem rest_skipSeparators_cons {t : Token} (ht : t.lexeme = .fixed .separator)
    (hc : c.rest = t :: ts) (h : Heads (· ≠ .fixed .separator) ts) :
    (skipSeparators c).rest = ts := by
  rw [rest_skipSeparators, hc, List.findIdx_cons, decide_eq_true ht]
  cases ts with
  | nil => rfl
  | cons u us =>
    rw [List.findIdx_cons, decide_eq_false (h u rfl)]
    rfl

/-- One declaration of the loop is read up to a separator or the end. -/
theorem declarations_step (hc : c.Inside) (he : e.Denotable true)
    (hskip : (skipSeparators c).rest = us) (hus : Spells (e.pieces true) us mid)
    (hmid : Heads (· = .fixed .separator) mid) (n : Nat) :
    ∃ d c', declarations (n + 1) c = (d :: (declarations n c').1, (declarations n c').2) ∧
      e.ReadAs d ∧ c'.Inside ∧ c'.rest = mid ∧ c'.faults = c.faults := by
  obtain ⟨hinside, -, -, hfaults⟩ := skipSeparators_inside hc
  have hend : Heads EndsExpr mid := hmid.mono fun l hl => by simp [EndsExpr, hl]
  obtain ⟨d, c', hrun, hon, hrest, hd⟩ :=
    accepts_declaration he hus hend (skipSeparators c).clear hinside hskip
  have hnext : (skipSeparators c).hasNext := by
    have hpos := List.length_pos_of_ne_nil (heads_expr hus).2
    rw [← hskip, Cursor.length_rest] at hpos
    exact decide_eq_true (Nat.lt_of_sub_pos hpos)
  have hboundary : atBoundary c' = true := by
    unfold atBoundary
    rw [Cursor.peek_eq, hrest, Option.all_eq_true]
    intro t ht
    simp [isBoundary, hmid t ht]
  refine ⟨d, c', ?_, hd, hon.inside, hrest, hon.faults.trans hfaults⟩
  rw [declarations]
  dsimp only
  rw [if_pos hnext, hrun]
  dsimp only
  rw [endDeclaration, if_pos hboundary]

/-- The declarations behind the first one, each with a separator in front. -/
theorem declarations_pieces (hes : ∀ e ∈ es, e.Denotable true) (hc : c.Inside)
    (hts : Spells (es.flatMap fun e => .fixed .separator :: e.pieces true) c.rest []) {n : Nat}
    (hn : es.length ≤ n) :
    List.Forall₂ Expr.ReadAs es (declarations n c).1 ∧ (declarations n c).2.faults = c.faults := by
  induction es generalizing c n with
  | nil =>
    have hskip : (skipSeparators c).rest = [] := by
      rw [rest_skipSeparators, show c.rest = [] from hts]
      rfl
    have hend : ¬ (skipSeparators c).hasNext := by
      have hlen := Cursor.length_rest (skipSeparators c)
      rw [hskip] at hlen
      exact fun h => Nat.ne_of_gt (Nat.sub_pos_of_lt (of_decide_eq_true h)) hlen.symm
    cases n with
    | zero => exact ⟨.nil, rfl⟩
    | succ n =>
      rw [declarations]
      dsimp only
      rw [if_neg hend]
      exact ⟨.nil, (skipSeparators_inside hc).2.2.2⟩
  | cons e es ih =>
    obtain ⟨n, rfl⟩ := Nat.exists_eq_succ_of_ne_zero (Nat.ne_of_gt (Nat.zero_lt_of_lt hn))
    obtain ⟨t, us, hrest, ht, hts⟩ := hts
    obtain ⟨mid, he, hmid⟩ := spells_append.mp hts
    have hskip := rest_skipSeparators_cons ht hrest ((heads_expr he).1.mono fun _ h => h.2)
    obtain ⟨d, c', hrun, hd, hinside, hc', hfaults⟩ := declarations_step hc
      (hes e List.mem_cons_self) hskip he (heads_separated rfl (heads_nil _) hmid) n
    obtain ⟨hread, hrest⟩ := ih (fun x hx => hes x (List.mem_cons_of_mem _ hx)) hinside
      (hc' ▸ hmid) (Nat.le_of_succ_le_succ hn)
    rw [hrun]
    exact ⟨.cons hd hread, hrest.trans hfaults⟩

theorem map_unplaced_of_readAs {ds : List Expr} (h : List.Forall₂ Expr.ReadAs es ds) :
    ds.map Expr.unplaced = es.map Expr.bare := by
  induction h with
  | nil => rfl
  | cons hd _ ih => exact congrArg₂ List.cons hd ih

/-- Reading undoes printing. Tokens that say what the pieces of a program ask for,
each tree in parentheses but where the grammar needs none, are read as that program,
with empty slots and apart from places, and nothing is reported. -/
theorem parse_pieces (es : Program) (hes : ∀ e ∈ es, e.Denotable true)
    (hts : Prints es.pieces ts) :
    (parse ts).1.map Expr.unplaced = es.map Expr.bare ∧ (parse ts).2 = [] := by
  have hinside : (Cursor.ofTokens ts).Inside := Nat.zero_le _
  obtain ⟨hread, hfaults⟩ : List.Forall₂ Expr.ReadAs es (parse ts).1 ∧ (parse ts).2 = [] := by
    cases es with
    | nil =>
      cases hts
      exact ⟨.nil, rfl⟩
    | cons e es =>
      have hspells : Spells (separated .separator _) (Cursor.ofTokens ts).rest [] :=
        (Cursor.rest_ofTokens ts).symm ▸ hts.spells
      obtain ⟨mid, he, hmid⟩ := spells_append.mp hspells
      rw [List.flatMap_map] at hmid
      have hskip := rest_skipSeparators_self ((heads_expr he).1.mono fun _ h => h.2)
      have hlen : es.length ≤ (Cursor.ofTokens ts).remaining := by
        rw [← Cursor.length_rest, he.length, hmid.length]
        have := length_le_flatMap (f := fun e : Expr => .fixed .separator :: e.pieces true)
          (fun _ => Nat.succ_pos _) es
        omega
      obtain ⟨d, c', hrun, hd, hc, hc', hfaults⟩ := declarations_step hinside
        (hes e List.mem_cons_self) hskip he (heads_separated rfl (heads_nil _) hmid)
        (Cursor.ofTokens ts).remaining
      obtain ⟨hread, hrest⟩ := declarations_pieces
        (fun x hx => hes x (List.mem_cons_of_mem _ hx)) hc (hc' ▸ hmid) hlen
      unfold parse program
      rw [hrun]
      exact ⟨.cons hd hread, hrest.trans hfaults⟩
  exact ⟨map_unplaced_of_readAs hread, hfaults⟩

/-- `fun fst ((x, y) : 'a * int) : 'a -> (x) ;; let n = ((fst) ((1, 2)))`. -/
theorem parse_pieces_pair :
    let word (s : String) : Lexeme := .word .ident s
    let name (s : String) : Name := ⟨s, {}⟩
    let pair : Pattern := .tuple [.ident (name "x"), .ident (name "y")] {}
    let fst : Expr := .lam (some (name "fst")) [pair]
      (some (.fn (.tuple [.var "'a", .prim .int]) (.var "'a"))) (.ident (name "x")) none {}
    let n : Expr := .bind (name "n") none
      (.app (.ident (name "fst")) [.tuple [.const (.int 1) {}, .const (.int 2) {}] {}] {}) none {}
    let tokens : List Token :=
      [.fixed .fun_, word "fst", .fixed .lparen, .fixed .lparen, word "x", .fixed .comma, word "y",
        .fixed .rparen, .fixed .colon, .word .typeVar "'a", .fixed .star, word "int", .fixed .rparen,
        .fixed .colon, .word .typeVar "'a", .fixed .arrow, .fixed .lparen, word "x", .fixed .rparen,
        .fixed .separator, .fixed .let_, word "n", .fixed .equals, .fixed .lparen, .fixed .lparen,
        word "fst", .fixed .rparen, .fixed .lparen, .fixed .lparen, .word .integer "1", .fixed .comma,
        .word .integer "2", .fixed .rparen, .fixed .rparen, .fixed .rparen].map fun l => ⟨l, {}⟩
    fst.Denotable true ∧ n.Denotable true ∧ Prints (Program.pieces [fst, n]) tokens ∧
      (parse tokens).1.map Expr.unplaced = [fst, n] ∧ (parse tokens).2 = [] := by
  intro word name pair fst n tokens
  have hfst : fst.Denotable true := by
    refine .named _ _ (List.cons_ne_nil _ _) (List.forall_mem_singleton.mpr ?_) ?_ (.ident _) nofun
    · exact .tuple _ (Nat.le_refl _) (by simpa using ⟨.ident _, .ident _⟩)
    · rintro _ ⟨⟩
      exact ⟨.fn (.tuple (Nat.le_refl _) (by simpa using ⟨.var _, .prim _⟩)) (.var _), rfl⟩
  have hn : n.Denotable true := by
    refine .bind _ _ nofun (.app _ (.ident _) (List.cons_ne_nil _ _)
      (List.forall_mem_singleton.mpr ?_)) nofun fun _ => rfl
    exact .tuple _ (Nat.le_refl _) (by simpa using ⟨.const _ _, .const _ _⟩)
  have hprints : Prints (Program.pieces [fst, n]) tokens := by
    repeat' first | exact .nil | refine .cons rfl ?_
  have hboth : ∀ e ∈ [fst, n], e.Denotable true := by simpa using ⟨hfst, hn⟩
  exact ⟨hfst, hn, hprints, parse_pieces [fst, n] hboth hprints⟩

end Program

end MiniML
