import MiniML.Proofs.Grammar.Layout

/-!
# What is read lies over its tokens

Every rule of the grammar lays out the tree that it reads, given that the rules it calls
do: its node runs from the first token of the rule, or the start of its first part, to the
end of the last token or part, and parentheses around a single item leave no node behind.
So every tree of a program lies over tokens of the program
(`Grammar.exists_laid_of_mem_parse`), and every fault is at a token, if it has a place
(`Grammar.grounded_of_mem_parse`).
-/
namespace MiniML.Grammar
open MiniML.Parser

variable {ts : Array Token}

/-! ## Atoms and annotations -/

theorem lays_ident : Lays ts (fun n => [n.outline]) ident :=
  lays_take fun t n h => by
    split at h
    · cases h
      exact .refl _
    · cases h

theorem lays_constant : Lays ts (fun x => [.leaf x.2]) constant :=
  lays_take fun t x h => by
    obtain ⟨r, hr, hx⟩ := Option.map_eq_some_iff.mp h
    cases r with
    | error cause => cases hx
    | ok l =>
      cases hx
      exact .refl _

/-- A row between two tokens, under a node from the first to the second one. -/
theorem laid_between {i j : Nat} {s t : Span} (os : List Outline) {parts : List Outline}
    (h : Laid ts i j (.leaf s :: (os ++ [.leaf t]))) (hparts : parts.Sublist os) :
    Laid ts i j [.node (s.merge t) parts] :=
  h.enclose (.leaf t) (by rw [← List.cons_append, List.getLast?_concat]; rfl) rfl
    ((hparts.trans (List.sublist_append_left os _)).cons _)

theorem lays_unit : Lays ts (fun x => [.leaf x.2]) unit :=
  fun i => (lays_token .lparen i).bind fun _ => ((lays_token .rparen).behind i _).bind fun _ =>
    reads_pure fun _ h => laid_between [] h (.refl _)

/-- Annotations leave nothing in the row. -/
theorem lays_hintProduct {self : Parser Hint} (h : Lays ts (fun _ => []) self) :
    Lays ts (fun _ => []) (hintProduct self) := by
  have hitem : Lays ts (fun _ => []) (hintItem self) := by
    refine .either (fun i => ?_) (lays_take fun _ _ _ => List.nil_sublist _)
    exact (lays_mark .lparen i).bind fun _ => (h.behind i _).bind fun _ =>
      ((lays_mark .rparen).behind i _).bind fun _ => reads_pure fun _ h => h
  refine fun i => (hitem.sepBy1 (lays_mark .star) i []).bind fun hs => ?_
  split <;> exact reads_pure fun _ h => h.2.sublist (List.nil_sublist _)

theorem lays_hint : Lays ts (fun _ => []) hint := by
  refine lays_recursive (fun self h _ i => ?_) ()
  refine (lays_hintProduct (h ()) i).bind fun _ => ?_
  refine (((lays_mark .arrow).seqRight (h ())).optional.behind i _).bind fun o => ?_
  cases o <;> exact reads_pure fun _ h => h.sublist (List.nil_sublist _)

theorem lays_resultHint : Lays ts (fun _ => []) resultHint := lays_hintProduct lays_hint

/-- An annotation that may be missing, behind what introduces it. -/
theorem lays_optional_hint (f : Fixed) {h : Parser Hint} (hh : Lays ts (fun _ => []) h) :
    Lays ts (fun _ => []) (optional (token f *> h)) :=
  ((lays_mark f).seqRight hh).optional.sublist fun _ => List.nil_sublist _

/-! ## Patterns -/

theorem lays_tuplePattern {self : Parser Pattern} (h : Lays ts (fun p => [p.outline]) self) :
    Lays ts (fun p => [p.outline]) (tuplePattern self) := by
  refine fun i => (lays_token .lparen i).bind fun start =>
    (h.sepBy1 (lays_mark .comma) i _).bind fun ps =>
    (((lays_token .rparen).behind i _).imp_left And.right).bind fun stop => ?_
  split
  · exact reads_pure fun j h => h.sublist (by simp)
  · refine reads_pure fun j h => laid_between (ps.map Pattern.outline) ?_ ?_
    · simpa [List.map_eq_flatMap] using h
    · rw [Pattern.outlines_eq]

theorem lays_pattern : Lays ts (fun p => [p.outline]) pattern := by
  refine lays_recursive (fun self h _ => ?_) ()
  have hliteral : Lays ts (fun p : Pattern => [p.outline]) literalPattern :=
    (lays_unit.either lays_constant).map
  have hwildcard : Lays ts (fun p : Pattern => [p.outline])
      (do return .wildcard { span := (← token .underscore).span }) := (lays_token .underscore).map
  exact ((hliteral.either (lays_tuplePattern (h ()))).either hwildcard).either lays_ident.map

theorem lays_param : Lays ts (fun x => [x.1.outline]) param := by
  refine .either (fun i => ?_) lays_pattern.map
  exact (lays_mark .lparen i).bind fun _ => (lays_pattern.behind i _).bind fun _ =>
    (((lays_mark .colon).seqRight lays_hint).behind i _).bind fun _ =>
    ((lays_mark .rparen).behind i _).bind fun _ => reads_pure fun _ h => by simpa using h

/-! ## Expressions -/

/-- A rule lays out the expression that it reads. -/
abbrev LaysExpr (ts : Array Token) (p : Parser Expr) : Prop := Lays ts (fun e => [e.outline]) p

variable {self : Self} (h : ∀ g, LaysExpr ts (self g))
include h

theorem lays_some (g : Goal) :
    Lays ts (fun o => o.toList.map Expr.outline) (do return some (← self g)) :=
  (h g).map

theorem lays_letBody (declaration : Bool) :
    Lays ts (fun o => o.toList.map Expr.outline) (letBody self declaration) := by
  have hin : Lays ts (fun o => o.toList.map Expr.outline)
      (do let _ ← token .in_; return some (← self (.expr true))) :=
    fun i => (lays_mark .in_ i).bind fun _ => (lays_some h _).behind i []
  unfold letBody
  cases declaration with
  | false => exact hin
  | true =>
    refine fun i => (reads_nextIs .in_).bind fun b => ?_
    cases b
    · exact reads_pure fun _ h => h
    · exact hin i

omit h in
/-- The span of a rule that begins with a token and ends with its last part. -/
theorem laid_spanTo {i j : Nat} {start : Token} (os : List Outline) {e : Expr} {o : Option Expr}
    (h : Laid ts i j (.leaf start.span :: (os ++ e.outline :: o.toList.map Expr.outline))) :
    Laid ts i j [.node (spanTo start e o) (os ++ e.outline :: Expr.outlinesOption o)] := by
  rw [Expr.outlinesOption_eq]
  refine h.enclose (o.getD e).outline ?_ (by rw [Expr.outline_span]; rfl)
    (.cons _ (.refl _))
  rw [← List.cons_append, List.getLast?_append]
  cases o <;> rfl

theorem lays_letRule (declaration : Bool) : LaysExpr ts (letRule self declaration) := by
  refine fun i => (lays_token .let_ i).bind fun start =>
    ((lays_ident.label _).behind i _).bind fun n =>
    ((lays_optional_hint .colon lays_hint).behind i _).bind fun _ =>
    ((lays_mark .equals).behind i _).bind fun _ => ((h _).behind i _).bind fun v =>
    ((lays_letBody h declaration).behind i _).bind fun b => reads_pure fun j hj => ?_
  exact laid_spanTo [n.outline] (by simpa using hj)

theorem lays_funRest (named : Bool) :
    Lays ts (fun o => o.toList.map Expr.outline) (funRest self named) := by
  unfold funRest
  cases named with
  | false => exact fun i => reads_pure fun _ h => h
  | true =>
    refine fun i => (reads_nextIs .in_).bind fun b => ?_
    cases b
    · exact reads_pure fun _ h => h
    · exact (lays_skip i).bind fun _ => (lays_some h _).behind i []

omit h in
/-- A name in front of the parameters was the first of them. -/
theorem outlines_splitName (ps : List (Pattern × Option Hint)) :
    (splitName ps).1.toList.map Name.outline ++ (splitName ps).2.map (·.1.outline) =
      ps.map (·.1.outline) := by
  unfold splitName
  split <;> rfl

theorem lays_funRule (declaration : Bool) : LaysExpr ts (funRule self declaration) := by
  refine fun i => (lays_token .fun_ i).bind fun start =>
    ((lays_param.many1.label _).behind i _).bind fun ps =>
    ((lays_optional_hint .colon lays_resultHint).behind i _).bind fun _ =>
    ((lays_mark .arrow).behind i _).bind fun _ => ((h _).behind i _).bind fun b => ?_
  -- whether or not the first parameter is taken for a name, the row is the same
  obtain ⟨n, qs, hsplit, hrow⟩ : ∃ n qs,
      (if declaration then splitName ps else (none, ps)) = (n, qs) ∧
        n.toList.map Name.outline ++ qs.map (·.1.outline) = ps.map (·.1.outline) := by
    cases declaration
    · exact ⟨none, ps, rfl, rfl⟩
    · exact ⟨_, _, rfl, outlines_splitName ps⟩
  simp only [hsplit]
  refine ((lays_funRest h n.isSome).behind i _).bind fun r => reads_pure fun j hj => ?_
  refine laid_spanTo (n.toList.map Name.outline ++ (qs.map Prod.fst).map Pattern.outline) ?_
  rw [List.map_map, show Pattern.outline ∘ Prod.fst = fun x : Pattern × Option Hint => x.1.outline
    from rfl, hrow, List.map_eq_flatMap]
  simpa using hj

theorem lays_ifRule : LaysExpr ts (ifRule self) := by
  refine fun i => (lays_token .if_ i).bind fun start => ((h _).behind i _).bind fun t =>
    ((lays_mark .then_).behind i _).bind fun _ => ((h _).behind i _).bind fun y =>
    (reads_nextIs .else_).bind fun b => ?_
  have hend (o : Option Expr) {j : Nat} (hj : Laid ts i j (.leaf start.span ::
      ([t.outline] ++ y.outline :: o.toList.map Expr.outline))) :
      Laid ts i j [(Expr.cond t y o { span := spanTo start y o }).outline] :=
    laid_spanTo [t.outline] hj
  cases b
  · exact reads_pure fun j hj => hend none (by simpa using hj)
  · exact ((lays_mark .else_).behind i _).bind fun _ => ((h _).behind i _).bind fun n =>
      reads_pure fun j hj => hend (some n) (by simpa using hj)

theorem lays_arm : Lays ts (fun a => [a.outline]) (arm self) := by
  refine fun i => (lays_pattern i).bind fun p =>
    (((lays_mark .arrow).seqRight (h _)).behind i _).bind fun e => reads_pure fun j hj => ?_
  refine hj.enclose e.outline rfl ?_ (.refl _)
  rw [Pattern.outline_span, Expr.outline_span]
  rfl

theorem lays_matchRule : LaysExpr ts (matchRule self) := by
  have hpipe : Lays ts (fun _ => []) (optional (token .pipe)) :=
    (lays_mark .pipe).optional.sublist fun _ => List.nil_sublist _
  refine fun i => (lays_token .match_ i).bind fun start => ((h _).behind i _).bind fun e =>
    ((lays_mark .with_).behind i _).bind fun _ => (hpipe.behind i _).bind fun _ =>
    ((lays_arm h).sepBy1 (lays_mark .pipe) i _).bind fun as => reads_pure fun j hj => ?_
  -- the span ends with the last arm, which exists because there is at least one
  obtain ⟨hne, hj⟩ := hj
  obtain ⟨last, hlast⟩ : ∃ a, as.getLast? = some a := ⟨_, List.getLast?_eq_some_getLast hne⟩
  have hrow : Laid ts i j (.leaf start.span :: ([e.outline] ++ as.map Arm.outline)) := by
    simpa [List.map_eq_flatMap] using hj
  simp only [hlast, Expr.outline, Expr.outlinesArms_eq]
  refine hrow.enclose last.outline ?_ rfl (.cons _ (.refl _))
  rw [← List.cons_append, List.getLast?_append, List.getLast?_map, hlast]
  rfl

theorem lays_parenthesized : LaysExpr ts (parenthesized self) := by
  refine fun i => (lays_token .lparen i).bind fun start => (reads_nextIs .rparen).bind fun b => ?_
  cases b
  · refine ((h _).sepBy1 (lays_mark .comma) i _).bind fun es =>
      (((lays_token .rparen).behind i _).imp_left And.right).bind fun stop => ?_
    split
    · exact reads_pure fun j h => h.sublist (by simp)
    · refine reads_pure fun j h => laid_between (es.map Expr.outline) ?_ ?_
      · simpa [List.map_eq_flatMap] using h
      · rw [Expr.outlines_eq]
  · exact ((lays_token .rparen).behind i _).bind fun stop =>
      reads_pure fun _ h => laid_between [] h (.refl _)

theorem lays_atom : LaysExpr ts (atom self) := by
  exact ((lays_ident.map.either (lays_parenthesized h)).either lays_constant.map).label _

theorem lays_atoms (n : Nat) : Lays ts (fun es => es.map Expr.outline) (atoms self n) := by
  induction n with
  | zero => exact lays_pure [] rfl
  | succ n ih =>
    refine fun i => reads_peek.bind fun o => ?_
    cases o with
    | none => exact reads_pure fun _ h => h.1
    | some t =>
      dsimp only
      split
      · exact ((lays_atom h i).imp_left And.left).bind fun e => (ih.behind i _).bind fun es =>
          reads_pure fun _ h => h
      · exact reads_pure fun _ h => h.1

theorem lays_application : LaysExpr ts (application self) := by
  have hatoms : Lays ts (fun es => es.map Expr.outline) (fun c => atoms self c.remaining c) :=
    fun i c => lays_atoms h c.remaining i c
  refine fun i => (lays_atom h i).bind fun f => (hatoms.behind i _).bind fun es => ?_
  split
  next => exact reads_pure fun j hj => hj.sublist (List.sublist_append_left _ _)
  next last hlast =>
    refine reads_pure fun j hj => ?_
    simp only [Expr.outline, Expr.outlines_eq]
    refine hj.enclose last.outline ?_ (by simp) (.refl _)
    show ([f.outline] ++ es.map Expr.outline).getLast? = _
    rw [List.getLast?_append, List.getLast?_map, hlast]
    rfl

theorem lays_operandRule : LaysExpr ts (operandRule self) := by
  refine fun i => reads_peek.bind fun o => ?_
  cases o with
  | none => exact (lays_application h i).imp_left And.left
  | some t =>
    dsimp only
    split
    · exact (lays_application h i).imp_left And.left
    next op _ =>
      exact reads_skip_token.bind fun _ => ((h _).behind i _).bind fun e => reads_pure fun j hj =>
        hj.enclose e.outline rfl (by rw [Expr.outline_span]; rfl) (.cons _ (.refl _))

theorem lays_rightOperand (op : BinaryOp) : LaysExpr ts (rightOperand self op) := by
  refine fun i => reads_peek.bind fun o => ?_
  cases o with
  | none => exact (h _ i).imp_left And.left
  | some t =>
    dsimp only
    split <;> exact (h _ i).imp_left And.left

/-- The node of an operator encloses what was read to its left. -/
theorem reads_operators (least n i : Nat) (left : Expr) :
    Reads ts (Laid ts i · [left.outline]) (fun e j => Laid ts i j [e.outline])
      (operators self least n left) := by
  induction n generalizing left with
  | zero => exact reads_pure fun _ h => h
  | succ n ih =>
    refine reads_peek.bind fun o => ?_
    cases o with
    | none => exact reads_pure fun _ h => h.1
    | some t =>
      dsimp only
      split
      · exact reads_pure fun _ h => h.1
      · split
        · exact reads_pure fun _ h => h.1
        · refine ((lays_skip.behind i _).imp_left And.left).bind fun _ =>
            ((lays_rightOperand h _).behind i _).bind fun right => (ih _).imp_left fun hj => ?_
          exact hj.enclose right.outline rfl (by simp) (.refl _)

theorem lays_binaryRule (least : Nat) : LaysExpr ts (binaryRule self least) :=
  fun i => (lays_operandRule h i).bind fun left c => reads_operators h least c.remaining i left c

theorem lays_exprRule (g : Goal) : LaysExpr ts (exprRule self g) := by
  cases g with
  | operand => exact lays_operandRule h
  | binary least => exact lays_binaryRule h least
  | expr declaration =>
    refine fun i => reads_peek.bind fun o => .imp_left ?_ And.left
    split
    · exact lays_letRule h declaration i
    · exact lays_funRule h declaration i
    · exact lays_ifRule h i
    · exact lays_matchRule h i
    · exact lays_binaryRule h 1 i

omit h

theorem lays_declaration : LaysExpr ts declaration :=
  lays_recursive (fun _ h g => lays_exprRule h g) (.expr true)

/-! ## Programs -/

variable {c : Cursor}

theorem grounded_skipToBoundary (h : c.Grounded ts) (start : Nat) :
    (skipToBoundary start c).Grounded ts := by
  unfold skipToBoundary
  dsimp only
  split
  · exact h.advance.skipWhile _ _
  · exact h.skipWhile _ _

theorem grounded_endDeclaration (h : c.Grounded ts) (start : Nat) :
    (endDeclaration start c).Grounded ts := by
  unfold endDeclaration
  split
  · exact h
  · have hfault : ((c.faultHere .unexpectedToken).expecting
        (Lexeme.fixed .separator).describe).Grounded ts := h.faultHere .unexpectedToken
    exact grounded_skipToBoundary (h.record hfault).commit start

theorem grounded_recover {f : Fault} (h : c.Grounded ts) (hf : f.Grounded ts) (start : Nat) :
    (recover start f c).Grounded ts := by
  have hrecorded : (if c.furthest.isNone then c.record f else c).Grounded ts := by
    split
    · exact h.record hf
    · exact h
  exact grounded_skipToBoundary (hrecorded.commit.restore _) start

/-- Each tree was read as a declaration somewhere in the tokens, and reading meets faults at
tokens only. -/
theorem declarations_grounded (n : Nat) (hc : c.Grounded ts) :
    (∀ d ∈ (declarations n c).1, ∃ c' c'', c'.Grounded ts ∧ declaration c' = .ok d c'') ∧
      (declarations n c).2.Grounded ts := by
  induction n generalizing c with
  | zero => exact ⟨nofun, hc⟩
  | succ n ih =>
    have hskip : (skipSeparators c).Grounded ts := hc.skipWhile _ _
    unfold declarations
    dsimp only
    split
    · have hrun := lays_declaration _ _ hskip.clear (.nil (Nat.le_refl _))
      cases hd : declaration (skipSeparators c).clear with
      | ok d c' =>
        rw [hd] at hrun
        have hrest := ih (grounded_endDeclaration hrun.1 (skipSeparators c).index)
        refine ⟨fun e he => ?_, hrest.2⟩
        rcases List.mem_cons.mp he with rfl | he
        · exact ⟨_, _, hskip.clear, hd⟩
        · exact hrest.1 e he
      | error f c' =>
        rw [hd] at hrun
        exact ih (grounded_recover hrun.1 hrun.2 _)
    · exact ⟨nofun, hskip⟩

variable {tokens : List Token}

theorem parse_grounded (tokens : List Token) :
    (∀ d ∈ (parse tokens).1, ∃ c c', c.Grounded tokens.toArray ∧ declaration c = .ok d c') ∧
      ∀ f ∈ (parse tokens).2, f.Grounded tokens.toArray :=
  have hstart : (Cursor.ofTokens tokens).Grounded tokens.toArray := ⟨rfl, nofun, nofun⟩
  have h := declarations_grounded ((Cursor.ofTokens tokens).remaining + 1) hstart
  ⟨h.1, h.2.faults⟩

/-- A tree of a program was read as a declaration. -/
theorem exists_run_of_mem_parse {d : Expr} (hd : d ∈ (parse tokens).1) :
    ∃ c c', c.Grounded tokens.toArray ∧ declaration c = .ok d c' := (parse_grounded tokens).1 d hd

/-- A tree of a program lies over some of its tokens. -/
theorem exists_laid_of_mem_parse {d : Expr} (hd : d ∈ (parse tokens).1) :
    ∃ i j, Laid tokens.toArray i j [d.outline] := by
  obtain ⟨c, c', hc, hrun⟩ := exists_run_of_mem_parse hd
  have hlaid := lays_declaration c.index c hc (.nil (Nat.le_refl _))
  rw [hrun] at hlaid
  exact ⟨_, _, hlaid.2⟩

/-- A fault of a program is at a token, if it has a place at all. -/
theorem grounded_of_mem_parse {f : Fault} (hf : f ∈ (parse tokens).2) :
    f.Grounded tokens.toArray := (parse_grounded tokens).2 f hf

end MiniML.Grammar
