import MiniML.Grammar.Expr

/-!
# Parsers only go on

Whether it succeeds or fails, a parser leaves the tokens and the reported
faults as they are, ends nowhere before the place where it began and nowhere
behind the last token, and any fault that it remembers instead of the old one
was met between these two places (`Cursor.Onward`). Going back to try an
alternative is no exception, since that goes back to where the parser began.

A parser with this property is `Parser.Onward`. The combinators keep it, and so
do the rules of the grammar, whatever they call themselves for.
-/
namespace MiniML

/-! ## Cursors -/

namespace Cursor

/-- The cursor stands in its tokens, or right behind them. -/
def Inside (c : Cursor) : Prop := c.index ≤ c.tokens.size

/-- What a parser may make of a cursor. -/
structure Onward (c c' : Cursor) : Prop where
  tokens : c'.tokens = c.tokens
  faults : c'.faults = c.faults
  le : c.index ≤ c'.index
  inside : c'.Inside
  furthest : ∀ kf ∈ c'.furthest, kf ∈ c.furthest ∨ c.index ≤ kf.1 ∧ kf.1 ≤ c.tokens.size

variable {c d e : Cursor}

theorem Onward.refl (hc : c.Inside) : c.Onward c := ⟨rfl, rfl, Nat.le_refl _, hc, fun _ => .inl⟩

theorem Onward.trans (h : c.Onward d) (h' : d.Onward e) : c.Onward e where
  tokens := h'.tokens.trans h.tokens
  faults := h'.faults.trans h.faults
  le := Nat.le_trans h.le h'.le
  inside := h'.inside
  furthest := fun kf hkf => by
    rcases h'.furthest kf hkf with hd | ⟨hle, hsize⟩
    · exact h.furthest kf hd
    · exact .inr ⟨Nat.le_trans h.le hle, h.tokens ▸ hsize⟩

/-- To go back to where it began keeps what was remembered since. -/
theorem Onward.restore (hc : c.Inside) (h : c.Onward d) : c.Onward (d.restore c.index) where
  tokens := h.tokens
  faults := h.faults
  le := Nat.le_refl _
  inside := by
    show c.index ≤ d.tokens.size
    rw [h.tokens]
    exact hc
  furthest := h.furthest

theorem onward_record (hc : c.Inside) (f : Fault) : c.Onward (c.record f) := by
  have hhere : c.Onward { c with furthest := some (c.index, f) } :=
    ⟨rfl, rfl, Nat.le_refl _, hc, fun kf hkf => by
      cases hkf
      exact .inr ⟨Nat.le_refl _, hc⟩⟩
  unfold record
  split
  · exact hhere
  · split
    · exact hhere
    · exact .refl hc

theorem advance_eq (h : c.index < c.tokens.size) : c.advance = c.restore (c.index + 1) := by
  unfold advance
  rw [if_pos (by exact decide_eq_true h)]
  rfl

theorem onward_advance (hc : c.Inside) : c.Onward c.advance := by
  by_cases h : c.index < c.tokens.size
  · rw [advance_eq h]
    exact ⟨rfl, rfl, Nat.le_succ _, h, fun _ => .inl⟩
  · unfold advance
    rw [if_neg (by simpa [hasNext] using h)]
    exact .refl hc

end Cursor

/-! ## Combinators -/

namespace Parser

/-- The cursor after a parser, which also may have failed. -/
def after {α : Type} : EStateM.Result Fault Cursor α → Cursor
  | .ok _ c => c
  | .error _ c => c

/-- Whatever comes of the parser, it only goes on. -/
def Onward {α : Type} (p : Parser α) : Prop := ∀ c : Cursor, c.Inside → c.Onward (after (p c))

variable {α β : Type} {p q : Parser α}

theorem onward_pure (a : α) : Onward (pure a) := fun _ hc => .refl hc

theorem Onward.bind {f : α → Parser β} (hp : Onward p) (hf : ∀ a, Onward (f a)) :
    Onward (p >>= f) := by
  intro c hc
  have h := hp c hc
  show c.Onward (after (EStateM.bind p f c))
  unfold EStateM.bind
  cases hpc : p c with
  | ok a d =>
    rw [hpc] at h
    exact h.trans (hf a d h.inside)
  | error e d =>
    rw [hpc] at h
    exact h

theorem Onward.seqRight {q : Parser β} (hp : Onward p) (hq : Onward q) : Onward (p *> q) :=
  hp.bind fun _ => hq

theorem onward_raise (f : Fault) : Onward (raise f : Parser α) := fun _ hc =>
  Cursor.onward_record hc f

theorem onward_take (expected : String) (read : Token → Option (Except FaultCause α)) :
    Onward (take expected read) := by
  intro c hc
  unfold take
  split
  · exact onward_raise _ c hc
  · split
    · exact Cursor.onward_advance hc
    · exact onward_raise _ c hc
    · exact onward_raise _ c hc

theorem onward_token (f : Fixed) : Onward (token f) := onward_take _ _

theorem onward_peek : Onward peek := fun _ hc => .refl hc

theorem onward_nextIs (f : Fixed) : Onward (nextIs f) := fun _ hc => .refl hc

theorem onward_skip : Onward skip := fun _ hc => Cursor.onward_advance hc

theorem Onward.either (hp : Onward p) (hq : Onward q) : Onward (either p q) := by
  intro c hc
  have h := hp c hc
  unfold Parser.either
  cases hpc : p c with
  | ok a d =>
    rw [hpc] at h
    exact h
  | error e d =>
    rw [hpc] at h
    have hback := h.restore hc
    exact hback.trans (hq _ hback.inside)

theorem Onward.label (name : String) (hp : Onward p) : Onward (label name p) := by
  intro c hc
  have h := hp c hc
  unfold Parser.label
  cases hpc : p c with
  | ok a d =>
    rw [hpc] at h
    exact h
  | error e d =>
    rw [hpc] at h
    exact h.trans (onward_raise _ d h.inside)

theorem Onward.optional (hp : Onward p) : Onward (optional p) := by
  intro c hc
  have h := hp c hc
  unfold Parser.optional
  cases hpc : p c with
  | ok a d =>
    rw [hpc] at h
    exact h
  | error e d =>
    rw [hpc] at h
    exact h.restore hc

/-- A bound that is taken from the cursor changes nothing. -/
theorem onward_remaining {p : Nat → Parser α} (hp : ∀ n, Onward (p n)) :
    Onward fun c => p c.remaining c := fun c hc => hp c.remaining c hc

theorem Onward.manyUpTo (hp : Onward p) (n : Nat) : Onward (manyUpTo p n) := by
  induction n with
  | zero => exact onward_pure _
  | succ n ih =>
    refine hp.optional.bind fun o => ?_
    cases o with
    | none => exact onward_pure _
    | some a => exact ih.bind fun _ => onward_pure _

theorem Onward.many (hp : Onward p) : Onward (many p) :=
  onward_remaining fun n => hp.manyUpTo (n + 1)

theorem Onward.many1 (hp : Onward p) : Onward (many1 p) :=
  hp.bind fun _ => hp.many.bind fun _ => onward_pure _

theorem Onward.sepBy1 {separator : Parser β} (hp : Onward p) (hs : Onward separator) :
    Onward (sepBy1 p separator) :=
  hp.bind fun _ => (hs.seqRight hp).many.bind fun _ => onward_pure _

theorem onward_unroll {ι : Type} {rule : (ι → Parser α) → ι → Parser α}
    (hrule : ∀ self, (∀ i, Onward (self i)) → ∀ i, Onward (rule self i)) (n : Nat) (i : ι) :
    Onward (unroll rule n i) := by
  induction n generalizing i with
  | zero => exact fun _ hc => .refl hc
  | succ n ih => exact hrule _ ih i

theorem onward_recursive {ι : Type} {rule : (ι → Parser α) → ι → Parser α}
    (hrule : ∀ self, (∀ i, Onward (self i)) → ∀ i, Onward (rule self i)) (i : ι) :
    Onward (recursive rule i) :=
  onward_remaining fun n => onward_unroll hrule (n + 1) i

end Parser

/-! ## The grammar -/

namespace Grammar
open MiniML.Parser

theorem onward_ident : Onward ident := onward_take _ _

theorem onward_constant : Onward constant := onward_take _ _

theorem onward_unit : Onward unit :=
  (onward_token _).bind fun _ => (onward_token _).bind fun _ => onward_pure _

section Hint

variable {self : Parser Hint}

theorem onward_hintItem (h : Onward self) : Onward (hintItem self) := by
  refine .either ?_ (onward_take _ _)
  exact (onward_token _).bind fun _ => h.bind fun _ => (onward_token _).bind fun _ => onward_pure _

theorem onward_hintProduct (h : Onward self) : Onward (hintProduct self) := by
  refine ((onward_hintItem h).sepBy1 (onward_token _)).bind fun hs => ?_
  split <;> exact onward_pure _

theorem onward_hintRule {self : Unit → Parser Hint} (h : ∀ i, Onward (self i)) (i : Unit) :
    Onward (hintRule self i) := by
  refine (onward_hintProduct (h ())).bind fun _ => ?_
  refine ((onward_token _).seqRight (h ())).optional.bind fun o => ?_
  cases o <;> exact onward_pure _

theorem onward_hint : Onward hint := onward_recursive (fun _ => onward_hintRule) ()

theorem onward_resultHint : Onward resultHint := onward_hintProduct onward_hint

end Hint

theorem onward_literalPattern : Onward literalPattern :=
  (onward_unit.either onward_constant).bind fun _ => onward_pure _

theorem onward_tuplePattern {self : Parser Pattern} (h : Onward self) :
    Onward (tuplePattern self) := by
  refine (onward_token _).bind fun _ => (h.sepBy1 (onward_token _)).bind fun _ =>
    (onward_token _).bind fun _ => ?_
  split <;> exact onward_pure _

theorem onward_patternRule {self : Unit → Parser Pattern} (h : ∀ i, Onward (self i)) (i : Unit) :
    Onward (patternRule self i) :=
  ((onward_literalPattern.either (onward_tuplePattern (h ()))).either
    ((onward_token _).bind fun _ => onward_pure _)).either
    (onward_ident.bind fun _ => onward_pure _)

theorem onward_pattern : Onward pattern := onward_recursive (fun _ => onward_patternRule) ()

theorem onward_param : Onward param := by
  refine .either ?_ (onward_pattern.bind fun _ => onward_pure _)
  exact (onward_token _).bind fun _ => onward_pattern.bind fun _ =>
    ((onward_token _).seqRight onward_hint).bind fun _ => (onward_token _).bind fun _ =>
      onward_pure _

section Expr

variable {self : Self} (h : ∀ g, Onward (self g))
include h

theorem onward_letBody (declaration : Bool) : Onward (letBody self declaration) := by
  have hin : Onward (do let _ ← token .in_; return some (← self (.expr true))) :=
    (onward_token _).bind fun _ => (h _).bind fun _ => onward_pure _
  unfold letBody
  cases declaration with
  | false => exact hin
  | true =>
    refine (onward_nextIs _).bind fun b => ?_
    cases b
    · exact onward_pure _
    · exact hin

theorem onward_letRule (declaration : Bool) : Onward (letRule self declaration) :=
  (onward_token _).bind fun _ => (onward_ident.label _).bind fun _ =>
    ((onward_token _).seqRight onward_hint).optional.bind fun _ => (onward_token _).bind fun _ =>
      (h _).bind fun _ => (onward_letBody h declaration).bind fun _ => onward_pure _

theorem onward_funRest (named : Bool) : Onward (funRest self named) := by
  unfold funRest
  cases named with
  | false => exact onward_pure _
  | true =>
    refine (onward_nextIs _).bind fun b => ?_
    cases b
    · exact onward_pure _
    · exact onward_skip.bind fun _ => (h _).bind fun _ => onward_pure _

theorem onward_funRule (declaration : Bool) : Onward (funRule self declaration) := by
  refine (onward_token _).bind fun _ => (onward_param.many1.label _).bind fun _ =>
    ((onward_token _).seqRight onward_resultHint).optional.bind fun _ =>
      (onward_token _).bind fun _ => (h _).bind fun _ => ?_
  exact (onward_funRest h _).bind fun _ => onward_pure _

theorem onward_ifRule : Onward (ifRule self) := by
  refine (onward_token _).bind fun _ => (h _).bind fun _ => (onward_token _).bind fun _ =>
    (h _).bind fun _ => (onward_nextIs _).bind fun b => ?_
  cases b
  · exact onward_pure _
  · exact (onward_token _).bind fun _ => (h _).bind fun _ => onward_pure _

theorem onward_arm : Onward (arm self) :=
  onward_pattern.bind fun _ => ((onward_token _).seqRight (h _)).bind fun _ => onward_pure _

theorem onward_matchRule : Onward (matchRule self) :=
  (onward_token _).bind fun _ => (h _).bind fun _ => (onward_token _).bind fun _ =>
    (onward_token _).optional.bind fun _ => ((onward_arm h).sepBy1 (onward_token _)).bind fun _ =>
      onward_pure _

theorem onward_parenthesized : Onward (parenthesized self) := by
  refine (onward_token _).bind fun _ => (onward_nextIs _).bind fun b => ?_
  cases b
  · refine ((h _).sepBy1 (onward_token _)).bind fun _ => (onward_token _).bind fun _ => ?_
    split <;> exact onward_pure _
  · exact (onward_token _).bind fun _ => onward_pure _

theorem onward_atom : Onward (atom self) :=
  (((onward_ident.bind fun _ => onward_pure _).either (onward_parenthesized h)).either
    (onward_constant.bind fun _ => onward_pure _)).label _

theorem onward_atoms (n : Nat) : Onward (atoms self n) := by
  induction n with
  | zero => exact onward_pure _
  | succ n ih =>
    refine onward_peek.bind fun o => ?_
    cases o with
    | none => exact onward_pure _
    | some t =>
      dsimp only
      split
      · exact (onward_atom h).bind fun _ => ih.bind fun _ => onward_pure _
      · exact onward_pure _

theorem onward_application : Onward (application self) := by
  refine (onward_atom h).bind fun _ => (onward_remaining (onward_atoms h)).bind fun args => ?_
  split <;> exact onward_pure _

theorem onward_operandRule : Onward (operandRule self) := by
  refine onward_peek.bind fun o => ?_
  cases o with
  | none => exact onward_application h
  | some t =>
    dsimp only
    split
    · exact onward_application h
    · exact onward_skip.bind fun _ => (h _).bind fun _ => onward_pure _

theorem onward_rightOperand (op : BinaryOp) : Onward (rightOperand self op) := by
  refine onward_peek.bind fun o => ?_
  cases o with
  | none => exact h _
  | some t =>
    dsimp only
    split <;> exact h _

theorem onward_operators (least n : Nat) (left : Expr) : Onward (operators self least n left) := by
  induction n generalizing left with
  | zero => exact onward_pure _
  | succ n ih =>
    refine onward_peek.bind fun o => ?_
    cases o with
    | none => exact onward_pure _
    | some t =>
      dsimp only
      split
      · exact onward_pure _
      · split
        · exact onward_pure _
        · exact onward_skip.bind fun _ => (onward_rightOperand h _).bind fun _ => ih _

theorem onward_binaryRule (least : Nat) : Onward (binaryRule self least) :=
  (onward_operandRule h).bind fun left =>
    onward_remaining fun n => onward_operators h least n left

theorem onward_exprRule (g : Goal) : Onward (exprRule self g) := by
  cases g with
  | operand => exact onward_operandRule h
  | binary least => exact onward_binaryRule h least
  | expr declaration =>
    refine onward_peek.bind fun o => ?_
    split
    · exact onward_letRule h declaration
    · exact onward_funRule h declaration
    · exact onward_ifRule h
    · exact onward_matchRule h
    · exact onward_binaryRule h 1

end Expr

theorem onward_declaration : Onward declaration :=
  onward_recursive (fun _ h g => onward_exprRule h g) (.expr true)

end Grammar
end MiniML
