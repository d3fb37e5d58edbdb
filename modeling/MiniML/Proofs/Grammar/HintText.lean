import MiniML.Proofs.Grammar.Spelling
import MiniML.Proofs.Token.Written

/-!
# The text of an annotation is read back

The text of an annotation is put together from the lexemes that are its pieces,
with spaces around arrows and stars. So it is cut into these lexemes again, and
the grammar reads the annotation from them.

Results:
* `Hint.lex_text`: the tokens of the text are the pieces of the annotation.
* `Hint.parse_text`: the grammar reads them as the annotation, up to the end.
* `Hint.text_roundTrip`: so no other annotation has this text.
-/
namespace MiniML

open MiniML.Piece MiniML.Parser MiniML.Grammar MiniML.Token

theorem prints_of_lexemes {tokens : List Token} {ls : List Lexeme}
    (h : tokens.map Token.lexeme = ls) : Prints (ls.map Piece.lexeme) tokens := by
  subst h
  induction tokens with
  | nil => exact .nil
  | cons t tokens ih => exact .cons rfl ih

namespace Hint

mutual
/-- The named variables, at each of their occurrences. -/
def vars : Hint → List String
  | .prim _ | .wildcard => []
  | .var x => [x]
  | .fn a b => vars a ++ vars b
  | .tuple hs => varsItems hs
/-- The named variables of a list of annotations. -/
def varsItems : List Hint → List String
  | [] => []
  | h :: hs => vars h ++ varsItems hs
end

theorem varsItems_eq (hs : List Hint) : varsItems hs = hs.flatMap vars := by
  induction hs <;> simp_all [varsItems]

/-- A text is put together from the lexemes that are these pieces. -/
def Written (ps : List Piece) (s : String) : Prop :=
  ∃ ls : List Lexeme, ls.map Piece.lexeme = ps ∧ Writes ls s.toList

section Written

variable {ps qs : List Piece} {s t : String}

theorem Written.parensIf (h : Written ps s) (b : Bool) :
    Written (Piece.parensIf b ps) (if b then Ty.parens s else s) := by
  cases b with
  | false => exact h
  | true =>
    obtain ⟨ls, rfl, hls⟩ := h
    refine ⟨.fixed .lparen :: (ls ++ [.fixed .rparen]), by simp [Piece.parensIf, Piece.parens], ?_⟩
    simpa [Ty.parens] using hls.parens

theorem Written.arrow (hs : Written ps s) (ht : Written qs t) :
    Written (ps ++ .fixed .arrow :: qs) (s ++ " -> " ++ t) := by
  obtain ⟨ls, rfl, hls⟩ := hs
  obtain ⟨ks, rfl, hks⟩ := ht
  refine ⟨ls ++ .fixed .arrow :: ks, by simp, ?_⟩
  simpa [Fixed.text] using hls.spaced (f := .arrow) (by decide) hks

theorem Written.star (hs : Written ps s) (ht : Written qs t) :
    Written (ps ++ .fixed .star :: qs) (s ++ " * " ++ t) := by
  obtain ⟨ls, rfl, hls⟩ := hs
  obtain ⟨ks, rfl, hks⟩ := ht
  refine ⟨ls ++ .fixed .star :: ks, by simp, ?_⟩
  simpa [Fixed.text] using hls.spaced (f := .star) (by decide) hks

end Written

theorem written_items {hs : List Hint} (h : ∀ g ∈ hs, Written g.pieces g.text) :
    Written (separated .star (itemPieces hs)) (" * ".intercalate (itemTexts hs)) := by
  induction hs with
  | nil => exact ⟨[], rfl, fun _ _ _ hcut => ⟨[], hcut, rfl⟩⟩
  | cons g hs ih =>
    obtain ⟨hg, hhs⟩ := List.forall_mem_cons.mp h
    have hfirst := hg.parensIf (g.isFn || g.isTuple)
    cases hs with
    | nil => simpa [itemPieces, itemTexts, separated] using hfirst
    | cons k hs =>
      rw [itemTexts, itemTexts, String.intercalate_cons_cons]
      exact hfirst.star (ih hhs)

/-- The text of an annotation is put together from its pieces. -/
theorem written_text {h : Hint} (hv : ∀ x ∈ h.vars, Lexeme.IsTypeVar x) :
    Written h.pieces h.text := by
  induction h with
  | prim p => exact ⟨_, rfl, writes_prim p⟩
  | var x => exact ⟨_, rfl, writes_typeVar (hv x (by simp [vars]))⟩
  | wildcard => exact ⟨_, rfl, writes_fixed (f := .underscore) (by decide)⟩
  | fn a b ha hb =>
    have ha := ha fun x hx => hv x (by simp [vars, hx])
    have hb := hb fun x hx => hv x (by simp [vars, hx])
    exact (ha.parensIf a.isFn).arrow hb
  | tuple hs ih =>
    rw [vars, varsItems_eq] at hv
    exact written_items fun g hg => ih g hg fun x hx => hv x (List.mem_flatMap.mpr ⟨g, hg, hx⟩)

variable {h : Hint}

/-- The tokens of the text of an annotation. -/
theorem lex_text (hv : ∀ x ∈ h.vars, Lexeme.IsTypeVar x) :
    ∃ tokens, Token.lex h.text = .ok tokens ∧ Prints h.pieces tokens := by
  obtain ⟨ls, hls, hwrites⟩ := written_text hv
  obtain ⟨tokens, hlex, htokens⟩ := hwrites.lex
  exact ⟨tokens, hlex, hls ▸ prints_of_lexemes htokens⟩

/-- The text of an annotation is read as this annotation, up to its end. -/
theorem parse_text (hd : h.Denotable) (hv : ∀ x ∈ h.vars, Lexeme.IsTypeVar x) :
    ∃ tokens c, Token.lex h.text = .ok tokens ∧ Grammar.hint (.ofTokens tokens) = .ok h c ∧
      c.rest = [] := by
  obtain ⟨tokens, hlex, hprints⟩ := lex_text hv
  obtain ⟨_, c, hrun, -, hrest, rfl⟩ := hintsBelow_hint (tokens.length + 1) h hd tokens []
    (Nat.lt_succ_self _) hprints.spells (heads_nil _) (.ofTokens tokens) (Nat.zero_le _)
    (Cursor.rest_ofTokens tokens)
  exact ⟨tokens, c, hlex, hrun, hrest⟩

example : (Token.lex "('a -> int) -> 'b12 * (unit -> 'a)").toOption.bind (fun tokens =>
    match Grammar.hint (.ofTokens tokens) with
    | .ok h c => if c.rest = [] then some h.text else none
    | .error _ _ => none) = some "('a -> int) -> 'b12 * (unit -> 'a)" := by
  decide +kernel

/-- An annotation is known from its text: it is read back up to the end, and no other
annotation with a text of its own reads the same. -/
theorem text_roundTrip (hd : h.Denotable) (hv : ∀ x ∈ h.vars, Lexeme.IsTypeVar x) :
    (∃ tokens c, Token.lex h.text = .ok tokens ∧ Grammar.hint (.ofTokens tokens) = .ok h c ∧
      c.rest = []) ∧
    ∀ g : Hint, g.Denotable → (∀ x ∈ g.vars, Lexeme.IsTypeVar x) → g.text = h.text → g = h := by
  refine ⟨parse_text hd hv, fun g hgd hgv htext => ?_⟩
  obtain ⟨tokens, c, hlex, hparse, -⟩ := parse_text hd hv
  obtain ⟨tokens', c', hlex', hparse', -⟩ := parse_text hgd hgv
  -- one text has one list of tokens, and these are read in one way
  rw [htext, hlex] at hlex'
  obtain rfl := Except.ok.inj hlex'
  rw [hparse] at hparse'
  cases hparse'
  rfl

/-- `('a -> 'b2) -> 'a * ('b2 * _) * (int -> 'b2)`, where an apostrophe could begin a
character literal. -/
theorem text_roundTrip_nested :
    let h : Hint := .fn (.fn (.var "'a") (.var "'b2"))
      (.tuple [.var "'a", .tuple [.var "'b2", .wildcard], .fn (.prim .int) (.var "'b2")])
    h.Denotable ∧ (∀ x ∈ h.vars, Lexeme.IsTypeVar x) ∧
      h.text = "('a -> 'b2) -> 'a * ('b2 * _) * (int -> 'b2)" ∧
      (∃ tokens c, Token.lex h.text = .ok tokens ∧ Grammar.hint (.ofTokens tokens) = .ok h c ∧
        c.rest = []) ∧
      ∀ g : Hint, g.Denotable → (∀ x ∈ g.vars, Lexeme.IsTypeVar x) → g.text = h.text → g = h := by
  intro h
  have hpair : (Hint.tuple [.var "'b2", .wildcard]).Denotable := by
    refine .tuple (Nat.le_refl 2) (List.forall_mem_cons.mpr ⟨.var _, ?_⟩)
    exact List.forall_mem_singleton.mpr .wildcard
  have hitems : ∀ g ∈ [.var "'a", .tuple [.var "'b2", .wildcard], .fn (.prim .int) (.var "'b2")],
      Hint.Denotable g := by
    refine List.forall_mem_cons.mpr ⟨.var _, List.forall_mem_cons.mpr ⟨hpair, ?_⟩⟩
    exact List.forall_mem_singleton.mpr (.fn (.prim _) (.var _))
  have hd : h.Denotable := .fn (.fn (.var _) (.var _)) (.tuple (by decide) hitems)
  have hv : ∀ x ∈ h.vars, Lexeme.IsTypeVar x := by decide
  obtain ⟨hparse, honly⟩ := text_roundTrip hd hv
  exact ⟨hd, hv, by decide, hparse, honly⟩

end Hint
end MiniML
