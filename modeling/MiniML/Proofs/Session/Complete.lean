import MiniML.Session.Console
import MiniML.Proofs.Grammar.Faultless
import MiniML.Proofs.Token.Ending

/-!
# Complete inputs

Whether an input asks for more is guessed from its characters: from the end of the text
without its comments, and from the numbers of parentheses in it. A program without
faults ends with an atom or a separator, which neither ends like one of the symbols
that ask for more nor is one of the keywords; and its parentheses have counterparts, as
far as they are tokens. But those in strings and characters are counted as well. So
a complete input is answered at once unless its literals have more opening parentheses than
closing ones, and only then it waits for another line (`needsMore_of_faultless`).
-/
namespace MiniML.Console
open Segment Token

/-- The last characters of the symbols that cannot end a declaration. -/
def openChars : List Char := ['=', '>', '|', '(', ',']

theorem openSymbols_last {s : String} (hs : s ∈ openSymbols) :
    ∃ c ∈ s.toList.getLast?, c ∈ openChars := by
  have hall : openSymbols.all fun s => s.toList.getLast?.any openChars.contains := by decide
  have hlast := List.all_eq_true.mp hall s hs
  cases hc : s.toList.getLast? with
  | none =>
    rw [hc] at hlast
    cases hlast
  | some c =>
    rw [hc] at hlast
    exact ⟨c, rfl, List.contains_iff_mem.mp hlast⟩

theorem openKeywords_text : ∀ s ∈ openKeywords, ∃ f ∈ Fixed.keywords,
    f.text = s ∧ Grammar.endsProgram (.fixed f) = false := by decide

/-- What ends a program does not end in one of these. -/
theorem not_openChars {l : Lexeme} (h : l.Found) (hl : Grammar.endsProgram l = true) :
    ∀ c ∈ l.chars.getLast?, c ∉ openChars := by
  intro c hc hmem
  cases hquoted : l.isQuoted with
  | true =>
    obtain ⟨q, hq, hquote⟩ := h.quoted_last hquoted
    obtain rfl := Option.some.inj (hc.symm.trans hq)
    revert hmem
    rcases hquote with rfl | rfl <;> decide
  | false =>
    cases l with
    | fixed f =>
      have hlast : Grammar.endsProgram (.fixed f) = true →
          f.text.toList.getLast?.all fun c => c ∉ openChars := by
        cases f <;> decide
      have hlast := hlast hl
      rw [show f.text.toList.getLast? = some c from hc] at hlast
      simp [hmem] at hlast
    | word k s =>
      have hall : openChars.all fun c => !(Lexeme.isIdentChar c || c == '.') := by decide
      have hword := List.all_eq_true.mp hall c hmem
      simp only [Bool.not_eq_true', Bool.or_eq_false_iff, beq_eq_false_iff_ne] at hword
      rcases h.word_chars hquoted c (List.mem_of_getLast? hc) with hident | hdot
      · rw [hword.1] at hident
        cases hident
      · exact hword.2 hdot

section Ending

variable {cs : List Char} {qs rs : List Segment} {l : Lexeme}

theorem no_openSymbol (qs : List Segment) (h : l.Found) (hl : Grammar.endsProgram l = true) :
    openSymbols.any (fun s => s.toList.isSuffixOf (textOf (qs ++ [.lexeme l]))) = false := by
  rw [List.any_eq_false]
  intro s hs hsuffix
  obtain ⟨c, hc, hmem⟩ := openSymbols_last hs
  obtain ⟨ds, hds⟩ := List.isSuffixOf_iff_suffix.mp hsuffix
  obtain ⟨d, hd⟩ : ∃ d, d ∈ l.chars.getLast? := ⟨_, List.getLast?_eq_some_getLast h.ne_nil⟩
  -- the symbol and the lexeme end with the same character
  have hlast := congrArg List.getLast? hds
  have htext : textOf (qs ++ [.lexeme l]) = textOf qs ++ l.chars := by simp [textOf, chars]
  rw [htext, List.getLast?_append, List.getLast?_append, Option.mem_def.mp hc,
    Option.mem_def.mp hd] at hlast
  obtain rfl : c = d := Option.some.inj hlast
  exact not_openChars h hl c hd hmem

theorem no_openKeyword (h : Cut cs (qs ++ [.lexeme l] ++ rs)) (hl : Grammar.endsProgram l = true) :
    openKeywords.any (fun s => s.toList == lastWord (textOf (qs ++ [.lexeme l]))) = false := by
  rw [List.any_eq_false]
  intro s hs hword
  obtain ⟨f, hf, rfl, hend⟩ := openKeywords_text s hs
  rw [h.eq_keyword hf (beq_iff_eq.mp hword).symm, hend] at hl
  cases hl

end Ending

/-- Where no fault is reported, only the literals of an input can ask for more. -/
theorem needsMore_of_faultless {input : String} {tokens : List Token}
    (hlex : Token.lex (blankComments input) = .ok tokens) (hparse : (Grammar.parse tokens).2 = []) :
    let quoted := quotedChars (tokens.map Token.lexeme)
    (needsMore input = true ↔ quoted.count ')' < quoted.count '(') ∧
      (quoted.count '(' ≤ quoted.count ')' →
        ∀ colour session, consider colour input session = answer colour input session) := by
  intro quoted
  obtain ⟨ss, hcut, htokens⟩ := cut_of_lex hlex
  have hlexemes : tokens.map Token.lexeme = lexemes ss := htokens ▸ placed_lexemes _ _ ss
  obtain ⟨ps, rs, hss, htext, hps, hlast⟩ := trimEnd_textOf hcut.found
  rw [hcut.text] at htext
  have hclosed := Grammar.closed_of_faultless hparse
  have hfound : ∀ s ∈ ps, s.Found := fun s hs => hcut.found s (hss ▸ List.mem_append_left rs hs)
  have hcount : (textOf ps).count ')' < (textOf ps).count '(' ↔
      quoted.count ')' < quoted.count '(' := by
    have hpaired := hclosed.paired.count_eq
    rw [hlexemes] at hpaired
    have hquoted : quoted = quotedChars (lexemes ss) := congrArg quotedChars hlexemes
    rw [count_textOf (f := .lparen) (.inl ⟨rfl, rfl⟩) hfound,
      count_textOf (f := .rparen) (.inr ⟨rfl, rfl⟩) hfound, hps, hquoted, hpaired]
    omega
  have hmore : needsMore input = true ↔ quoted.count ')' < quoted.count '(' := by
    rw [← hcount]
    rcases hlast with rfl | ⟨qs, l, rfl⟩
    · simp only [needsMore, htext]
      decide
    · have hl : Grammar.endsProgram l = true := by
        have htoken : (tokens.map Token.lexeme).getLast? = some l := by
          rw [hlexemes, ← hps]
          simp [lexemes]
        rw [List.getLast?_map, Option.map_eq_some_iff] at htoken
        obtain ⟨t, ht, rfl⟩ := htoken
        exact hclosed.last t ht
      have hsymbol := no_openSymbol qs (hfound (.lexeme l) (by simp)) hl
      have hkeyword := no_openKeyword (hss ▸ hcut) hl
      simp only [needsMore, htext, hsymbol, hkeyword, Bool.false_or, decide_eq_true_eq]
  refine ⟨hmore, fun hle colour session => ?_⟩
  have hno : needsMore input = false := Bool.eq_false_iff.mpr fun h => by
    have := hmore.mp h
    omega
  unfold consider
  rw [hno, Bool.and_false]
  rfl

/-- `greet ":(" ')' (1, 2) (* in *)` is answered at once. -/
theorem needsMore_of_faultless_greet :
    let input := "greet \":(\" ')' (1, 2) (* in *)"
    let tokens := (Token.lex (blankComments input)).toOption.getD []
    let quoted := quotedChars (tokens.map Token.lexeme)
    Token.lex (blankComments input) = .ok tokens ∧ (Grammar.parse tokens).2 = [] ∧
      quoted.count '(' = 1 ∧ quoted.count ')' = 1 ∧ needsMore input = false ∧
      ∀ colour session, consider colour input session = answer colour input session := by
  intro input tokens quoted
  have hlex : Token.lex (blankComments input) = .ok tokens := by decide +kernel
  have hparse : (Grammar.parse tokens).2 = [] := by decide +kernel
  have hopen : quoted.count '(' = 1 := by decide +kernel
  have hclose : quoted.count ')' = 1 := by decide +kernel
  obtain ⟨hmore, hanswer⟩ := needsMore_of_faultless hlex hparse
  refine ⟨hlex, hparse, hopen, hclose, Bool.eq_false_iff.mpr fun h => ?_,
    hanswer (Nat.le_of_eq (hopen.trans hclose.symm))⟩
  have hlt := hmore.mp h
  rw [hopen, hclose] at hlt
  exact Nat.lt_irrefl _ hlt

/-- The string `"("` is a program without faults, and yet it asks for more. -/
theorem needsMore_of_open_literal :
    ¬ ∀ input tokens, Token.lex (blankComments input) = .ok tokens →
      (Grammar.parse tokens).2 = [] → needsMore input = false := by
  intro h
  let input := "\"(\""
  let tokens : List Token := [⟨.word .string input, ⟨{}, ⟨0, 3⟩, input⟩⟩]
  have hlex : Token.lex (blankComments input) = .ok tokens := by decide +kernel
  have hparse : (Grammar.parse tokens).2 = [] := by decide +kernel
  have hmore : needsMore input = true := by decide +kernel
  rw [h input tokens hlex hparse] at hmore
  cases hmore

end MiniML.Console
