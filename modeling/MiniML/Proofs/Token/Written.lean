import MiniML.Proofs.Grammar.Print
import MiniML.Proofs.Token.Blanked

/-!
# Texts that are written lexeme by lexeme

A text that is put together from lexemes is cut into these lexemes again, if none
of them could go on into what is behind it. For the lexemes of annotations it is
enough that a space, a right parenthesis or nothing comes next (`Ends`).

Results:
* `next?_fixed`, `next?_prim`, `next?_typeVar`: the lexemes of an annotation are
  the longest ones that start where they stand.
* `Writes.lex`: the tokens of a text are the lexemes that it is put together from.
-/
namespace MiniML

/-- Whether the words of a class begin with a character. -/
def WordClass.begins : WordClass → Char → Bool
  | .ident, c => Lexeme.isLetter c || c == '_'
  | .typeVar, c | .char, c => c == '\''
  | .float, c | .integer, c => Lexeme.isDigit c
  | .string, c => c == '"'

/-! ## The next lexeme -/

namespace Lexeme

variable {c : Char} {cs ds ws : List Char} {l : Lexeme} {n : Nat} {f g : Fixed} {k : WordClass}

/-- A lexeme that is longer than all others is the next one. -/
theorem next?_eq (h : Starts cs l n)
    (hlt : ∀ l' n', Starts cs l' n' → l' = l ∧ n' = n ∨ n' < n) : next? cs = some (l, n) := by
  cases hnext : next? cs with
  | none =>
    have hmem := mem_candidates_iff.mpr h
    rw [longest_eq_none.mp hnext] at hmem
    cases hmem
  | some d =>
    obtain ⟨l', n'⟩ := d
    obtain ⟨hstarts, hle⟩ := next_spec hnext
    rcases hlt l' n' hstarts with ⟨rfl, rfl⟩ | hn
    · rfl
    · exact absurd (hle l n h) (Nat.not_le_of_lt hn)

/-- What the lexemes of annotations do not go on into: a space, a right parenthesis,
or the end of the text. -/
def Ends (cs : List Char) : Prop := ∀ c ∈ cs.head?, c = ' ' ∨ c = ')'

theorem ends_cons (hc : c = ' ' ∨ c = ')') : Ends (c :: cs) := by
  rintro _ ⟨⟩
  exact hc

theorem Ends.not {p : Char → Bool} (h : Ends ds) (hspace : p ' ' = false)
    (hparen : p ')' = false) : ∀ c ∈ ds.head?, p c = false := by
  intro c hc
  rcases h c hc with rfl | rfl
  · exact hspace
  · exact hparen

theorem run_ends {p : Char → Bool} (hws : ∀ c ∈ ws, p c) (h : Ends ds) (hspace : p ' ' = false)
    (hparen : p ')' = false) : run p (ws ++ ds) = ws.length :=
  Comment.run_append hws (h.not hspace hparen)

/-- Two lexemes of one class and one length are the same. -/
theorem Starts.word_unique {s s' : String} {n n' : Nat} (h : Starts cs (.word k s) n)
    (h' : Starts cs (.word k s') n') : (.word k s' : Lexeme) = .word k s ∧ n' = n := by
  obtain ⟨hn, rfl⟩ := h
  obtain ⟨hn', rfl⟩ := h'
  obtain rfl := Option.some.inj (hn.symm.trans hn')
  exact ⟨rfl, rfl⟩

/-- Each class of words has its own first characters. -/
theorem begins_of_word (h : wordLength? k (c :: cs) = some n) : k.begins c := by
  have hdigit (hrun : 0 < run isDigit (c :: cs)) : isDigit c := by
    by_contra hc
    rw [run, List.takeWhile_cons_of_neg hc] at hrun
    cases hrun
  cases k with
  | ident =>
    simp only [wordLength?, identLength?] at h
    split at h
    next hc => simp [WordClass.begins, hc]
    next =>
      split at h
      next hc => simp [WordClass.begins, hc.1]
      next => cases h
  | typeVar =>
    simp only [wordLength?] at h
    unfold typeVarLength? at h
    split at h
    next heq => exact beq_iff_eq.mpr (List.cons.inj heq).1
    next => cases h
  | float =>
    simp only [wordLength?] at h
    unfold floatLength? at h
    split at h
    next hrun _ => exact hdigit (by rw [hrun]; exact Nat.succ_pos _)
    next => cases h
  | integer =>
    simp only [wordLength?, integerLength?] at h
    split at h
    next hrun => exact hdigit hrun
    next => cases h
  | string =>
    simp only [wordLength?] at h
    unfold stringLength? at h
    split at h
    next heq => exact beq_iff_eq.mpr (List.cons.inj heq).1
    next => cases h
  | char =>
    simp only [wordLength?] at h
    unfold charLength? at h
    split at h
    next heq => exact beq_iff_eq.mpr (List.cons.inj heq).1
    next heq => exact beq_iff_eq.mpr (List.cons.inj heq).1
    next => cases h

/-! ### Fixed lexemes -/

theorem starts_fixed (f : Fixed) (ds : List Char) :
    Starts (f.text.toList ++ ds) (.fixed f) f.text.toList.length :=
  if_pos (List.isPrefixOf_iff_prefix.mpr (List.prefix_append _ _))

/-- A fixed lexeme goes on from what a text begins with, or it is shorter. -/
theorem goesOn_of_starts (h : Starts (ws ++ ds) (.fixed f) n) :
    ws <+: f.text.toList ∨ n < ws.length := by
  obtain ⟨-, hle, htake⟩ := h.bounds
  change f.text.toList = _ at htake
  rw [htake]
  rcases Nat.lt_or_ge n ws.length with hn | hn
  · exact .inr hn
  · exact .inl (List.prefix_take_iff.mpr ⟨List.prefix_append ws ds, hn⟩)

/-- The fixed lexemes of annotations. -/
def ofHint : List Fixed := [.arrow, .star, .lparen, .rparen, .underscore]

theorem eq_of_goesOn (hf : f ∈ ofHint) (h : f.text.toList <+: g.text.toList) :
    g = f ∨ f = .star ∧ g = .starDot := by
  revert h
  simp only [ofHint, List.mem_cons, List.not_mem_nil, or_false] at hf
  rcases hf with rfl | rfl | rfl | rfl | rfl <;> cases g <;> decide

/-- No word begins with a fixed lexeme of an annotation. -/
theorem wordLength_fixed (hf : f ∈ ofHint) (hds : f = .lparen ∨ Ends ds) :
    wordLength? k (f.text.toList ++ ds) = none := by
  have hhead {c : Char} {cs : List Char} (hc : ∀ k : WordClass, k.begins c = false) :
      wordLength? k (c :: cs) = none :=
    Option.eq_none_iff_forall_ne_some.mpr fun n h =>
      Bool.false_ne_true ((hc k).symm.trans (begins_of_word h))
  simp only [ofHint, List.mem_cons, List.not_mem_nil, or_false] at hf
  rcases hf with rfl | rfl | rfl | rfl | rfl
  · exact hhead (c := '-') fun k => by cases k <;> rfl
  · exact hhead (c := '*') fun k => by cases k <;> rfl
  · exact hhead (c := '(') fun k => by cases k <;> rfl
  · exact hhead (c := ')') fun k => by cases k <;> rfl
  · refine Option.eq_none_iff_forall_ne_some.mpr fun n h => ?_
    change wordLength? k ('_' :: ds) = some n at h
    have hk : k = .ident := by
      have hbegins := begins_of_word h
      cases k <;> revert hbegins <;> decide
    have hrun : run isIdentChar ([] ++ ds) = 0 := run_ends nofun (hds.resolve_left nofun) rfl rfl
    rw [hk, wordLength?, identLength?, ← List.nil_append ds, hrun] at h
    cases h

theorem next?_fixed (hf : f ∈ ofHint) (hds : f = .lparen ∨ Ends ds) :
    next? (f.text.toList ++ ds) = some (.fixed f, f.text.toList.length) := by
  refine next?_eq (starts_fixed f ds) fun l n h => ?_
  cases l with
  | word k s =>
    have hword := h.1
    rw [wordLength_fixed hf hds] at hword
    cases hword
  | fixed g =>
    rcases goesOn_of_starts h with hgo | hn
    · rcases eq_of_goesOn hf hgo with rfl | ⟨rfl, rfl⟩
      · exact .inl ⟨rfl, Option.some.inj (h.symm.trans (starts_fixed g ds))⟩
      · -- what is behind a star is no point
        have hdot : (fixed .starDot).chars <+: '*' :: ds := by
          rw [h.bounds.2.2]
          exact List.take_prefix _ _
        obtain ⟨es, rfl⟩ := (List.cons_prefix_cons.mp hdot).2
        rcases hds.resolve_left nofun '.' rfl with hc | hc <;> cases hc
    · exact .inr hn

/-! ### Words -/

/-- A primitive type is no keyword, and begins none. -/
theorem prim_not_goesOn (p : Prim) (f : Fixed) : ¬p.name.toList <+: f.text.toList := by
  cases p <;> cases f <;> decide

theorem prim_eq_cons (p : Prim) : ∃ c ws, p.name.toList = c :: ws ∧ isLetter c ∧
    (∀ d ∈ ws, isIdentChar d) ∧ ∀ k : WordClass, k.begins c → k = .ident := by
  have hclass {c : Char} (h : [WordClass.typeVar, .float, .integer, .string, .char].all
      fun k => !k.begins c) (k : WordClass) : k.begins c → k = .ident := by
    cases k <;> simp_all
  have hchars {ws : List Char} (h : ws.all isIdentChar = true) : ∀ d ∈ ws, isIdentChar d :=
    List.all_eq_true.mp h
  cases p
  · exact ⟨'u', ['n', 'i', 't'], rfl, rfl, hchars rfl, hclass rfl⟩
  · exact ⟨'i', ['n', 't'], rfl, rfl, hchars rfl, hclass rfl⟩
  · exact ⟨'f', ['l', 'o', 'a', 't'], rfl, rfl, hchars rfl, hclass rfl⟩
  · exact ⟨'s', ['t', 'r', 'i', 'n', 'g'], rfl, rfl, hchars rfl, hclass rfl⟩
  · exact ⟨'c', ['h', 'a', 'r'], rfl, rfl, hchars rfl, hclass rfl⟩
  · exact ⟨'b', ['o', 'o', 'l'], rfl, rfl, hchars rfl, hclass rfl⟩

theorem next?_prim (p : Prim) (hds : Ends ds) :
    next? (p.name.toList ++ ds) = some (.word .ident p.name, p.name.toList.length) := by
  obtain ⟨c, ws, hname, hc, hws, hident⟩ := prim_eq_cons p
  have hlength : identLength? (p.name.toList ++ ds) = some p.name.toList.length := by
    rw [hname, List.cons_append, identLength?, if_pos hc, run_ends hws hds rfl rfl, Nat.add_comm]
    rfl
  have hstarts : Starts (p.name.toList ++ ds) (.word .ident p.name) p.name.toList.length :=
    ⟨hlength, by rw [List.take_left, String.ofList_toList]⟩
  refine next?_eq hstarts fun l n h => ?_
  cases l with
  | fixed f => exact .inr ((goesOn_of_starts h).resolve_left (prim_not_goesOn p f))
  | word k s =>
    have hk := h.1
    rw [hname, List.cons_append] at hk
    obtain rfl := hident k (begins_of_word hk)
    exact .inl (hstarts.word_unique h)

/-- Whether a text is a type variable: an apostrophe, a small letter and name characters. -/
def IsTypeVar (s : String) : Prop := typeVarLength? s.toList = some s.toList.length

instance (s : String) : Decidable (IsTypeVar s) := inferInstanceAs (Decidable (_ = _))

theorem isTypeVar_iff {s : String} : IsTypeVar s ↔
    ∃ c ws, s.toList = '\'' :: c :: ws ∧ isSmall c ∧ ∀ d ∈ ws, isNameChar d := by
  constructor
  · intro h
    unfold IsTypeVar typeVarLength? at h
    split at h
    next c cs heq =>
      split at h
      next hc =>
        rw [heq] at h
        refine ⟨c, cs, heq, hc, ?_⟩
        have hrun : run isNameChar (cs ++ []) = cs.length := by
          have := Option.some.inj h
          simp only [List.length_cons] at this
          rw [List.append_nil]
          omega
        exact (run_append_eq hrun).1
      next => cases h
    next => cases h
  · rintro ⟨c, ws, hs, hc, hws⟩
    have hrun : run isNameChar (ws ++ []) = ws.length := Comment.run_append hws nofun
    rw [List.append_nil] at hrun
    rw [IsTypeVar, hs, typeVarLength?, if_pos hc, hrun, Nat.add_comm]
    rfl

theorem next?_typeVar {s : String} (hs : IsTypeVar s) (hds : Ends ds) :
    next? (s.toList ++ ds) = some (.word .typeVar s, s.toList.length) := by
  obtain ⟨c, ws, hname, hc, hws⟩ := isTypeVar_iff.mp hs
  have hlength : typeVarLength? (s.toList ++ ds) = some s.toList.length := by
    rw [hname, List.cons_append, List.cons_append, typeVarLength?, if_pos hc,
      run_ends hws hds rfl rfl, Nat.add_comm]
    rfl
  have hstarts : Starts (s.toList ++ ds) (.word .typeVar s) s.toList.length :=
    ⟨hlength, by rw [List.take_left, String.ofList_toList]⟩
  refine next?_eq hstarts fun l n h => ?_
  cases l with
  | fixed f =>
    have hhead : f.text.toList.head? ≠ some '\'' := by cases f <;> decide
    refine .inr ((goesOn_of_starts h).resolve_left fun hgo => hhead ?_)
    obtain ⟨es, he⟩ := hgo
    rw [← he, hname]
    rfl
  | word k v =>
    have hk := h.1
    rw [hname, List.cons_append, List.cons_append] at hk
    obtain rfl | rfl : k = .typeVar ∨ k = .char := by
      have hbegins := begins_of_word hk
      cases k <;> revert hbegins <;> decide
    · exact .inl (hstarts.word_unique h)
    · -- no apostrophe closes a character literal
      have hbehind : ∀ es, ws ++ ds ≠ '\'' :: es := by
        intro es he
        rcases ws with _ | ⟨w, ws⟩
        · rw [List.nil_append] at he
          rcases hds '\'' (by rw [he]; rfl) with hc | hc <;> cases hc
        · obtain ⟨rfl, -⟩ := List.cons.inj he
          exact absurd (hws '\'' List.mem_cons_self) (by decide)
      have hnone : charLength? ('\'' :: c :: (ws ++ ds)) = none :=
        Comment.charLength_eq_none (fun _ es he => absurd (List.cons.inj he).2 (hbehind es))
          fun _ _ he => absurd hc (by rw [(List.cons.inj he).1]; decide)
      rw [wordLength?, hnone] at hk
      cases hk

end Lexeme

/-! ## Texts -/

/-- The lexemes among segments. -/
def Segment.lexemes (ss : List Segment) : List Lexeme :=
  ss.filterMap fun
    | .gap _ => none
    | .lexeme l => some l

namespace Token
open Lexeme

variable {cs ds : List Char} {ks ls : List Lexeme} {f : Fixed}

theorem placed_lexemes (source : String) (loc : Loc) (ss : List Segment) :
    (placed source loc ss).map Token.lexeme = Segment.lexemes ss := by
  induction ss generalizing loc with
  | nil => rfl
  | cons s ss ih =>
    cases s with
    | gap c => exact ih _
    | lexeme l => exact congrArg (l :: ·) (ih _)

/-- A text that is put together from lexemes, if what is behind it ends the last one. -/
def Writes (ls : List Lexeme) (cs : List Char) : Prop :=
  ∀ ⦃rest : List Char⦄ ⦃ss : List Segment⦄, Ends rest → Cut rest ss →
    ∃ qs, Cut (cs ++ rest) (qs ++ ss) ∧ Segment.lexemes qs = ls

theorem writes_lexeme {l : Lexeme} (hhead : ∀ c ∈ l.chars.head?, isSpace c = false)
    (hl : ∀ ds, Ends ds → next? (l.chars ++ ds) = some (l, l.chars.length)) :
    Writes [l] l.chars :=
  fun rest _ hrest hcut => ⟨[.lexeme l], .lexeme hhead (hl rest hrest) hcut, rfl⟩

theorem writes_prim (p : Prim) : Writes [.word .ident p.name] p.name.toList :=
  writes_lexeme (l := .word .ident p.name) (head_not_space (by cases p <;> decide))
    fun _ => next?_prim p

theorem writes_typeVar {s : String} (hs : IsTypeVar s) : Writes [.word .typeVar s] s.toList := by
  refine writes_lexeme (l := .word .typeVar s) ?_ fun _ => next?_typeVar hs
  obtain ⟨c, ws, hname, -⟩ := isTypeVar_iff.mp hs
  rw [show (Lexeme.word .typeVar s).chars = '\'' :: c :: ws from hname]
  rintro _ ⟨⟩
  rfl

theorem cut_fixed {ss : List Segment} (hf : f ∈ ofHint) (hds : f = .lparen ∨ Ends ds)
    (h : Cut ds ss) : Cut (f.text.toList ++ ds) (.lexeme (.fixed f) :: ss) := by
  refine Cut.lexeme (l := .fixed f) (head_not_space ?_) (next?_fixed hf hds) h
  cases f <;> decide

theorem writes_fixed (hf : f ∈ ofHint) : Writes [.fixed f] f.text.toList :=
  fun _ _ hrest hcut => ⟨[.lexeme (.fixed f)], cut_fixed hf (.inr hrest) hcut, rfl⟩

theorem Writes.parens (h : Writes ls cs) :
    Writes (.fixed .lparen :: (ls ++ [.fixed .rparen])) ('(' :: (cs ++ [')'])) := by
  intro rest ss hrest hcut
  have hclose : Cut (')' :: rest) _ := cut_fixed (f := .rparen) (by decide) (.inr hrest) hcut
  obtain ⟨qs, hqs, rfl⟩ := h (ends_cons (.inr rfl)) hclose
  refine ⟨.lexeme (.fixed .lparen) :: (qs ++ [.lexeme (.fixed .rparen)]), ?_, ?_⟩
  · have hopen : Cut ('(' :: (cs ++ ')' :: rest)) _ :=
      cut_fixed (f := .lparen) (by decide) (.inl rfl) hqs
    simpa using hopen
  · simp [Segment.lexemes]

/-- Texts with an operator and spaces between them. -/
theorem Writes.spaced (hf : f ∈ ofHint) (hl : Writes ls cs) (hk : Writes ks ds) :
    Writes (ls ++ .fixed f :: ks) (cs ++ (' ' :: (f.text.toList ++ ' ' :: ds))) := by
  intro rest ss hrest hcut
  obtain ⟨qs, hqs, rfl⟩ := hk hrest hcut
  have hsymbol := cut_fixed hf (.inr (ends_cons (.inl rfl))) (.gap (c := ' ') rfl hqs)
  obtain ⟨rs, hrs, rfl⟩ := hl (ends_cons (.inl rfl)) (.gap (c := ' ') rfl hsymbol)
  refine ⟨rs ++ (.gap ' ' :: .lexeme (.fixed f) :: .gap ' ' :: qs), ?_, ?_⟩
  · simpa using hrs
  · simp [Segment.lexemes]

theorem Writes.lex {s : String} (h : Writes ls s.toList) :
    ∃ tokens, Token.lex s = .ok tokens ∧ tokens.map Token.lexeme = ls := by
  obtain ⟨qs, hcut, hqs⟩ := h (show Ends [] from nofun) .nil
  rw [List.append_nil, List.append_nil] at hcut
  exact ⟨_, hcut.lex, by rw [placed_lexemes, hqs]⟩

end Token
end MiniML
