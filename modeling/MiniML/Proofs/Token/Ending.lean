import MiniML.Source.Blank
import MiniML.Proofs.Token.Quotes
import MiniML.Proofs.Token.Written

/-!
# How a text with tokens ends

White space separates lexemes, and stands in literals between quotes. So without the
white space behind it, a text that has tokens ends with the last lexeme
(`Token.trimEnd_textOf`), and if its last word is a keyword, this is the last lexeme
(`Token.Cut.eq_keyword`). Parentheses are lexemes, or stand in literals
(`Token.count_textOf`).
-/
namespace MiniML

/-! ## White space -/

section Blank

variable {c : Char} {cs : List Char}

theorem not_blank {p : Char → Bool} (hp : blanks.all fun b => !p b) (h : p c) :
    isBlank c = false := by
  refine Bool.eq_false_iff.mpr fun hc => ?_
  have hfalse := List.all_eq_true.mp hp c (List.contains_iff_mem.mp hc)
  rw [h] at hfalse
  cases hfalse

theorem blank_of_space (h : Token.isSpace c) : isBlank c := by
  simp only [Token.isSpace, Bool.or_eq_true, beq_iff_eq] at h
  rcases h with (((rfl | rfl) | rfl) | rfl) | rfl <;> decide

theorem trimEnd_append_blank (hc : isBlank c) (cs : List Char) :
    trimEnd (cs ++ [c]) = trimEnd cs := by
  rw [trimEnd, List.reverse_concat, List.dropWhile_cons_of_pos hc]
  rfl

theorem trimEnd_eq_self (h : ∃ c ∈ cs.getLast?, isBlank c = false) : trimEnd cs = cs := by
  obtain ⟨c, hc, hblank⟩ := h
  obtain ⟨ds, rfl⟩ := List.getLast?_eq_some_iff.mp hc
  rw [trimEnd, List.reverse_concat, List.dropWhile_cons_of_neg (by simp [hblank]),
    List.reverse_cons, List.reverse_reverse]

/-- The last word stands at the beginning or behind white space. -/
theorem exists_lastWord (cs : List Char) :
    ∃ ds, cs = ds ++ lastWord cs ∧ ∀ c ∈ ds.getLast?, isBlank c := by
  refine ⟨(cs.reverse.dropWhile (!isBlank ·)).reverse, ?_, fun c hc => ?_⟩
  · rw [lastWord, ← List.reverse_append, List.takeWhile_append_dropWhile, List.reverse_reverse]
  · rw [List.getLast?_reverse] at hc
    have hfirst := List.head?_dropWhile_not (!isBlank ·) cs.reverse
    rw [Option.mem_def.mp hc] at hfirst
    simpa using hfirst

end Blank

/-! ## The characters of a lexeme -/

namespace Fixed

variable {f g : Fixed}

theorem text_ne_nil (f : Fixed) : f.text.toList ≠ [] := by cases f <;> decide

/-- Each fixed lexeme is spelled in its own way. -/
theorem text_injective (h : f.text = g.text) : f = g := by
  revert h
  cases f <;> cases g <;> decide

theorem keyword_chars (hf : f ∈ keywords) :
    ∀ c ∈ f.text.toList, isBlank c = false ∧ c ≠ '"' ∧ c ≠ '\'' := by
  have hall : keywords.all fun f => f.text.toList.all fun c =>
      !isBlank c && c ≠ '"' && c ≠ '\'' := by decide
  intro c hc
  simpa [and_assoc] using List.all_eq_true.mp (List.all_eq_true.mp hall f hf) c hc

end Fixed

namespace Lexeme

variable {cs : List Char} {l : Lexeme} {n : Nat}

/-- Whether a lexeme is a literal between quotes. -/
def isQuoted : Lexeme → Bool
  | .word .string _ | .word .char _ => true
  | _ => false

/-- A lexeme as it is found in some text. -/
def Found (l : Lexeme) : Prop := ∃ cs n, Starts cs l n

theorem Found.ne_nil (h : l.Found) : l.chars ≠ [] := by
  obtain ⟨cs, n, h⟩ := h
  obtain ⟨hpos, hle, hchars⟩ := h.bounds
  rw [hchars]
  exact List.ne_nil_of_length_pos (by rw [List.length_take_of_le hle]; exact hpos)

theorem Found.word_chars {k : WordClass} {s : String} (h : Found (.word k s))
    (hk : isQuoted (.word k s) = false) : ∀ c ∈ chars (.word k s), isIdentChar c ∨ c = '.' := by
  obtain ⟨cs, n, h⟩ := h
  obtain ⟨-, hle, hchars⟩ := h.bounds
  obtain ⟨ws, ds, rfl, rfl⟩ := split_of_le hle
  rw [hchars, List.take_left]
  have hlength := h.1
  have hdigit {c : Char} (hc : isDigit c) : isIdentChar c := by simp [isIdentChar, isNameChar, hc]
  intro c hc
  cases k with
  | ident => exact .inl ((ident_chars hlength).1 c hc)
  | typeVar =>
    obtain ⟨vs, rfl, hvs⟩ := typeVar_chars hlength
    rcases List.mem_cons.mp hc with rfl | hc
    · exact .inl rfl
    · exact .inl (by simp [isIdentChar, hvs c hc])
  | float => exact (float_chars hlength c hc).imp_left hdigit
  | integer => exact .inl (hdigit (integer_chars hlength c hc))
  | string => cases hk
  | char => cases hk

theorem Found.quoted_last (h : l.Found) (hl : l.isQuoted = true) :
    ∃ c ∈ l.chars.getLast?, c = '"' ∨ c = '\'' := by
  obtain ⟨cs, n, h⟩ := h
  rw [h.bounds.2.2]
  cases l with
  | fixed => cases hl
  | word k s =>
    cases k with
    | string => exact ⟨_, stringLength_last h.1, .inl rfl⟩
    | char => exact ⟨_, charLength_last h.1, .inr rfl⟩
    | _ => cases hl

/-- White space stands in literals between quotes only. -/
theorem Found.not_blank (h : l.Found) (hl : l.isQuoted = false) :
    ∀ c ∈ l.chars, isBlank c = false := by
  cases l with
  | fixed f =>
    intro c hc
    have hall : f.text.toList.all fun c => !isBlank c := by cases f <;> decide
    simpa using List.all_eq_true.mp hall c hc
  | word k s =>
    intro c hc
    exact MiniML.not_blank (p := fun c => isIdentChar c || c == '.') (by decide)
      (by simpa using h.word_chars hl c hc)

theorem Found.last_not_blank (h : l.Found) : ∃ c ∈ l.chars.getLast?, isBlank c = false := by
  cases hl : l.isQuoted with
  | true =>
    obtain ⟨c, hc, rfl | rfl⟩ := h.quoted_last hl
    · exact ⟨_, hc, by decide⟩
    · exact ⟨_, hc, by decide⟩
  | false =>
    have hlast := List.getLast?_eq_some_getLast h.ne_nil
    exact ⟨_, hlast, h.not_blank hl _ (List.mem_of_getLast? hlast)⟩

/-! ## Keywords -/

theorem longest_first {xs ys : List (Lexeme × Nat)} {d : Lexeme × Nat}
    (h : longest (xs ++ ys) = some d) (hd : d ∉ xs) : ∀ e ∈ xs, e.2 < d.2 := by
  induction xs with
  | nil => exact nofun
  | cons x xs ih =>
    rw [List.cons_append, longest] at h
    have hx : d ≠ x := fun hx => hd (hx ▸ List.mem_cons_self)
    split at h
    next => exact absurd (Option.some.inj h).symm hx
    next e he =>
      split at h
      next hlt =>
        cases h
        exact List.forall_mem_cons.mpr ⟨hlt, ih he fun hmem => hd (List.mem_cons_of_mem _ hmem)⟩
      next => exact absurd (Option.some.inj h).symm hx

/-- A keyword is taken before a word of the same length. -/
theorem keyword_lt_word {k : WordClass} {s : String} {f : Fixed} {m : Nat}
    (h : next? cs = some (.word k s, n)) (hf : f ∈ Fixed.keywords)
    (hm : fixedLength? f cs = some m) : m < n := by
  unfold next? candidates at h
  rw [List.append_assoc] at h
  refine longest_first h ?_ (.fixed f, m) (List.mem_filterMap.mpr ⟨f, hf, by rw [hm]; rfl⟩)
  intro hmem
  obtain ⟨g, -, hg⟩ := List.mem_filterMap.mp hmem
  obtain ⟨_, -, heq⟩ := Option.map_eq_some_iff.mp hg
  cases heq

end Lexeme

/-! ## Segments -/

namespace Segment

/-- A segment as it is found in some text. -/
def Found : Segment → Prop
  | gap c => Token.isSpace c
  | lexeme l => l.Found

variable {s : Segment} {l : Lexeme} {ss : List Segment} {cs ds : List Char}

theorem textOf_append (ss rs : List Segment) : textOf (ss ++ rs) = textOf ss ++ textOf rs :=
  List.flatMap_append

theorem Found.ne_nil (h : s.Found) : s.chars ≠ [] := by
  cases s with
  | gap c => exact List.cons_ne_nil _ _
  | lexeme l => exact Lexeme.Found.ne_nil h

/-- A place in a text is between two segments, or in a lexeme. -/
theorem split_textOf (h : textOf ss = cs ++ ds) :
    (∃ qs rs, ss = qs ++ rs ∧ textOf qs = cs ∧ textOf rs = ds) ∨
      ∃ qs l rs ws vs, ss = qs ++ .lexeme l :: rs ∧ l.chars = ws ++ vs ∧ ws ≠ [] ∧ vs ≠ [] ∧
        cs = textOf qs ++ ws ∧ ds = vs ++ textOf rs := by
  induction ss generalizing cs with
  | nil =>
    obtain ⟨rfl, rfl⟩ := List.append_eq_nil_iff.mp h.symm
    exact .inl ⟨[], [], rfl, rfl, rfl⟩
  | cons s ss ih =>
    have h : s.chars ++ textOf ss = cs ++ ds := h
    rcases List.append_eq_append_iff.mp h with ⟨ws, rfl, hrest⟩ | ⟨ws, hs, rfl⟩
    · rcases ih hrest with ⟨qs, rs, rfl, rfl, hrs⟩ |
        ⟨qs, l, rs, us, vs, rfl, hl, hus, hvs, rfl, hds⟩
      · exact .inl ⟨s :: qs, rs, rfl, rfl, hrs⟩
      · exact .inr ⟨s :: qs, l, rs, us, vs, rfl, hl, hus, hvs, (List.append_assoc _ _ _).symm, hds⟩
    · by_cases hcs : cs = []
      · subst hcs
        exact .inl ⟨[], s :: ss, rfl, rfl, h⟩
      by_cases hws : ws = []
      · subst hws
        rw [List.append_nil] at hs
        exact .inl ⟨[s], ss, rfl, (List.append_nil _).trans hs, rfl⟩
      cases s with
      | gap c =>
        have hlength := congrArg List.length hs
        have := List.length_pos_of_ne_nil hcs
        have := List.length_pos_of_ne_nil hws
        simp only [chars, List.length_append, List.length_singleton] at hlength
        omega
      | lexeme l => exact .inr ⟨[], l, ss, cs, ws, rfl, hs, hcs, hws, rfl, rfl⟩

end Segment

namespace Token
open Segment

variable {cs : List Char} {ss qs rs : List Segment} {l : Lexeme}

theorem Cut.found (h : Cut cs ss) : ∀ s ∈ ss, s.Found := by
  induction h with
  | nil => exact nofun
  | gap hc _ ih => exact List.forall_mem_cons.mpr ⟨hc, ih⟩
  | lexeme _ hl _ ih =>
    exact List.forall_mem_cons.mpr ⟨⟨_, _, (Lexeme.next_spec hl).1⟩, ih⟩

/-- A text without the white space behind it ends with its last lexeme. -/
theorem trimEnd_textOf (h : ∀ s ∈ ss, s.Found) :
    ∃ ps rs, ss = ps ++ rs ∧ trimEnd (textOf ss) = textOf ps ∧ lexemes ps = lexemes ss ∧
      (ps = [] ∨ ∃ qs l, ps = qs ++ [.lexeme l]) := by
  induction ss using List.reverseRecOn with
  | nil => exact ⟨[], [], rfl, rfl, rfl, .inl rfl⟩
  | append_singleton ss s ih =>
    have hs := h s (by simp)
    cases s with
    | gap c =>
      have htext : trimEnd (textOf (ss ++ [.gap c])) = trimEnd (textOf ss) := by
        rw [textOf_append]
        exact trimEnd_append_blank (blank_of_space hs) _
      obtain ⟨ps, rs, rfl, hps, hlexemes, hlast⟩ := ih fun s hs => h s (List.mem_append_left _ hs)
      have hgap : lexemes (ps ++ rs ++ [.gap c]) = lexemes (ps ++ rs) := by simp [lexemes]
      exact ⟨ps, rs ++ [.gap c], List.append_assoc _ _ _, htext.trans hps, hlexemes.trans hgap.symm,
        hlast⟩
    | lexeme l =>
      refine ⟨ss ++ [.lexeme l], [], (List.append_nil _).symm, trimEnd_eq_self ?_, rfl,
        .inr ⟨ss, l, rfl⟩⟩
      obtain ⟨c, hc, hblank⟩ := Lexeme.Found.last_not_blank hs
      refine ⟨c, ?_, hblank⟩
      rw [textOf_append, List.getLast?_append]
      simp [textOf, chars, Option.mem_def.mp hc]

/-- If the last word of a text is a keyword, it is the last lexeme. -/
theorem Cut.eq_keyword {f : Fixed} (h : Cut cs (qs ++ [.lexeme l] ++ rs)) (hf : f ∈ Fixed.keywords)
    (hword : lastWord (textOf (qs ++ [.lexeme l])) = f.text.toList) : l = .fixed f := by
  obtain ⟨ds, hds, hblank⟩ := exists_lastWord (textOf (qs ++ [.lexeme l]))
  rw [hword] at hds
  have hfound : ∀ s ∈ qs ++ [.lexeme l], s.Found := fun s hs =>
    h.found s (List.mem_append_left rs hs)
  have hkeyword := Fixed.keyword_chars hf
  rcases split_textOf hds with ⟨ps, us, hps, rfl, hus⟩ |
    ⟨ps, k, us, ws, vs, hps, hk, hws, hvs, rfl, hus⟩
  · -- the word is made of lexemes, and the first of them is the keyword
    rw [hps] at h hfound
    rw [List.append_assoc] at h
    cases us with
    | nil => exact absurd hus.symm (Fixed.text_ne_nil f)
    | cons s us =>
      have hs := hfound s (by simp)
      cases s with
      | gap c =>
        have hc := hkeyword c (hus ▸ List.mem_cons_self)
        rw [blank_of_space hs] at hc
        exact absurd hc.1 nofun
      | lexeme k =>
        obtain ⟨es, c, vs, hes, -, -, hnext, -⟩ := h.rest.of_lexeme
        have htext : k.chars ++ es = f.text.toList ++ textOf rs := by
          rw [← hes, ← hus, ← textOf_append, List.cons_append]
        have hstarts := Lexeme.starts_fixed f (textOf rs)
        rw [← htext] at hstarts
        have hle := (Lexeme.next_spec hnext).2 _ _ hstarts
        have hchars : k.chars ++ textOf us = f.text.toList := hus
        have hnil : textOf us = [] := by
          rw [← hchars, List.length_append] at hle
          exact List.eq_nil_of_length_eq_zero (by omega)
        rw [hnil, List.append_nil] at hchars
        obtain rfl : us = [] := by
          cases us with
          | nil => rfl
          | cons u us =>
            exact absurd (List.append_eq_nil_iff.mp hnil).1 (hfound u (by simp)).ne_nil
        obtain ⟨-, hlast⟩ := List.append_inj' hps rfl
        obtain rfl := Segment.lexeme.inj (List.cons.inj hlast).1
        cases l with
        | fixed g => exact congrArg _ (Fixed.text_injective (String.toList_inj.mp hchars))
        | word k s =>
          have hlt := Lexeme.keyword_lt_word hnext hf hstarts
          rw [hchars] at hlt
          exact absurd hlt (Nat.lt_irrefl _)
  · -- the word begins in a lexeme with white space, which ends in a quote
    have hk' : k.Found := hfound (.lexeme k) (by rw [hps]; simp)
    obtain ⟨c, hc⟩ : ∃ c, c ∈ ws.getLast? := ⟨_, List.getLast?_eq_some_getLast hws⟩
    have hquoted : k.isQuoted = true := by
      by_contra hnot
      have hfalse := hk'.not_blank (Bool.eq_false_iff.mpr hnot) c
        (hk ▸ List.mem_append_left _ (List.mem_of_getLast? hc))
      rw [hblank c (by rw [List.getLast?_append, Option.mem_def.mp hc]; rfl)] at hfalse
      cases hfalse
    obtain ⟨q, hq, hquote⟩ := hk'.quoted_last hquoted
    have hmem : q ∈ f.text.toList := by
      obtain ⟨v, hv⟩ : ∃ v, v ∈ vs.getLast? := ⟨_, List.getLast?_eq_some_getLast hvs⟩
      rw [hk, List.getLast?_append, Option.mem_def.mp hv] at hq
      obtain rfl := Option.some.inj hq
      exact hus ▸ List.mem_append_left _ (List.mem_of_getLast? hv)
    obtain ⟨-, hdouble, hsingle⟩ := hkeyword q hmem
    exact (hquote.elim hdouble hsingle).elim

/-! ## Parentheses -/

/-- The characters of the literals among lexemes. -/
def quotedChars (ls : List Lexeme) : List Char := (ls.filter Lexeme.isQuoted).flatMap Lexeme.chars

/-- The parentheses, as characters and as lexemes. -/
def IsParen (f : Fixed) (c : Char) : Prop := f = .lparen ∧ c = '(' ∨ f = .rparen ∧ c = ')'

theorem count_chars {f : Fixed} {c : Char} (hf : IsParen f c) (hl : l.Found) :
    l.chars.count c = (if l = .fixed f then 1 else 0) + (quotedChars [l]).count c := by
  cases hquoted : l.isQuoted with
  | true =>
    have hne : l ≠ .fixed f := by
      rintro rfl
      cases hquoted
    simp [quotedChars, hquoted, hne]
  | false =>
    have hnil : quotedChars [l] = [] := by simp [quotedChars, hquoted]
    rw [hnil, List.count_nil, Nat.add_zero]
    cases l with
    | fixed g => rcases hf with ⟨rfl, rfl⟩ | ⟨rfl, rfl⟩ <;> cases g <;> rfl
    | word k s =>
      rw [if_neg nofun]
      refine List.count_eq_zero.mpr fun hmem => ?_
      rcases hf with ⟨-, rfl⟩ | ⟨-, rfl⟩ <;> rcases hl.word_chars hquoted _ hmem with hc | hc <;>
        revert hc <;> decide

/-- Parentheses are lexemes, or stand in literals. -/
theorem count_textOf {f : Fixed} {c : Char} (hf : IsParen f c) (h : ∀ s ∈ ss, s.Found) :
    (textOf ss).count c =
      (lexemes ss).count (.fixed f) + (quotedChars (lexemes ss)).count c := by
  induction ss with
  | nil => rfl
  | cons s ss ih =>
    obtain ⟨hs, hss⟩ := List.forall_mem_cons.mp h
    have htext : textOf (s :: ss) = s.chars ++ textOf ss := rfl
    rw [htext, List.count_append, ih hss]
    cases s with
    | gap d =>
      have hd : d ≠ c := by
        rintro rfl
        rcases hf with ⟨-, rfl⟩ | ⟨-, rfl⟩ <;> cases hs
      have hlexemes : lexemes (.gap d :: ss) = lexemes ss := rfl
      rw [hlexemes, chars, List.count_eq_zero.mpr (by simp [hd.symm]), Nat.zero_add]
    | lexeme l =>
      have hlexemes : lexemes (.lexeme l :: ss) = l :: lexemes ss := rfl
      have hquoted :
          quotedChars (l :: lexemes ss) = quotedChars [l] ++ quotedChars (lexemes ss) := by
        unfold quotedChars
        rw [← List.flatMap_append, ← List.filter_append]
        rfl
      rw [hlexemes, hquoted, List.count_append, List.count_cons, chars, count_chars hf hs]
      simp only [beq_iff_eq]
      omega

end Token
end MiniML
