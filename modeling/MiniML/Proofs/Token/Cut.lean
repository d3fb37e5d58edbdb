import MiniML.Token.Lexer
import MiniML.Proofs.Source.Place

/-!
# How a text is cut into tokens

A text that has tokens is cut into segments: lexemes, each the longest one that
starts where it stands, and characters that separate them (`Token.Cut`). The tokens
are the lexemes of the cut, placed from its beginning on (`Token.cut_of_lex`). The
place moves on by bytes along a lexeme, and to the next line at a line break between
two lexemes.
-/
namespace MiniML

/-! ## The longest lexeme -/

namespace Lexeme

/-- The characters of a lexeme. -/
def chars (l : Lexeme) : List Char := l.text.toList

variable {cs : List Char} {l : Lexeme} {n : Nat}

theorem longest_eq_none {ls : List (Lexeme × Nat)} : longest ls = none ↔ ls = [] := by
  cases ls with
  | nil => exact iff_of_true rfl rfl
  | cons c ls =>
    refine iff_of_false (fun h => ?_) (List.cons_ne_nil _ _)
    unfold longest at h
    split at h
    · cases h
    · split at h <;> cases h

theorem longest_mem {ls : List (Lexeme × Nat)} {d : Lexeme × Nat} (h : longest ls = some d) :
    d ∈ ls ∧ ∀ e ∈ ls, e.2 ≤ d.2 := by
  induction ls generalizing d with
  | nil => cases h
  | cons c ls ih =>
    unfold longest at h
    cases hls : longest ls with
    | none =>
      rw [hls] at h
      cases h
      rw [longest_eq_none.mp hls]
      exact ⟨List.mem_cons_self, fun e he => Nat.le_of_eq (by rw [List.mem_singleton.mp he])⟩
    | some f =>
      rw [hls] at h
      obtain ⟨hmem, hle⟩ := ih hls
      dsimp only at h
      split at h
      next hlt =>
        cases h
        exact ⟨List.mem_cons_of_mem _ hmem,
          List.forall_mem_cons.mpr ⟨Nat.le_of_lt hlt, hle⟩⟩
      next hge =>
        cases h
        exact ⟨List.mem_cons_self, List.forall_mem_cons.mpr ⟨Nat.le_refl _, fun e he =>
          Nat.le_trans (hle e he) (Nat.le_of_not_lt hge)⟩⟩

/-- The first `n` characters of a text are such a lexeme. -/
def Starts (cs : List Char) : Lexeme → Nat → Prop
  | .fixed f, n => fixedLength? f cs = some n
  | .word c s, n => wordLength? c cs = some n ∧ s = String.ofList (cs.take n)

theorem mem_candidates_iff : (l, n) ∈ candidates cs ↔ Starts cs l n := by
  have hclass (c : WordClass) :
      c ∈ [WordClass.ident, .typeVar, .float, .integer, .string, .char] := by
    cases c <;> decide
  unfold candidates
  cases l with
  | fixed f =>
    have hfixed := Fixed.mem_keywords_or_symbols f
    simp only [List.mem_append, List.mem_filterMap, Option.map_eq_some_iff, Prod.mk.injEq,
      Lexeme.fixed.injEq, reduceCtorEq, false_and, and_false, exists_false, or_false, Starts]
    constructor
    · rintro (⟨g, -, n, hn, rfl, rfl⟩ | ⟨g, -, n, hn, rfl, rfl⟩) <;> exact hn
    · exact fun h =>
        hfixed.imp (fun hf => ⟨f, hf, n, h, rfl, rfl⟩) fun hf => ⟨f, hf, n, h, rfl, rfl⟩
  | word c s =>
    simp only [List.mem_append, List.mem_filterMap, Option.map_eq_some_iff, Prod.mk.injEq,
      Lexeme.word.injEq, reduceCtorEq, false_and, and_false, exists_false, or_false, false_or,
      Starts]
    constructor
    · rintro ⟨d, -, n, hn, ⟨rfl, rfl⟩, rfl⟩
      exact ⟨hn, rfl⟩
    · rintro ⟨hn, rfl⟩
      exact ⟨c, hclass c, n, hn, ⟨rfl, rfl⟩, rfl⟩

theorem split_of_le (h : n ≤ cs.length) : ∃ ws ds, cs = ws ++ ds ∧ ws.length = n :=
  ⟨cs.take n, cs.drop n, (List.take_append_drop n cs).symm, List.length_take_of_le h⟩

theorem run_le (p : Char → Bool) (cs : List Char) : run p cs ≤ cs.length := by
  unfold run
  exact (List.takeWhile_prefix p).length_le

theorem stringRest_le (h : stringRest? cs = some n) : 0 < n ∧ n ≤ cs.length := by
  fun_induction stringRest? cs generalizing n with
  | case1 =>
    cases h
    exact ⟨Nat.one_pos, Nat.le_add_left _ _⟩
  | case2 => cases h
  | case3 c cs _ ih =>
    obtain ⟨m, hm, rfl⟩ := Option.map_eq_some_iff.mp h
    have := ih hm
    simp only [List.length_cons]
    omega
  | case4 => cases h
  | case5 c cs _ _ _ ih =>
    obtain ⟨m, hm, rfl⟩ := Option.map_eq_some_iff.mp h
    have := ih hm
    simp only [List.length_cons]
    omega
  | case6 => cases h

theorem identLength_le (h : identLength? cs = some n) : 0 < n ∧ n ≤ cs.length := by
  cases cs with
  | nil => cases h
  | cons c cs =>
    have hrun := run_le isIdentChar cs
    simp only [identLength?] at h
    rw [List.length_cons]
    split at h
    · cases h
      omega
    · split at h
      · cases h
        omega
      · cases h

theorem typeVarLength_le (h : typeVarLength? cs = some n) : 0 < n ∧ n ≤ cs.length := by
  unfold typeVarLength? at h
  split at h
  next c cs =>
    have hrun := run_le isNameChar cs
    split at h
    · cases h
      simp only [List.length_cons]
      omega
    · cases h
  · cases h

theorem floatLength_le (h : floatLength? cs = some n) : 0 < n ∧ n ≤ cs.length := by
  have hrun := run_le isDigit cs
  have hdrop : (cs.drop (run isDigit cs)).length = cs.length - run isDigit cs := List.length_drop
  unfold floatLength? at h
  split at h
  next m ds hm hds =>
    have hrun' := run_le isDigit ds
    rw [hds, List.length_cons] at hdrop
    split at h
    · cases h
      omega
    · cases h
  · cases h

theorem charLength_le (h : charLength? cs = some n) : 0 < n ∧ n ≤ cs.length := by
  unfold charLength? at h
  split at h
  · split at h
    · cases h
    · cases h
      simp only [List.length_cons]
      omega
  · split at h
    · cases h
    · cases h
      simp only [List.length_cons]
      omega
  · cases h

theorem wordLength_le {c : WordClass} (h : wordLength? c cs = some n) : 0 < n ∧ n ≤ cs.length := by
  cases c with
  | ident => exact identLength_le h
  | typeVar => exact typeVarLength_le h
  | float => exact floatLength_le h
  | integer =>
    change (if 0 < run isDigit cs then some (run isDigit cs) else none) = some n at h
    split at h
    · cases h
      exact ⟨by assumption, run_le _ _⟩
    · cases h
  | string =>
    change stringLength? cs = some n at h
    unfold stringLength? at h
    split at h
    next cs =>
      obtain ⟨m, hm, rfl⟩ := Option.map_eq_some_iff.mp h
      exact ⟨Nat.succ_pos _, Nat.succ_le_succ (stringRest_le hm).2⟩
    · cases h
  | char => exact charLength_le h

theorem Starts.bounds (h : Starts cs l n) : 0 < n ∧ n ≤ cs.length ∧ l.chars = cs.take n := by
  cases l with
  | fixed f =>
    change (if f.text.toList.isPrefixOf cs then some f.text.toList.length else none) = some n at h
    split at h
    next hf =>
      obtain ⟨rest, rfl⟩ := List.isPrefixOf_iff_prefix.mp hf
      cases h
      refine ⟨?_, ?_, ?_⟩
      · cases f <;> decide
      · rw [List.length_append]
        exact Nat.le_add_right _ _
      · rw [List.take_left]
        rfl
    · cases h
  | word c s =>
    obtain ⟨h, rfl⟩ := h
    obtain ⟨hpos, hle⟩ := wordLength_le h
    exact ⟨hpos, hle, String.toList_ofList⟩

/-! ## The characters of words -/

section Characters

variable {ws ds : List Char}

/-- A run of characters that ends between two parts of a text is the first part. -/
theorem run_append_eq {p : Char → Bool} (h : run p (ws ++ ds) = ws.length) :
    (∀ c ∈ ws, p c) ∧ ∀ c ∈ ds.head?, p c = false := by
  induction ws with
  | nil =>
    refine ⟨nofun, fun c hc => Bool.eq_false_iff.mpr fun hp => ?_⟩
    obtain ⟨es, rfl⟩ := List.head?_eq_some_iff.mp hc
    rw [List.nil_append, run, List.takeWhile_cons_of_pos hp] at h
    cases h
  | cons w ws ih =>
    by_cases hp : p w
    · rw [List.cons_append, run, List.takeWhile_cons_of_pos hp] at h
      obtain ⟨hws, hcs⟩ := ih (Nat.succ.inj h)
      exact ⟨List.forall_mem_cons.mpr ⟨hp, hws⟩, hcs⟩
    · rw [List.cons_append, run, List.takeWhile_cons_of_neg hp] at h
      cases h

theorem drop_run (p : Char → Bool) (cs : List Char) : cs.drop (run p cs) = cs.dropWhile p := by
  have h : (cs.takeWhile p ++ cs.dropWhile p).drop (cs.takeWhile p).length = cs.dropWhile p :=
    List.drop_left
  rwa [List.takeWhile_append_dropWhile] at h

theorem ident_chars (h : identLength? (ws ++ ds) = some ws.length) :
    (∀ c ∈ ws, isIdentChar c) ∧ ∀ c ∈ ds.head?, isIdentChar c = false := by
  have hpos := (identLength_le h).1
  rcases ws with _ | ⟨w, ws⟩
  · cases hpos
  have hrun : isIdentChar w ∧ run isIdentChar (ws ++ ds) = ws.length := by
    rw [List.cons_append] at h
    simp only [identLength?, List.length_cons] at h
    split at h
    next hletter =>
      simp only [isIdentChar, isNameChar, hletter, Bool.true_or, true_and]
      have := Option.some.inj h
      omega
    next =>
      split at h
      next hunderscore =>
        rw [hunderscore.1]
        refine ⟨by decide, ?_⟩
        have := Option.some.inj h
        omega
      · cases h
  obtain ⟨hws, hds⟩ := run_append_eq hrun.2
  exact ⟨List.forall_mem_cons.mpr ⟨hrun.1, hws⟩, hds⟩

theorem letter_of_small {c : Char} (h : isSmall c) : isLetter c := by
  show (c.isUpper || c.isLower) = true
  rw [show c.isLower = true from h, Bool.or_true]

theorem typeVar_chars (h : typeVarLength? (ws ++ ds) = some ws.length) :
    ∃ vs, ws = '\'' :: vs ∧ ∀ c ∈ vs, isNameChar c := by
  unfold typeVarLength? at h
  split at h
  next c cs heq =>
    split at h
    next hsmall =>
      have hlength : 2 + run isNameChar cs = ws.length := Option.some.inj h
      rcases ws with _ | ⟨w, _ | ⟨v, ws⟩⟩
      · simp at hlength
      · simp at hlength
        omega
      obtain ⟨rfl, htail⟩ := List.cons.inj heq
      obtain ⟨rfl, rfl⟩ := List.cons.inj htail
      have hname : isNameChar v := by
        simp only [isNameChar, letter_of_small hsmall, Bool.true_or]
      have hrun : run isNameChar (ws ++ ds) = ws.length := by
        change 2 + run isNameChar (ws ++ ds) = _ at hlength
        simp only [List.length_cons] at hlength
        omega
      exact ⟨v :: ws, rfl, (List.forall_mem_cons (p := fun c => isNameChar c)).mpr
        ⟨hname, (run_append_eq hrun).1⟩⟩
    · cases h
  · cases h

theorem integer_chars (h : integerLength? (ws ++ ds) = some ws.length) : ∀ c ∈ ws, isDigit c := by
  unfold integerLength? at h
  split at h
  · exact (run_append_eq (Option.some.inj h)).1
  · cases h

theorem float_chars (h : floatLength? (ws ++ ds) = some ws.length) :
    ∀ c ∈ ws, isDigit c ∨ c = '.' := by
  unfold floatLength? at h
  split at h
  next m es hm hes =>
    split at h
    next =>
      have hdigits : ws ++ ds = ((ws ++ ds).takeWhile isDigit ++ '.' :: es.takeWhile isDigit) ++
          es.dropWhile isDigit := by
        have hdrop : (ws ++ ds).dropWhile isDigit = '.' :: es := by
          rw [← drop_run, hes]
        rw [List.append_assoc, List.cons_append, List.takeWhile_append_dropWhile, ← hdrop,
          List.takeWhile_append_dropWhile]
      have hws := (List.append_inj hdigits (by
        have := Option.some.inj h
        unfold run at hm this
        simp only [List.length_append, List.length_cons]
        omega)).1
      intro c hc
      rw [hws, List.mem_append, List.mem_cons] at hc
      rcases hc with hc | hc | hc
      · exact .inl (List.all_eq_true.mp List.all_takeWhile c hc)
      · exact .inr hc
      · exact .inl (List.all_eq_true.mp List.all_takeWhile c hc)
    · cases h
  · cases h

end Characters

/-- A word begins with a character of a word or with a quote. -/
theorem wordLength_head {k : WordClass} {c : Char} (h : wordLength? k (c :: cs) = some n) :
    isIdentChar c ∨ c = '"' := by
  have hdigits (ds : List Char) (hrun : 0 < run isDigit (c :: ds)) : isIdentChar c := by
    by_cases hc : isDigit c
    · simp only [isIdentChar, isNameChar, hc, Bool.or_true, Bool.true_or]
    · rw [run, List.takeWhile_cons_of_neg hc] at hrun
      cases hrun
  cases k with
  | ident =>
    simp only [wordLength?, identLength?] at h
    split at h
    next hc => exact .inl (by simp only [isIdentChar, isNameChar, hc, Bool.true_or])
    next =>
      split at h
      next hc => exact .inl (by rw [hc.1]; decide)
      · cases h
  | typeVar =>
    simp only [wordLength?] at h
    unfold typeVarLength? at h
    split at h
    next heq => exact .inl (by rw [(List.cons.inj heq).1]; decide)
    · cases h
  | float =>
    simp only [wordLength?] at h
    unfold floatLength? at h
    split at h
    next hrun _ => exact .inl (hdigits cs (by rw [hrun]; exact Nat.succ_pos _))
    · cases h
  | integer =>
    simp only [wordLength?, integerLength?] at h
    split at h
    next hrun => exact .inl (hdigits cs hrun)
    · cases h
  | string =>
    simp only [wordLength?] at h
    unfold stringLength? at h
    split at h
    next heq => exact .inr (List.cons.inj heq).1
    · cases h
  | char =>
    simp only [wordLength?] at h
    unfold charLength? at h
    split at h
    next heq => exact .inl (by rw [(List.cons.inj heq).1]; decide)
    next heq => exact .inl (by rw [(List.cons.inj heq).1]; decide)
    · cases h

/-- The next lexeme starts the text, and none that starts it is longer. -/
theorem next_spec (h : next? cs = some (l, n)) :
    Starts cs l n ∧ ∀ l' n', Starts cs l' n' → n' ≤ n := by
  obtain ⟨hmem, hle⟩ := longest_mem h
  exact ⟨mem_candidates_iff.mp hmem, fun l' n' h' => hle (l', n') (mem_candidates_iff.mpr h')⟩

end Lexeme

/-! ## Segments -/

/-- A part of a text that has tokens: a character between lexemes, or a lexeme. -/
inductive Segment
  | gap (c : Char)
  | lexeme (l : Lexeme)

/-- The characters of a segment. -/
def Segment.chars : Segment → List Char
  | .gap c => [c]
  | .lexeme l => l.chars

/-- The text of segments in a row. -/
def Segment.textOf (ss : List Segment) : List Char := ss.flatMap chars

namespace Token

/-- The segments that a text is cut into. -/
inductive Cut : List Char → List Segment → Prop
  | nil : Cut [] []
  | gap {c : Char} {cs : List Char} {ss : List Segment} (hc : isSpace c) (h : Cut cs ss) :
    Cut (c :: cs) (.gap c :: ss)
  | lexeme {l : Lexeme} {cs : List Char} {ss : List Segment}
    (hc : ∀ c ∈ l.chars.head?, isSpace c = false)
    (hl : Lexeme.next? (l.chars ++ cs) = some (l, l.chars.length)) (h : Cut cs ss) :
    Cut (l.chars ++ cs) (.lexeme l :: ss)

/-- No lexeme is taken for a gap, in a form that can be evaluated. -/
theorem head_not_space {l : Lexeme} (h : l.chars.head?.all fun c => !isSpace c) :
    ∀ c ∈ l.chars.head?, isSpace c = false := by
  intro c hc
  rw [show l.chars.head? = some c from hc] at h
  simpa using h

/-- The tokens of segments from a place of their source on. -/
def placed (source : String) : Loc → List Segment → List Token
  | _, [] => []
  | loc, .gap c :: ss => placed source (loc.past c) ss
  | loc, .lexeme l :: ss =>
    ⟨l, ⟨loc, loc.along l.chars, source⟩⟩ :: placed source (loc.along l.chars) ss

/-- The place behind segments. -/
def behind : Loc → List Segment → Loc
  | loc, [] => loc
  | loc, .gap c :: ss => behind (loc.past c) ss
  | loc, .lexeme l :: ss => behind (loc.along l.chars) ss

variable {cs : List Char} {qs rs ss : List Segment}

theorem placed_append (source : String) (loc : Loc) (qs rs : List Segment) :
    placed source loc (qs ++ rs) = placed source loc qs ++ placed source (behind loc qs) rs := by
  fun_induction behind loc qs with
  | case1 => rfl
  | case2 loc c qs ih => exact ih
  | case3 loc l qs ih => exact congrArg (_ :: ·) ih

theorem behind_append (loc : Loc) (qs rs : List Segment) :
    behind loc (qs ++ rs) = behind (behind loc qs) rs := by
  fun_induction behind loc qs with
  | case1 => rfl
  | case2 loc c qs ih => exact ih
  | case3 loc l qs ih => exact ih

/-- A token stands behind the segments in front of it. -/
theorem placed_eq_append {source : String} {loc : Loc} {ts us : List Token} {t : Token}
    (h : placed source loc ss = ts ++ t :: us) :
    ∃ qs l rs, ss = qs ++ .lexeme l :: rs ∧ placed source loc qs = ts ∧
      t = ⟨l, ⟨behind loc qs, (behind loc qs).along l.chars, source⟩⟩ ∧
      placed source ((behind loc qs).along l.chars) rs = us := by
  induction ss generalizing loc ts with
  | nil => simp [placed] at h
  | cons s ss ih =>
    cases s with
    | gap c =>
      obtain ⟨qs, l, rs, rfl, hqs, ht⟩ := ih h
      exact ⟨.gap c :: qs, l, rs, rfl, hqs, ht⟩
    | lexeme l =>
      rcases ts with _ | ⟨u, ts⟩
      · obtain ⟨rfl, htail⟩ := List.cons.inj h
        exact ⟨[], l, ss, rfl, rfl, rfl, htail⟩
      · obtain ⟨rfl, htail⟩ := List.cons.inj h
        obtain ⟨qs, l', rs, rfl, hqs, ht⟩ := ih htail
        exact ⟨.lexeme l :: qs, l', rs, rfl, congrArg (_ :: ·) hqs, ht⟩

theorem Cut.text (h : Cut cs ss) : Segment.textOf ss = cs := by
  induction h with
  | nil => rfl
  | gap _ _ ih => exact congrArg _ ih
  | lexeme _ _ _ ih => exact congrArg _ ih

theorem Cut.of_nil (h : Cut cs []) : cs = [] := by
  cases h
  rfl

theorem Cut.of_gap {c : Char} (h : Cut cs (.gap c :: ss)) :
    ∃ ds, cs = c :: ds ∧ isSpace c ∧ Cut ds ss := by
  cases h with
  | gap hc h => exact ⟨_, rfl, hc, h⟩

theorem Cut.of_lexeme {l : Lexeme} (h : Cut cs (.lexeme l :: ss)) :
    ∃ ds c ws, cs = l.chars ++ ds ∧ l.chars = c :: ws ∧ isSpace c = false ∧
      Lexeme.next? (l.chars ++ ds) = some (l, l.chars.length) ∧ Cut ds ss := by
  cases h with
  | lexeme hc hl h =>
    cases hchars : l.chars with
    | nil =>
      have hpos := (Lexeme.next_spec hl).1.bounds.1
      rw [hchars] at hpos
      cases hpos
    | cons c ws =>
      rw [hchars] at hc hl
      exact ⟨_, c, ws, rfl, rfl, hc c rfl, hl, h⟩

theorem Cut.rest (h : Cut cs (qs ++ rs)) : Cut (Segment.textOf rs) rs := by
  induction qs generalizing cs with
  | nil =>
    have htext : Segment.textOf rs = cs := h.text
    rwa [htext]
  | cons q qs ih =>
    cases q with
    | gap c =>
      obtain ⟨ds, -, -, hds⟩ := h.of_gap
      exact ih hds
    | lexeme l =>
      obtain ⟨ds, c, ws, -, -, -, -, hds⟩ := h.of_lexeme
      exact ih hds

theorem size_of_space {c : Char} (h : isSpace c) : c.utf8Size = 1 := by
  simp only [isSpace, Bool.or_eq_true, beq_iff_eq] at h
  rcases h with (((rfl | rfl) | rfl) | rfl) | rfl <;> rfl

/-- The place behind segments is that behind their text, if no lexeme among them is broken
over lines. -/
theorem Cut.behind_eq {ws : List Char} {source : String} (h : Cut cs (qs ++ rs))
    (hline : ∀ t ∈ placed source (.after ws) qs, '\n' ∉ t.lexeme.chars) :
    behind (.after ws) qs = .after (ws ++ Segment.textOf qs) := by
  induction qs generalizing cs ws with
  | nil => exact congrArg _ (List.append_nil ws).symm
  | cons q qs ih =>
    cases q with
    | gap c =>
      obtain ⟨ds, rfl, hc, hds⟩ := h.of_gap
      have hws := (Loc.after_concat (size_of_space hc) ws).symm
      change ∀ t ∈ placed source ((Loc.after ws).past c) qs, _ at hline
      rw [hws] at hline
      show behind ((Loc.after ws).past c) qs = _
      rw [hws, ih hds hline, List.append_assoc]
      rfl
    | lexeme l =>
      obtain ⟨ds, _, _, rfl, -, -, -, hds⟩ := h.of_lexeme
      obtain ⟨hl, hline⟩ := List.forall_mem_cons.mp hline
      have hws := (Loc.after_append hl ws).symm
      rw [hws] at hline
      show behind ((Loc.after ws).along l.chars) qs = _
      rw [hws, ih hds hline, List.append_assoc]
      rfl

/-- The place behind segments from the start of a text. -/
theorem Cut.behind_start {source : String} (h : Cut cs (qs ++ rs))
    (hline : ∀ t ∈ placed source {} qs, '\n' ∉ t.lexeme.chars) :
    behind {} qs = .after (Segment.textOf qs) := by
  rw [← Loc.after_nil] at hline ⊢
  exact h.behind_eq hline

/-- A text is cut in one way. -/
theorem Cut.unique (h : Cut cs ss) (h' : Cut cs rs) : ss = rs := by
  induction ss generalizing cs rs with
  | nil =>
    obtain rfl := h.of_nil
    rcases rs with _ | ⟨c | l, rs⟩
    · rfl
    · obtain ⟨_, he, -⟩ := h'.of_gap
      cases he
    · obtain ⟨_, c, ws, he, hl, -⟩ := h'.of_lexeme
      rw [hl] at he
      cases he
  | cons s ss ih =>
    cases s with
    | gap c =>
      obtain ⟨ds, rfl, hc, hds⟩ := h.of_gap
      rcases rs with _ | ⟨d | l, rs⟩
      · cases h'.of_nil
      · obtain ⟨_, he, -, hrs⟩ := h'.of_gap
        obtain ⟨rfl, rfl⟩ := List.cons.inj he
        rw [ih hds hrs]
      · obtain ⟨_, d, ws, he, hl, hd, -⟩ := h'.of_lexeme
        rw [hl] at he
        rw [(List.cons.inj he).1, hd] at hc
        cases hc
    | lexeme l =>
      obtain ⟨ds, c, ws, rfl, hchars, hc, hl, hds⟩ := h.of_lexeme
      rcases rs with _ | ⟨d | l', rs⟩
      · have he := h'.of_nil
        rw [hchars] at he
        cases he
      · obtain ⟨_, he, hd, -⟩ := h'.of_gap
        rw [hchars] at he
        rw [← (List.cons.inj he).1, hc] at hd
        cases hd
      · obtain ⟨_, _, _, he, -, -, hl', hrs⟩ := h'.of_lexeme
        rw [← he, hl] at hl'
        obtain ⟨rfl, -⟩ := Prod.mk.inj (Option.some.inj hl')
        obtain rfl := List.append_cancel_left he
        rw [ih hds hrs]

theorem lexFrom_append (source : String) (ws cs : List Char) (offset : Nat) (loc : Loc) :
    lexFrom source ws.length offset loc (ws ++ cs) =
      lexFrom source 0 (offset + byteLength ws) loc cs := by
  induction ws generalizing offset with
  | nil => rfl
  | cons w ws ih =>
    show lexFrom source ws.length (offset + w.utf8Size) loc (ws ++ cs) = _
    rw [ih, Nat.add_assoc]
    rfl

/-- Where a lexeme is read, it can be cut off. -/
theorem Cut.of_next {c : Char} {l : Lexeme} {n : Nat} (hc : isSpace c = false)
    (hl : Lexeme.next? (c :: cs) = some (l, n)) :
    ∃ ws rest, cs = ws ++ rest ∧ l.chars = c :: ws ∧ n = ws.length + 1 ∧
      ∀ {ss}, Cut rest ss → Cut (c :: cs) (.lexeme l :: ss) := by
  obtain ⟨hpos, hle, hchars⟩ := (Lexeme.next_spec hl).1.bounds
  obtain ⟨m, rfl⟩ : ∃ m, n = m + 1 := Nat.exists_eq_succ_of_ne_zero (Nat.ne_of_gt hpos)
  obtain ⟨ws, rest, rfl, rfl⟩ := Lexeme.split_of_le (Nat.le_of_succ_le_succ hle)
  rw [List.take_succ_cons, List.take_left] at hchars
  refine ⟨ws, rest, rfl, hchars, rfl, fun {ss} hss => ?_⟩
  have hcut : Cut (l.chars ++ rest) (.lexeme l :: ss) := by
    refine .lexeme ?_ ?_ hss
    · rw [hchars]
      rintro _ ⟨⟩
      exact hc
    · rw [hchars]
      exact hl
  rwa [hchars] at hcut

/-- A text that has tokens is cut, and the tokens are its lexemes. -/
theorem cut_of_lexFrom {source : String} {offset : Nat} {loc : Loc} {tokens : List Token}
    (h : lexFrom source 0 offset loc cs = .ok tokens) :
    ∃ ss, Cut cs ss ∧ tokens = placed source loc ss := by
  induction hn : cs.length using Nat.strongRecOn generalizing cs offset loc tokens with
  | ind n ih =>
    cases cs with
    | nil =>
      cases h
      exact ⟨[], .nil, rfl⟩
    | cons c cs =>
      subst hn
      unfold lexFrom at h
      dsimp only at h
      split at h
      next hc =>
        obtain ⟨ss, hss, rfl⟩ := ih _ (Nat.lt_succ_self _) h rfl
        exact ⟨.gap c :: ss, .gap hc hss, rfl⟩
      next hc =>
        split at h
        · cases h
        next l n hl =>
          obtain ⟨ws, rest, rfl, hchars, rfl, hcut⟩ :=
            Cut.of_next (Bool.eq_false_iff.mpr hc) hl
          rw [List.take_succ_cons, List.take_left, ← hchars, Nat.add_sub_cancel,
            lexFrom_append] at h
          cases hrest : lexFrom source 0 (offset + c.utf8Size + byteLength ws)
              (loc.along l.chars) rest with
          | error e =>
            change (lexFrom source 0 _ (loc.along l.chars) rest).map _ = _ at h
            rw [hrest] at h
            cases h
          | ok ts =>
            change (lexFrom source 0 _ (loc.along l.chars) rest).map _ = _ at h
            rw [hrest] at h
            cases h
            have hless : rest.length < (c :: (ws ++ rest)).length := by
              rw [List.length_cons, List.length_append]
              omega
            obtain ⟨ss, hss, rfl⟩ := ih rest.length hless hrest rfl
            exact ⟨.lexeme l :: ss, hcut hss, rfl⟩

/-- The tokens of a source are the lexemes that it is cut into. -/
theorem cut_of_lex {source : String} {tokens : List Token} (h : lex source = .ok tokens) :
    ∃ ss, Cut source.toList ss ∧ tokens = placed source {} ss :=
  cut_of_lexFrom h

/-- The lexemes of a text that is cut are its tokens. -/
theorem Cut.lexFrom (h : Cut cs ss) (source : String) (offset : Nat) (loc : Loc) :
    Token.lexFrom source 0 offset loc cs = .ok (placed source loc ss) := by
  induction ss generalizing cs offset loc with
  | nil =>
    rw [h.of_nil]
    rfl
  | cons s ss ih =>
    cases s with
    | gap c =>
      obtain ⟨ds, rfl, hc, hds⟩ := h.of_gap
      unfold Token.lexFrom
      dsimp only
      rw [if_pos hc]
      exact ih hds _ _
    | lexeme l =>
      obtain ⟨ds, c, ws, rfl, hchars, hc, hl, hds⟩ := h.of_lexeme
      rw [hchars, List.cons_append] at hl ⊢
      unfold Token.lexFrom
      dsimp only
      rw [if_neg (Bool.eq_false_iff.mp hc), hl]
      dsimp only
      rw [List.length_cons, List.take_succ_cons, List.take_left, Nat.add_sub_cancel,
        lexFrom_append, ih hds, ← hchars]
      rfl

theorem Cut.lex {source : String} (h : Cut source.toList ss) :
    Token.lex source = .ok (placed source {} ss) :=
  h.lexFrom source 0 {}

end Token
end MiniML
