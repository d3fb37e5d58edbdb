import MiniML.Proofs.Source.Blanked
import MiniML.Proofs.Token.Unblanked

/-!
# The tokens of a blanked text in its source

The tokens of a source are read off its blanked text, where each has a span. What stands
at that span in the source?

Results:
* `next_blankFrom`: blanking does not change the lexeme that starts a text.
* `covers_of_cut`: the lexemes of a blanked text stand in the source at the same indices.
* `blankComments_place`: a token's span is its place in the source exactly if nothing wider
  than a byte was blanked before it on its line. Tokens that are broken over lines, and
  what is behind them, are left out, since a span does not go on to the next line.
* `blankComments_wide`: a comment with a wide character moves what is behind it.
-/
namespace MiniML
namespace Comment
open Lexeme Token

variable {c : Char} {cs bs ws : List Char}

/-! ## The lexeme that starts a blanked text -/

theorem blankFrom_quote (cs : List Char) :
    blankFrom .code ('"' :: cs) = '"' :: blankFrom .string cs := by
  rw [blankFrom.eq_10 _ _ (by simp) (by simp) (by simp), if_pos rfl]

/-- The first character stays, unless a comment begins with it. -/
theorem blankFrom_cons (hcs : ∀ ds, c :: cs ≠ '(' :: '*' :: ds) :
    ∃ out, blankFrom .code (c :: cs) = c :: out := by
  by_cases hquote : c = '\''
  · subst hquote
    rcases apostrophe_cases cs with ⟨vs, ds, -, -, hread⟩ | ⟨hliteral, hescaped⟩
    · exact ⟨_, hread⟩
    · exact ⟨_, blankFrom_apostrophe hliteral hescaped⟩
  · by_cases hstring : c = '"'
    · subst hstring
      exact ⟨_, blankFrom_quote cs⟩
    · by_cases hparen : c = '('
      · subst hparen
        exact ⟨_, blankFrom_paren fun ds he => hcs ds (by rw [he])⟩
      · exact ⟨_, blankFrom_cons_plain ⟨hquote, hstring, hparen⟩ cs⟩

/-- A class of characters without the space has the first character of a blanked text only
if it has that of the text. -/
theorem head_blankFrom {p : Char → Bool} (hspace : p ' ' = false)
    (hcs : ∀ c ∈ cs.head?, p c = false) : ∀ c ∈ (blankFrom .code cs).head?, p c = false := by
  cases cs with
  | nil => exact nofun
  | cons c cs =>
    by_cases hopen : ∃ ds, c :: cs = '(' :: '*' :: ds
    · obtain ⟨ds, he⟩ := hopen
      rw [he, blankFrom]
      rintro _ ⟨⟩
      exact hspace
    · obtain ⟨out, hout⟩ := blankFrom_cons fun ds he => hopen ⟨ds, he⟩
      rw [hout]
      exact hcs

theorem run_append {p : Char → Bool} (hws : ∀ c ∈ ws, p c) (hcs : ∀ c ∈ cs.head?, p c = false) :
    run p (ws ++ cs) = ws.length := by
  have hnil : cs.takeWhile p = [] := by
    cases cs with
    | nil => rfl
    | cons c cs => exact List.takeWhile_cons_of_neg (Bool.eq_false_iff.mp (hcs c rfl))
  unfold run
  rw [List.takeWhile_append_of_pos hws, hnil, List.append_nil]

theorem split_run (p : Char → Bool) (cs : List Char) :
    ∃ ws ds, cs = ws ++ ds ∧ (∀ c ∈ ws, p c) ∧ ∀ c ∈ ds.head?, p c = false := by
  refine ⟨_, _, (List.takeWhile_append_dropWhile (p := p) (l := cs)).symm,
    List.all_eq_true.mp List.all_takeWhile, fun c hc => ?_⟩
  have h := List.head?_dropWhile_not p cs
  rwa [show (cs.dropWhile p).head? = some c from hc] at h

/-- A run of plain characters is as long in a blanked text. -/
theorem run_blankFrom {p : Char → Bool} (hp : ∀ c, p c → Plain c) (hspace : p ' ' = false)
    (cs : List Char) : run p (blankFrom .code cs) = run p cs := by
  obtain ⟨ws, ds, rfl, hws, hds⟩ := split_run p cs
  rw [blankFrom_plain fun c hc => hp c (hws c hc), run_append hws hds,
    run_append hws (head_blankFrom hspace hds)]

theorem run_ident_blankFrom (cs : List Char) :
    run isIdentChar (blankFrom .code cs) = run isIdentChar cs := by
  obtain ⟨ws, ds, rfl, hws, hds⟩ := split_run isIdentChar cs
  obtain ⟨out, hout, hresumes⟩ := blankFrom_word hws hds
  rw [hout, run_append hws hds, run_append hws]
  rcases hresumes with rfl | ⟨-, vs, es, rfl, rfl, c, rfl | ⟨rfl, -⟩⟩
  · exact head_blankFrom (by decide) hds
  · exact hds
  · exact hds

theorem plain_of_letter (h : isLetter c) : Plain c :=
  plain_of_nameChar (by simp only [isNameChar, h, Bool.true_or])

theorem identLength_blankFrom (cs : List Char) :
    identLength? (blankFrom .code cs) = identLength? cs := by
  have hother {c : Char} {ds : List Char} (hletter : isLetter c = false) (hunder : c ≠ '_') :
      identLength? (c :: ds) = none := by
    simp only [identLength?, hletter, hunder, Bool.false_eq_true, false_and, if_false]
  cases cs with
  | nil => rfl
  | cons c cs =>
    by_cases hc : isLetter c ∨ c = '_'
    · have hplain : Plain c := hc.elim plain_of_letter fun he => by
        subst he
        exact ⟨by decide, by decide, by decide⟩
      rw [blankFrom_cons_plain hplain, identLength?, identLength?, run_ident_blankFrom]
    · obtain ⟨hletter, hunder⟩ := not_or.mp hc
      rw [hother (Bool.eq_false_iff.mpr hletter) hunder]
      cases hb : blankFrom .code (c :: cs) with
      | nil => rfl
      | cons b bs =>
        have hhead (p : Char → Bool) (hspace : p ' ' = false) (hp : p c = false) : p b = false :=
          head_blankFrom hspace (show ∀ d ∈ (c :: cs).head?, p d = false by
            rintro _ ⟨⟩
            exact hp) b (by rw [hb]; rfl)
        refine hother (hhead isLetter (by decide) (Bool.eq_false_iff.mpr hletter)) fun he => ?_
        exact absurd (hhead (· == '_') (by decide) (by simpa using hunder)) (by simp [he])

theorem typeVarLength_eq_none (h : ¬∃ c ds, cs = '\'' :: c :: ds ∧ isSmall c) :
    typeVarLength? cs = none := by
  unfold typeVarLength?
  split
  next c ds => exact if_neg fun hc => h ⟨c, ds, rfl, hc⟩
  · rfl

theorem typeVarLength_blankFrom (cs : List Char) :
    typeVarLength? (blankFrom .code cs) = typeVarLength? cs := by
  by_cases hshape : ∃ c ds, cs = '\'' :: c :: ds ∧ isSmall c
  · obtain ⟨c, ds, rfl, hc⟩ := hshape
    have hplain : Plain c := plain_of_letter (letter_of_small hc)
    have hslash : c ≠ '\\' := fun he => by
      subst he
      exact absurd hc (by decide)
    by_cases hliteral : ∃ es, ds = '\'' :: es
    · obtain ⟨es, rfl⟩ := hliteral
      rw [blankFrom_literal ⟨hslash, hplain.1⟩]
      simp only [typeVarLength?, hc, if_true, run]
      rfl
    · rw [blankFrom_apostrophe, blankFrom_cons_plain hplain]
      · simp only [typeVarLength?, hc, if_true]
        rw [run_blankFrom (fun _ => plain_of_nameChar) (by decide)]
      · exact fun d es he => absurd ⟨es, (List.cons.inj he).2⟩ hliteral
      · exact fun d es he => hslash (List.cons.inj he).1
  · rw [typeVarLength_eq_none hshape, typeVarLength_eq_none]
    rintro ⟨b, bs, hb, hsmall⟩
    have hblank := blankFrom_forall₂ .code cs
    rw [hb] at hblank
    rcases hblank with _ | ⟨hquote, _ | ⟨hb, -⟩⟩
    have hspace : b ≠ ' ' := fun he => by
      subst he
      exact absurd hsmall (by decide)
    exact hshape ⟨b, _, by rw [hquote.eq_of_ne (by decide), hb.eq_of_ne hspace], hsmall⟩

theorem floatLength_blankFrom (cs : List Char) :
    floatLength? (blankFrom .code cs) = floatLength? cs := by
  have hrun (cs : List Char) : run isDigit (blankFrom .code cs) = run isDigit cs :=
    run_blankFrom (fun _ => plain_of_digit) (by decide) cs
  have hdrop : (blankFrom .code cs).drop (run isDigit cs) =
      blankFrom .code (cs.drop (run isDigit cs)) := by
    obtain ⟨ws, ds, rfl, hws, hds⟩ := split_run isDigit cs
    rw [blankFrom_plain fun c hc => plain_of_digit (hws c hc), run_append hws hds,
      List.drop_left, List.drop_left]
  unfold floatLength?
  rw [hrun, hdrop]
  by_cases hpoint : ∃ ds, cs.drop (run isDigit cs) = '.' :: ds
  · obtain ⟨ds, hds⟩ := hpoint
    rw [hds, blankFrom_cons_plain ⟨by decide, by decide, by decide⟩]
    cases run isDigit cs with
    | zero => rfl
    | succ n =>
      show (if 0 < run isDigit (blankFrom .code ds) then
        some (n + 2 + run isDigit (blankFrom .code ds)) else none) =
        if 0 < run isDigit ds then some (n + 2 + run isDigit ds) else none
      rw [hrun]
  · have hblank : ¬∃ ds, blankFrom .code (cs.drop (run isDigit cs)) = '.' :: ds := by
      rintro ⟨ds, hds⟩
      have hblank := blankFrom_forall₂ .code (cs.drop (run isDigit cs))
      rw [hds] at hblank
      generalize cs.drop (run isDigit cs) = es at hblank hpoint
      rcases hblank with _ | ⟨hb, -⟩
      exact hpoint ⟨_, by rw [hb.eq_of_ne (by decide)]⟩
    split
    next ds _ hds => exact absurd ⟨ds, hds⟩ hblank
    · split
      next ds _ hds => exact absurd ⟨ds, hds⟩ hpoint
      · rfl

theorem integerLength_blankFrom (cs : List Char) :
    integerLength? (blankFrom .code cs) = integerLength? cs := by
  unfold integerLength?
  rw [run_blankFrom (fun _ => plain_of_digit) (by decide)]

theorem stringRest_blankFrom (cs : List Char) :
    stringRest? (blankFrom .string cs) = stringRest? cs := by
  fun_induction stringRest? cs with
  | case1 cs =>
    rw [blankFrom]
    · rfl
    · simp
  | case2 cs =>
    rw [blankFrom]
    rfl
  | case3 c cs hc ih =>
    rw [blankFrom]
    simp only [stringRest?, hc, if_false, ih]
  | case4 => rfl
  | case5 c cs hquote hslash hslash' ih =>
    have hplain : c ≠ '\\' := fun he => by
      cases cs with
      | nil => exact hslash' he rfl
      | cons d ds => exact hslash d ds he rfl
    rw [blankFrom, if_neg hquote, stringRest?, ih]
    · exact hquote
    · exact fun _ _ he => absurd he hplain
    · exact fun he => absurd he hplain
    · exact fun _ _ he => absurd he hplain
  | case6 => rfl

theorem stringLength_blankFrom (cs : List Char) :
    stringLength? (blankFrom .code cs) = stringLength? cs := by
  by_cases hquote : ∃ ds, cs = '"' :: ds
  · obtain ⟨ds, rfl⟩ := hquote
    rw [blankFrom_quote, stringLength?, stringLength?, stringRest_blankFrom]
  · have hblank : ¬∃ ds, blankFrom .code cs = '"' :: ds := by
      rintro ⟨ds, hds⟩
      have hblank := blankFrom_forall₂ .code cs
      rw [hds] at hblank
      rcases hblank with _ | ⟨hb, -⟩
      exact hquote ⟨_, by rw [hb.eq_of_ne (by decide)]⟩
    unfold stringLength?
    split
    next ds hds => exact absurd ⟨ds, hds⟩ hblank
    · split
      next ds _ => exact absurd ⟨ds, rfl⟩ hquote
      · rfl

theorem charLength_quoted {vs : List Char} (h : Quoted vs) (ds es : List Char) :
    charLength? ('\'' :: (vs ++ '\'' :: ds)) = charLength? ('\'' :: (vs ++ '\'' :: es)) := by
  obtain ⟨c, rfl | ⟨rfl, hslash, hquote⟩⟩ := h
  · rfl
  · simp [charLength?, hslash, hquote]

theorem charLength_eq_none (hliteral : ∀ c ds, cs = c :: '\'' :: ds → c = '\\' ∨ c = '\'')
    (hescaped : ∀ c ds, cs ≠ '\\' :: c :: '\'' :: ds) : charLength? ('\'' :: cs) = none := by
  unfold charLength?
  split
  next c ds heq => exact absurd (List.cons.inj heq).2 (hescaped c ds)
  next c ds _ heq => exact if_pos (hliteral c ds (List.cons.inj heq).2)
  · rfl

/-- An apostrophe that begins no character literal begins none in the blanked text. -/
theorem apostrophe_blankFrom (hliteral : ∀ c ds, cs = c :: '\'' :: ds → c = '\\' ∨ c = '\'')
    (hescaped : ∀ c ds, cs ≠ '\\' :: c :: '\'' :: ds) :
    (∀ c ds, blankFrom .code cs = c :: '\'' :: ds → c = '\\' ∨ c = '\'') ∧
      ∀ c ds, blankFrom .code cs ≠ '\\' :: c :: '\'' :: ds := by
  have hblank := blankFrom_forall₂ .code cs
  refine ⟨fun c es he => ?_, fun c es he => ?_⟩
  · rw [he] at hblank
    rcases hblank with _ | @⟨d, _, _, _, -, _ | @⟨_, _, ds, _, hb, -⟩⟩
    obtain rfl := hb.eq_of_ne (by decide)
    have hd := hliteral d ds rfl
    obtain ⟨out, hout⟩ := @blankFrom_cons d ('\'' :: ds) fun es he' => by
      rw [(List.cons.inj he').1] at hd
      exact absurd hd (by decide)
    rw [hout] at he
    rwa [(List.cons.inj he).1] at hd
  · rw [he] at hblank
    rcases hblank with _ | ⟨hb, _ | ⟨-, _ | ⟨hb', -⟩⟩⟩
    exact hescaped _ _ (by rw [hb.eq_of_ne (by decide), hb'.eq_of_ne (by decide)])

theorem charLength_blankFrom (cs : List Char) :
    charLength? (blankFrom .code cs) = charLength? cs := by
  have hblank := blankFrom_forall₂ .code cs
  by_cases hquote : ∃ ds, cs = '\'' :: ds
  swap
  · have hnone {cs : List Char} (h : ¬∃ ds, cs = '\'' :: ds) : charLength? cs = none := by
      unfold charLength?
      split
      · exact absurd ⟨_, rfl⟩ h
      · exact absurd ⟨_, rfl⟩ h
      · rfl
    rw [hnone hquote, hnone]
    rintro ⟨ds, hds⟩
    rw [hds] at hblank
    rcases hblank with _ | ⟨hb, -⟩
    exact hquote ⟨_, by rw [hb.eq_of_ne (by decide)]⟩
  obtain ⟨ds, rfl⟩ := hquote
  rcases apostrophe_cases ds with ⟨vs, es, rfl, hvs, hread⟩ | ⟨hliteral, hescaped⟩
  · rw [hread]
    exact charLength_quoted hvs _ _
  obtain ⟨hliteral', hescaped'⟩ := apostrophe_blankFrom hliteral hescaped
  rw [blankFrom_apostrophe hliteral hescaped, charLength_eq_none hliteral hescaped,
    charLength_eq_none hliteral' hescaped']

theorem wordLength_blankFrom (k : WordClass) (cs : List Char) :
    wordLength? k (blankFrom .code cs) = wordLength? k cs := by
  cases k with
  | ident => exact identLength_blankFrom cs
  | typeVar => exact typeVarLength_blankFrom cs
  | float => exact floatLength_blankFrom cs
  | integer => exact integerLength_blankFrom cs
  | string => exact stringLength_blankFrom cs
  | char => exact charLength_blankFrom cs

theorem isPrefixOf_blankFrom (hws : ∀ c ∈ ws, Plain c ∧ c ≠ ' ') (cs : List Char) :
    ws.isPrefixOf (blankFrom .code cs) = ws.isPrefixOf cs := by
  induction ws generalizing cs with
  | nil => rfl
  | cons w ws ih =>
    obtain ⟨⟨hw, hspace⟩, hws⟩ := List.forall_mem_cons.mp hws
    cases cs with
    | nil => rfl
    | cons c cs =>
      by_cases hc : w = c
      · subst hc
        rw [blankFrom_cons_plain hw, List.isPrefixOf_cons_cons, List.isPrefixOf_cons_cons, ih hws]
      · have hblank := blankFrom_forall₂ .code (c :: cs)
        rcases hb : blankFrom .code (c :: cs) with _ | ⟨b, bs⟩
        · rw [hb] at hblank
          cases hblank
        · rw [hb] at hblank
          have hne : w ≠ b := fun he => by
            subst he
            exact hc ((List.forall₂_cons.mp hblank).1.eq_of_ne hspace).symm
          rw [List.isPrefixOf_cons_cons, List.isPrefixOf_cons_cons, beq_false_of_ne hne,
            beq_false_of_ne hc]
          rfl

theorem fixedLength_blankFrom (f : Fixed) (hcs : ∀ ds, cs ≠ '(' :: '*' :: ds) :
    fixedLength? f (blankFrom .code cs) = fixedLength? f cs := by
  unfold fixedLength?
  by_cases hf : f = .lparen
  · subst hf
    have hparen : Fixed.lparen.text.toList = ['('] := by decide
    rw [hparen]
    rcases cs with _ | ⟨c, cs⟩
    · rfl
    · obtain ⟨out, hout⟩ := blankFrom_cons hcs
      rw [hout]
      rfl
  · rw [isPrefixOf_blankFrom (fixed_chars hf)]

/-- A word stays as it is. -/
theorem take_blankFrom {k : WordClass} {n : Nat} (h : wordLength? k cs = some n) :
    (blankFrom .code cs).take n = cs.take n := by
  have hkept {ws ds out : List Char} (hout : blankFrom .code (ws ++ ds) = ws ++ out) :
      (blankFrom .code (ws ++ ds)).take ws.length = (ws ++ ds).take ws.length := by
    rw [hout, List.take_left, List.take_left]
  have hchar {n : Nat} (h : charLength? cs = some n) :
      (blankFrom .code cs).take n = cs.take n := by
    obtain ⟨ws, ds, rfl, rfl⟩ := split_of_le (charLength_le h).2
    exact hkept (blankFrom_char h)
  obtain ⟨ws, ds, rfl, rfl⟩ := split_of_le (wordLength_le h).2
  cases k with
  | ident => exact hkept (blankFrom_ident h).choose_spec.1
  | typeVar =>
    by_cases hshort : ∀ m, charLength? (ws ++ ds) = some m → m ≤ ws.length
    · exact hkept (blankFrom_typeVar h hshort)
    · -- a character literal is longer, and stays
      obtain ⟨m, hm, hlt⟩ : ∃ m, charLength? (ws ++ ds) = some m ∧ ws.length < m := by
        simpa using hshort
      have htake := congrArg (List.take ws.length) (hchar hm)
      rwa [List.take_take, List.take_take, Nat.min_eq_left (Nat.le_of_lt hlt)] at htake
  | float => exact hkept (blankFrom_float h)
  | integer => exact hkept (blankFrom_integer h)
  | string => exact hkept (blankFrom_quoted h)
  | char => exact hkept (blankFrom_char h)

/-- Blanking does not change the lexeme that starts a text, if no comment does. -/
theorem next_blankFrom (hcs : ∀ ds, cs ≠ '(' :: '*' :: ds) :
    next? (blankFrom .code cs) = next? cs := by
  have hword (k : WordClass) :
      (wordLength? k (blankFrom .code cs)).map
        (fun n => (Lexeme.word k (String.ofList ((blankFrom .code cs).take n)), n)) =
      (wordLength? k cs).map fun n => (Lexeme.word k (String.ofList (cs.take n)), n) := by
    rw [wordLength_blankFrom]
    cases h : wordLength? k cs with
    | none => rfl
    | some n => rw [Option.map_some, Option.map_some, take_blankFrom h]
  unfold next? candidates
  simp only [hword, fixedLength_blankFrom _ hcs]

/-! ## The lexemes of a blanked text -/

variable {ss qs rs : List Segment}

/-- The source of a blanked text has the lexemes of that text, in the same places. -/
inductive Covers : List Char → List Segment → Prop
  | nil : Covers [] []
  | gap {c d : Char} {cs : List Char} {ss : List Segment} (h : Covers cs ss) :
    Covers (c :: cs) (.gap d :: ss)
  | lexeme {l : Lexeme} {cs : List Char} {ss : List Segment} (h : Covers cs ss) :
    Covers (l.chars ++ cs) (.lexeme l :: ss)

theorem Covers.split {l : Lexeme} (h : Covers cs (qs ++ .lexeme l :: rs)) :
    ∃ pre post, cs = pre ++ (l.chars ++ post) ∧ pre.length = (Segment.textOf qs).length := by
  induction qs generalizing cs with
  | nil =>
    cases h with
    | lexeme h => exact ⟨[], _, rfl, rfl⟩
  | cons q qs ih =>
    cases h with
    | @gap c d _ _ h =>
      obtain ⟨pre, post, rfl, hlength⟩ := ih h
      exact ⟨c :: pre, post, rfl, congrArg (· + 1) hlength⟩
    | @lexeme l' _ _ h =>
      obtain ⟨pre, post, rfl, hlength⟩ := ih h
      refine ⟨l'.chars ++ pre, post, (List.append_assoc ..).symm, ?_⟩
      show (l'.chars ++ pre).length = (l'.chars ++ Segment.textOf qs).length
      rw [List.length_append, List.length_append, hlength]

theorem cut_space (hc : isSpace c) (h : Cut (c :: cs) ss) :
    ∃ rs, ss = .gap c :: rs ∧ Cut cs rs := by
  rcases ss with _ | ⟨d | l, ss⟩
  · cases h.of_nil
  · obtain ⟨ds, he, -, hds⟩ := h.of_gap
    obtain ⟨rfl, rfl⟩ := List.cons.inj he
    exact ⟨ss, rfl, hds⟩
  · obtain ⟨ds, d, ws, he, hchars, hd, -⟩ := h.of_lexeme
    rw [hchars] at he
    rw [(List.cons.inj he).1, hd] at hc
    cases hc

/-- In a comment a character is blanked, or the two of a mark are. -/
theorem blankFrom_comment (n : Nat) (c : Char) (cs : List Char) : ∃ m, m ≠ .string ∧
    ((∃ d ds, cs = d :: ds ∧ blankFrom (.comment n) (c :: cs) = ' ' :: ' ' :: blankFrom m ds) ∨
      blankFrom (.comment n) (c :: cs) = blanked c :: blankFrom m cs) := by
  by_cases hopen : ∃ ds, c :: cs = '(' :: '*' :: ds
  · obtain ⟨ds, he⟩ := hopen
    obtain ⟨rfl, rfl⟩ := List.cons.inj he
    exact ⟨.comment (n + 1), Mode.noConfusion, .inl ⟨_, ds, rfl, by rw [blankFrom]⟩⟩
  by_cases hclose : ∃ ds, c :: cs = '*' :: ')' :: ds
  · obtain ⟨ds, he⟩ := hclose
    obtain ⟨rfl, rfl⟩ := List.cons.inj he
    have hleave : leave n ≠ .string := by cases n <;> exact Mode.noConfusion
    exact ⟨leave n, hleave, .inl ⟨_, ds, rfl, by rw [blankFrom]⟩⟩
  · refine ⟨.comment n, Mode.noConfusion, .inr ?_⟩
    rw [blankFrom]
    · exact fun ds h h' => hopen ⟨ds, by rw [h, h']⟩
    · exact fun ds h h' => hclose ⟨ds, by rw [h, h']⟩

theorem isSpace_blanked (c : Char) : isSpace (blanked c) := by
  unfold blanked
  split <;> decide

/-- Where the second apostrophe begins a type variable of the blanked text, reading a
literal changes nothing. -/
theorem blankFrom_typeVar_behind {v : String} {n : Nat} (hc : c ≠ '"')
    (hv : next? ('\'' :: blankFrom .code cs) = some (.word .typeVar v, n)) :
    blankFrom .code (c :: '\'' :: cs) = c :: '\'' :: blankFrom .code cs := by
  obtain ⟨hstarts, hlongest⟩ := next_spec hv
  obtain ⟨es, he, hliteral, hslash⟩ := typeVar_apostrophe hstarts.1 fun m hm =>
    hlongest (.word .char (String.ofList (List.take m _))) m ⟨hm, rfl⟩
  obtain ⟨-, rfl⟩ := List.cons.inj he
  rw [blankFrom_before_apostrophe hc]
  rcases apostrophe_cases cs with ⟨vs, ds, rfl, ⟨d, rfl | ⟨rfl, hd⟩⟩, -⟩ | ⟨hread, hescaped⟩
  · obtain ⟨out, hout⟩ := @blankFrom_cons '\\' (d :: '\'' :: ds) (by simp)
    exact absurd hout (hslash out)
  · by_cases hstring : d = '"'
    · subst hstring
      have hout : blankFrom .code ('"' :: '\'' :: ds) = '"' :: '\'' :: blankFrom .string ds := by
        rw [blankFrom_quote, blankFrom]
        · rfl
        · simp
      exact absurd (hliteral '"' _ hout) (by decide)
    · obtain ⟨out, hout⟩ := @blankFrom_cons '\'' ds (by simp)
      exact absurd (hliteral d out ((blankFrom_before_apostrophe hstring ds).trans (by rw [hout])))
        hd.2
  · rw [blankFrom_apostrophe hread hescaped]

/-- A lexeme that starts a blanked text starts the text, and the blanked text goes on as
the text behind it does. -/
theorem lexeme_kept {l : Lexeme} (hopen : ∀ ds, cs ≠ '(' :: '*' :: ds)
    (hcs : blankFrom .code cs = l.chars ++ bs)
    (hc : ∀ c ∈ l.chars.head?, isSpace c = false)
    (hl : next? (l.chars ++ bs) = some (l, l.chars.length)) (h : Cut bs ss)
    (hquote : ¬QuoteAcross (l.chars ++ bs)) :
    ∃ ds, cs = l.chars ++ ds ∧ blankFrom .code ds = bs := by
  have hnext : next? cs = some (l, l.chars.length) := by rw [← next_blankFrom hopen, hcs, hl]
  obtain ⟨-, hle, hchars⟩ := (next_spec hnext).1.bounds
  obtain ⟨ws, ds, rfl, hlength⟩ := split_of_le hle
  rw [← hlength, List.take_left] at hchars
  subst hchars
  refine ⟨ds, rfl, ?_⟩
  obtain ⟨out, hout, hresumes⟩ := blankFrom_lexeme hnext fun hparen es he => by
    subst hparen he
    exact hopen es rfl
  rw [hcs] at hout
  obtain rfl := List.append_cancel_left hout
  rcases hresumes with rfl | ⟨⟨s, rfl⟩, rfl | ⟨hlast, vs, ds, rfl, rfl, c, rfl | ⟨rfl, -⟩⟩⟩
  · rfl
  · rfl
  · exact absurd h not_cut_backslash
  · have hread : ¬(c = '"' ∨ ¬∃ v n,
        next? ('\'' :: blankFrom .code ds) = some (.word .typeVar v, n)) :=
      fun hread => hquote ⟨[], s, ss, c, _, .lexeme hc hl h, hlast, h.text, hread⟩
    obtain ⟨hc, hv⟩ := not_or.mp hread
    obtain ⟨v, n, hv⟩ := Classical.not_not.mp hv
    exact blankFrom_typeVar_behind hc hv

/-- The source of a blanked text covers the segments of that text. -/
theorem covers_of_cut {m : Mode} (hm : m ≠ .string) (h : Cut (blankFrom m cs) ss)
    (hquote : ¬QuoteAcross (blankFrom m cs)) : Covers cs ss := by
  induction hn : cs.length using Nat.strongRecOn generalizing m cs ss with
  | ind n ih =>
    subst hn
    rcases cs with _ | ⟨c, cs⟩
    · rw [blankFrom] at h
      rw [h.unique .nil]
      exact .nil
    have hmarks {d : Char} {ds : List Char} {m : Mode} (hcs : cs = d :: ds) (hm : m ≠ .string)
        (h : Cut (' ' :: ' ' :: blankFrom m ds) ss)
        (hquote : ¬QuoteAcross (' ' :: ' ' :: blankFrom m ds)) : Covers (c :: cs) ss := by
      obtain ⟨_, rfl, hone⟩ := cut_space rfl h
      obtain ⟨_, rfl, htwo⟩ := cut_space rfl hone
      have hless : ds.length < (c :: cs).length := by
        rw [hcs, List.length_cons, List.length_cons]
        omega
      rw [hcs]
      exact .gap (.gap (ih ds.length hless hm htwo (fun hq => hquote ((hq.gap rfl).gap rfl)) rfl))
    cases m with
    | string => exact absurd rfl hm
    | comment n =>
      obtain ⟨m', hm', ⟨d, ds, hcs, hout⟩ | hout⟩ := blankFrom_comment n c cs
      · rw [hout] at h hquote
        exact hmarks hcs hm' h hquote
      · rw [hout] at h hquote
        obtain ⟨_, rfl, hrest⟩ := cut_space (isSpace_blanked c) h
        exact .gap (ih cs.length (Nat.lt_succ_self _) hm' hrest
          (fun hq => hquote (hq.gap (isSpace_blanked c))) rfl)
    | code =>
      by_cases hopen : ∃ ds, c :: cs = '(' :: '*' :: ds
      · obtain ⟨ds, he⟩ := hopen
        rw [he, blankFrom] at h hquote
        exact hmarks (m := .comment 0) (List.cons.inj he).2 Mode.noConfusion h hquote
      obtain ⟨out, hout⟩ := blankFrom_cons fun ds he => hopen ⟨ds, he⟩
      by_cases hc : isSpace c
      · rw [blankFrom_cons_plain (plain_of_space hc)] at h hquote
        obtain ⟨_, rfl, hrest⟩ := cut_space hc h
        exact .gap (ih cs.length (Nat.lt_succ_self _) hm hrest (fun hq => hquote (hq.gap hc)) rfl)
      rcases ss with _ | ⟨d | l, ss⟩
      · rw [hout] at h
        cases h.of_nil
      · obtain ⟨ds, he, hd, -⟩ := h.of_gap
        rw [hout] at he
        rw [← (List.cons.inj he).1] at hd
        exact absurd hd hc
      · obtain ⟨rest, d, ws, he, hchars, hd, hl, hrest⟩ := h.of_lexeme
        have hhead : ∀ c ∈ l.chars.head?, isSpace c = false := by
          rw [hchars]
          rintro _ ⟨⟩
          exact hd
        rw [he] at hquote
        obtain ⟨ds, hds, rfl⟩ := lexeme_kept (fun ds he => hopen ⟨ds, he⟩) he hhead hl hrest hquote
        rw [hds]
        refine .lexeme (ih ds.length ?_ hm hrest (fun hq => hquote (hq.lexeme hhead hl)) rfl)
        rw [hds, hchars, List.length_append, List.length_cons]
        omega

end Comment

open Comment

theorem toList_blankComments (source : String) :
    (blankComments source).toList = blankFrom .code source.toList := String.toList_ofList

/-- What stands at a place of a source stands at the same index of the blanked text, or has
become a space. It is on the same line, and in the same column exactly if nothing wider
than a byte was blanked before it on that line. A token of the blanked text stands there in
the source too, and its span is the place in the source under the same condition, unless a
literal that is broken over lines comes before or the token is one. -/
theorem blankComments_place (source : String) :
    (∀ pre c post, source.toList = pre ++ c :: post →
      ∃ pre' b post', (blankComments source).toList = pre' ++ b :: post' ∧
        pre'.length = pre.length ∧ Blank c b ∧ (Loc.after pre').line = (Loc.after pre).line ∧
        (Loc.after pre').col ≤ (Loc.after pre).col ∧
        (Loc.after pre' = Loc.after pre ↔ Narrow pre pre')) ∧
    ∀ ts t us, Token.lex (blankComments source) = .ok (ts ++ t :: us) →
      ¬QuoteAcross (blankComments source).toList → (∀ u ∈ ts, '\n' ∉ u.lexeme.chars) →
      '\n' ∉ t.lexeme.chars →
      ∃ pre post pre' post', source.toList = pre ++ (t.lexeme.chars ++ post) ∧
        (blankComments source).toList = pre' ++ (t.lexeme.chars ++ post') ∧
        pre'.length = pre.length ∧
        t.span = ⟨.after pre', .after (pre' ++ t.lexeme.chars), blankComments source⟩ ∧
        (t.span = ⟨.after pre, .after (pre ++ t.lexeme.chars), blankComments source⟩ ↔
          Narrow pre pre') := by
  have hblank : List.Forall₂ Blank source.toList (blankComments source).toList := by
    rw [toList_blankComments]
    exact blankFrom_forall₂ .code source.toList
  refine ⟨fun pre c post hsource => ?_, fun ts t us hlex hquote hts ht => ?_⟩
  · rw [hsource] at hblank
    have hpre := List.forall₂_take pre.length hblank
    have hpost := List.forall₂_drop pre.length hblank
    rw [List.take_left] at hpre
    rw [List.drop_left] at hpost
    rcases hrest : (blankComments source).toList.drop pre.length with _ | ⟨b, post'⟩
    · rw [hrest] at hpost
      cases hpost
    · rw [hrest] at hpost
      refine ⟨(blankComments source).toList.take pre.length, b, post', ?_, hpre.length_eq.symm,
        (List.forall₂_cons.mp hpost).1, (after_blanked_le hpre).1, (after_blanked_le hpre).2,
        after_blanked_iff hpre⟩
      rw [← hrest, List.take_append_drop]
  · obtain ⟨ss, hcut, hplaced⟩ := Token.cut_of_lex hlex
    obtain ⟨qs, l, rs, rfl, hqs, rfl, -⟩ := Token.placed_eq_append hplaced.symm
    have hcovers : Covers source.toList (qs ++ .lexeme l :: rs) := by
      rw [toList_blankComments] at hcut hquote
      exact covers_of_cut (m := .code) Mode.noConfusion hcut hquote
    obtain ⟨pre, post, hsource, hlength⟩ := hcovers.split
    rw [← hqs] at hts
    have htext : (blankComments source).toList =
        Segment.textOf qs ++ (l.chars ++ Segment.textOf rs) := by
      rw [← hcut.text, Segment.textOf, List.flatMap_append]
      rfl
    have hpre : List.Forall₂ Blank pre (Segment.textOf qs) := by
      have h := List.forall₂_take pre.length hblank
      rwa [hsource, htext, List.take_left, hlength, List.take_left] at h
    have hbehind := hcut.behind_start hts
    refine ⟨pre, post, Segment.textOf qs, Segment.textOf rs, hsource, htext, hlength.symm, ?_, ?_⟩
    · rw [hbehind, ← Loc.after_append ht]
    · rw [hbehind, Loc.after_append ht, ← after_blanked_iff hpre]
      constructor
      · exact fun h => congrArg Span.start h
      · exact fun h => by rw [h]

open Token in
/-- A wide character in a comment moves nothing on the next line. -/
theorem blankComments_place_nextLine :
    let source := "(* é\n b *) x"
    let t : Token := ⟨.word .ident "x", ⟨⟨1, 6⟩, ⟨1, 7⟩, blankComments source⟩⟩
    (source.toList = "(* é\n b *) ".toList ++ 'x' :: [] ∧
      ∃ pre' b post', (blankComments source).toList = pre' ++ b :: post' ∧
        pre'.length = 11 ∧ Blank 'x' b ∧ (Loc.after pre').line = 1 ∧ (Loc.after pre').col ≤ 6 ∧
        (Loc.after pre' = ⟨1, 6⟩ ↔ Narrow "(* é\n b *) ".toList pre')) ∧
    Token.lex (blankComments source) = .ok [t] ∧ ¬QuoteAcross (blankComments source).toList ∧
      '\n' ∉ t.lexeme.chars ∧
      ∃ pre post pre' post', source.toList = pre ++ (t.lexeme.chars ++ post) ∧
        (blankComments source).toList = pre' ++ (t.lexeme.chars ++ post') ∧
        pre'.length = pre.length ∧
        t.span = ⟨.after pre', .after (pre' ++ t.lexeme.chars), blankComments source⟩ ∧
        (t.span = ⟨.after pre, .after (pre ++ t.lexeme.chars), blankComments source⟩ ↔
          Narrow pre pre') := by
  intro source t
  let ss : List Segment := [.gap ' ', .gap ' ', .gap ' ', .gap ' ', .gap '\n', .gap ' ', .gap ' ',
    .gap ' ', .gap ' ', .gap ' ', .gap ' ', .lexeme (.word .ident "x")]
  have hcut : Cut (Segment.textOf ss) ss :=
    .gap rfl <| .gap rfl <| .gap rfl <| .gap rfl <| .gap rfl <| .gap rfl <| .gap rfl <|
    .gap rfl <| .gap rfl <| .gap rfl <| .gap rfl <|
    .lexeme (head_not_space (by decide)) (by decide +kernel) .nil
  have htext : Segment.textOf ss = (blankComments source).toList := by decide +kernel
  rw [htext] at hcut
  have hquote : ¬QuoteAcross (blankComments source).toList := by
    rintro ⟨qs, s, rs, c, ds, hword, hlast, -⟩
    have hmem : Segment.lexeme (.word .ident s) ∈ ss := by
      rw [← hword.unique hcut]
      exact List.mem_append_cons_self
    obtain rfl : s = "x" := by simpa [ss] using hmem
    exact absurd hlast (by decide)
  have hsource : source.toList = "(* é\n b *) ".toList ++ 'x' :: [] := by decide +kernel
  have hx : '\n' ∉ t.lexeme.chars := by decide
  obtain ⟨hchars, htokens⟩ := blankComments_place source
  exact ⟨⟨hsource, hchars _ _ _ hsource⟩, hcut.lex, hquote, hx,
    htokens [] t [] hcut.lex hquote nofun hx⟩

open Token in
/-- A wide character in a comment is blanked to a narrower space, so that what is behind it
on its line moves to the left. -/
theorem blankComments_wide :
    let source := "(* é *) x"
    source.toList = "(* é *) ".toList ++ ['x'] ∧ Loc.after "(* é *) ".toList = ⟨0, 9⟩ ∧
      Token.lex (blankComments source) =
        .ok [⟨.word .ident "x", ⟨⟨0, 8⟩, ⟨0, 9⟩, blankComments source⟩⟩] := by
  intro source
  let ss : List Segment := [.gap ' ', .gap ' ', .gap ' ', .gap ' ', .gap ' ', .gap ' ', .gap ' ',
    .gap ' ', .lexeme (.word .ident "x")]
  have hcut : Cut (Segment.textOf ss) ss :=
    .gap rfl <| .gap rfl <| .gap rfl <| .gap rfl <| .gap rfl <| .gap rfl <| .gap rfl <|
    .gap rfl <| .lexeme (head_not_space (by decide)) (by decide +kernel) .nil
  have htext : Segment.textOf ss = (blankComments source).toList := by decide +kernel
  rw [htext] at hcut
  exact ⟨by decide +kernel, by decide +kernel, hcut.lex⟩

end MiniML
