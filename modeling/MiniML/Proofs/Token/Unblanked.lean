import MiniML.Source.Comment
import MiniML.Proofs.Token.Cut
import Mathlib.Data.List.Chain

/-!
# Blanking comments passes over lexemes

Comments are blanked before a source is cut into tokens, character by character and
with an own idea of where strings and character literals begin. That idea and the
lexemes differ in one place, the last apostrophe of a word.

Results:
* `blankFrom_lexeme`: a lexeme is passed over, and what is behind it is read as code or,
  behind the last apostrophe of a word, as a character literal.
* `blankComments_eq_self`: a source that opens no comment among its tokens stays as it is,
  if the apostrophes of no word and literal have one character between them.
* `blankComments_across`: with such apostrophes a string may be blanked.
-/
namespace MiniML
namespace Comment
open Lexeme

variable {c : Char} {cs ds ws : List Char}

/-! ## Characters of code -/

/-- Characters that mean nothing to comments. -/
def Plain (c : Char) : Prop := c ≠ '\'' ∧ c ≠ '"' ∧ c ≠ '('

theorem blankFrom_cons_plain (hc : Plain c) (cs : List Char) :
    blankFrom .code (c :: cs) = c :: blankFrom .code cs := by
  obtain ⟨hquote, hstring, hparen⟩ := hc
  rw [blankFrom.eq_10 _ _ (fun _ h _ => hparen h) (fun _ _ h _ => hquote h)
    (fun _ _ h _ => hquote h), if_neg hstring]

theorem blankFrom_plain (hws : ∀ c ∈ ws, Plain c) (cs : List Char) :
    blankFrom .code (ws ++ cs) = ws ++ blankFrom .code cs := by
  induction ws with
  | nil => rfl
  | cons w ws ih =>
    obtain ⟨hw, hws⟩ := List.forall_mem_cons.mp hws
    rw [List.cons_append, blankFrom_cons_plain hw, ih hws, List.cons_append]

theorem blankFrom_paren (h : ∀ ds, cs ≠ '*' :: ds) :
    blankFrom .code ('(' :: cs) = '(' :: blankFrom .code cs := by
  rw [blankFrom.eq_10 _ _ (fun ds _ h' => h ds h') (by simp) (by simp)]
  rfl

/-- An apostrophe that begins no character literal. -/
theorem blankFrom_apostrophe (h : ∀ c ds, cs = c :: '\'' :: ds → c = '\\' ∨ c = '\'')
    (h' : ∀ c ds, cs ≠ '\\' :: c :: '\'' :: ds) :
    blankFrom .code ('\'' :: cs) = '\'' :: blankFrom .code cs := by
  by_cases hcs : ∃ c ds, cs = c :: '\'' :: ds
  · obtain ⟨c, ds, rfl⟩ := hcs
    rw [blankFrom.eq_9 _ _ (fun d hc hds => ?_), if_pos (h c ds rfl)]
    exact h' _ _ (by rw [hc, hds])
  · rw [blankFrom.eq_10 _ _ (by simp) (fun c ds _ he => h' c ds he)
      (fun c ds _ he => hcs ⟨c, ds, he⟩)]
    rfl

/-- A character literal is passed over whole. -/
theorem blankFrom_literal (hc : c ≠ '\\' ∧ c ≠ '\'') (cs : List Char) :
    blankFrom .code ('\'' :: c :: '\'' :: cs) = '\'' :: c :: '\'' :: blankFrom .code cs := by
  rw [blankFrom.eq_9 _ _ (fun _ h _ => hc.1 h), if_neg (not_or.mpr hc)]

/-- What the apostrophes of a character literal have between them. -/
def Quoted (vs : List Char) : Prop := ∃ c, vs = ['\\', c] ∨ vs = [c] ∧ c ≠ '\\' ∧ c ≠ '\''

/-- An apostrophe begins a character literal or is passed over alone. -/
theorem apostrophe_cases (cs : List Char) :
    (∃ vs ds, cs = vs ++ '\'' :: ds ∧ Quoted vs ∧
      blankFrom .code ('\'' :: cs) = '\'' :: (vs ++ '\'' :: blankFrom .code ds)) ∨
    (∀ c ds, cs = c :: '\'' :: ds → c = '\\' ∨ c = '\'') ∧
      ∀ c ds, cs ≠ '\\' :: c :: '\'' :: ds := by
  by_cases hescaped : ∃ c ds, cs = '\\' :: c :: '\'' :: ds
  · obtain ⟨c, ds, rfl⟩ := hescaped
    exact .inl ⟨['\\', c], ds, rfl, ⟨c, .inl rfl⟩, blankFrom.eq_8 c ds⟩
  by_cases hread : ∃ c ds, cs = c :: '\'' :: ds ∧ c ≠ '\\' ∧ c ≠ '\''
  · obtain ⟨c, ds, rfl, hc⟩ := hread
    exact .inl ⟨[c], ds, rfl, ⟨c, .inr ⟨rfl, hc⟩⟩, blankFrom_literal hc ds⟩
  · exact .inr ⟨fun c ds he => Decidable.of_not_not fun hc => hread ⟨c, ds, he, not_or.mp hc⟩,
      fun c ds he => hescaped ⟨c, ds, he⟩⟩

/-- A string is passed over up to its closing quote. -/
theorem blankFrom_string {n : Nat} (h : stringRest? cs = some n) :
    blankFrom .string cs = cs.take n ++ blankFrom .code (cs.drop n) := by
  fun_induction stringRest? cs generalizing n with
  | case1 cs =>
    cases h
    rw [blankFrom]
    · rfl
    · simp
  | case2 => cases h
  | case3 c cs _ ih =>
    obtain ⟨m, hm, rfl⟩ := Option.map_eq_some_iff.mp h
    rw [blankFrom, ih hm]
    rfl
  | case4 => cases h
  | case5 c cs hquote hslash hslash' ih =>
    obtain ⟨m, hm, rfl⟩ := Option.map_eq_some_iff.mp h
    rw [blankFrom, if_neg hquote, ih hm]
    · rfl
    · rintro d ds rfl rfl
      exact hslash d ds rfl rfl
  | case6 => cases h

theorem plain_of_identChar (h : isIdentChar c) (hc : c ≠ '\'') : Plain c :=
  ⟨hc, fun he => by subst he; exact absurd h (by decide),
    fun he => by subst he; exact absurd h (by decide)⟩

/-- What becomes of the text behind a word. It is read as code, unless the word's last
apostrophe is read as the first of a character literal. -/
def Resumes (ws cs out : List Char) : Prop :=
  out = blankFrom .code cs ∨ ws.getLast? = some '\'' ∧ ∃ vs ds, cs = vs ++ '\'' :: ds ∧
    out = vs ++ '\'' :: blankFrom .code ds ∧ Quoted vs

theorem Resumes.cons {out : List Char} (h : Resumes ws cs out) (w : Char) :
    Resumes (w :: ws) cs out := by
  refine h.imp_right fun ⟨hlast, hread⟩ => ⟨?_, hread⟩
  rw [List.getLast?_cons, hlast]
  rfl

/-- A word is passed over. -/
theorem blankFrom_word (hws : ∀ c ∈ ws, isIdentChar c)
    (hcs : ∀ c ∈ cs.head?, isIdentChar c = false) :
    ∃ out, blankFrom .code (ws ++ cs) = ws ++ out ∧ Resumes ws cs out := by
  have hslash : ∀ c, isIdentChar c → c ≠ '\\' := fun c h he => by
    subst he
    exact absurd h (by decide)
  induction hn : ws.length using Nat.strongRecOn generalizing ws with
  | ind n ih =>
    subst hn
    rcases ws with _ | ⟨w, ws⟩
    · exact ⟨_, rfl, .inl rfl⟩
    obtain ⟨hw, htail⟩ := List.forall_mem_cons.mp hws
    obtain ⟨out, hout, hresumes⟩ := ih ws.length (Nat.lt_succ_self _) htail rfl
    by_cases hquote : w = '\''
    swap
    · refine ⟨out, ?_, hresumes.cons w⟩
      rw [List.cons_append, blankFrom_cons_plain (plain_of_identChar hw hquote), hout]
      rfl
    subst hquote
    rcases ws with _ | ⟨d, _ | ⟨e, ws⟩⟩
    · rcases apostrophe_cases cs with ⟨vs, ds, rfl, hvs, hread⟩ | ⟨hliteral, hescaped⟩
      · exact ⟨_, hread, .inr ⟨rfl, vs, ds, rfl, rfl, hvs⟩⟩
      · exact ⟨_, blankFrom_apostrophe hliteral hescaped, .inl rfl⟩
    · have hd := htail d List.mem_cons_self
      refine ⟨out, ?_, hresumes.cons _⟩
      rw [List.cons_append, blankFrom_apostrophe, hout]
      · rfl
      · intro c ds he
        obtain ⟨-, rfl⟩ := List.cons.inj he
        exact absurd (hcs '\'' rfl) (by decide)
      · intro c ds he
        exact hslash d hd (List.cons.inj he).1
    · have hd := htail d List.mem_cons_self
      by_cases hliteral : e = '\'' ∧ d ≠ '\''
      · obtain ⟨rfl, hne⟩ := hliteral
        obtain ⟨out, hout, hresumes⟩ := ih ws.length (by simp only [List.length_cons]; omega)
          (fun c hc => htail c (by simp [hc])) rfl
        refine ⟨out, ?_, ((hresumes.cons _).cons _).cons _⟩
        exact (blankFrom_literal ⟨hslash d hd, hne⟩ _).trans (congrArg (_ :: _ :: _ :: ·) hout)
      · refine ⟨out, ?_, hresumes.cons _⟩
        rw [List.cons_append, blankFrom_apostrophe, hout]
        · rfl
        · intro c ds he
          obtain ⟨rfl, htail⟩ := List.cons.inj he
          exact .inr (Decidable.of_not_not fun hne => hliteral ⟨(List.cons.inj htail).1, hne⟩)
        · intro c ds he
          exact hslash d hd (List.cons.inj he).1

/-! ## Lexemes -/

theorem plain_of_nameChar (h : isNameChar c) : Plain c := by
  refine plain_of_identChar ?_ fun he => ?_
  · unfold isIdentChar
    rw [h]
    rfl
  · subst he
    exact absurd h (by decide)

theorem plain_of_digit (h : isDigit c) : Plain c := by
  refine plain_of_nameChar ?_
  unfold isNameChar
  rw [h, Bool.or_true]
  rfl

theorem blankFrom_ident (h : identLength? (ws ++ cs) = some ws.length) :
    ∃ out, blankFrom .code (ws ++ cs) = ws ++ out ∧ Resumes ws cs out :=
  blankFrom_word (ident_chars h).1 (ident_chars h).2

/-- A type variable begins no character literal: that would be the longer lexeme. -/
theorem typeVar_apostrophe {n : Nat} (h : typeVarLength? cs = some n)
    (hshort : ∀ m, charLength? cs = some m → m ≤ n) :
    ∃ ds, cs = '\'' :: ds ∧ (∀ c es, ds = c :: '\'' :: es → c = '\'') ∧ ∀ es, ds ≠ '\\' :: es := by
  unfold typeVarLength? at h
  split at h
  next c ds =>
    split at h
    next hsmall =>
      have hslash : c ≠ '\\' := fun he => by
        subst he
        exact absurd hsmall (by decide)
      refine ⟨_, rfl, fun d es he => ?_, fun es he => hslash (List.cons.inj he).1⟩
      obtain ⟨rfl, rfl⟩ := List.cons.inj he
      refine Decidable.of_not_not fun hquote => ?_
      have hthree := hshort 3 (by simp [charLength?, hslash, hquote])
      cases h
      exact absurd hthree (Nat.not_succ_le_self 2)
    · cases h
  · cases h

theorem blankFrom_typeVar (h : typeVarLength? (ws ++ cs) = some ws.length)
    (hshort : ∀ n, charLength? (ws ++ cs) = some n → n ≤ ws.length) :
    blankFrom .code (ws ++ cs) = ws ++ blankFrom .code cs := by
  obtain ⟨ds, hds, hliteral, hslash⟩ := typeVar_apostrophe h hshort
  obtain ⟨vs, rfl, hvs⟩ := typeVar_chars h
  obtain ⟨-, htail⟩ := List.cons.inj hds
  change vs ++ cs = ds at htail
  subst htail
  rw [List.cons_append, blankFrom_apostrophe (fun c es he => .inr (hliteral c es he))
    (fun c es => hslash _), blankFrom_plain fun c hc => plain_of_nameChar (hvs c hc)]
  rfl

theorem blankFrom_integer (h : integerLength? (ws ++ cs) = some ws.length) :
    blankFrom .code (ws ++ cs) = ws ++ blankFrom .code cs :=
  blankFrom_plain (fun c hc => plain_of_digit (integer_chars h c hc)) cs

theorem blankFrom_float (h : floatLength? (ws ++ cs) = some ws.length) :
    blankFrom .code (ws ++ cs) = ws ++ blankFrom .code cs := by
  refine blankFrom_plain (fun c hc => ?_) cs
  rcases float_chars h c hc with hdigit | rfl
  · exact plain_of_digit hdigit
  · exact ⟨by decide, by decide, by decide⟩

theorem blankFrom_quoted (h : stringLength? (ws ++ cs) = some ws.length) :
    blankFrom .code (ws ++ cs) = ws ++ blankFrom .code cs := by
  unfold stringLength? at h
  split at h
  next ds hds =>
    obtain ⟨m, hm, hlength⟩ := Option.map_eq_some_iff.mp h
    rcases ws with _ | ⟨w, ws⟩
    · cases hlength
    obtain ⟨rfl, rfl⟩ := List.cons.inj hds
    obtain rfl : m = ws.length := Nat.succ.inj hlength
    have hstring := blankFrom_string hm
    change blankFrom .string (ws ++ cs) = (ws ++ cs).take ws.length ++
      blankFrom .code ((ws ++ cs).drop ws.length) at hstring
    rw [List.take_left, List.drop_left] at hstring
    show blankFrom .code ('"' :: (ws ++ cs)) = '"' :: (ws ++ blankFrom .code cs)
    rw [blankFrom.eq_10 _ _ (by simp) (by simp) (by simp), if_pos rfl, hstring]
  · cases h

theorem blankFrom_char (h : charLength? (ws ++ cs) = some ws.length) :
    blankFrom .code (ws ++ cs) = ws ++ blankFrom .code cs := by
  unfold charLength? at h
  split at h
  next c ds hds =>
    split at h
    · cases h
    · have hlength := Option.some.inj h
      obtain ⟨rfl, rfl⟩ := List.append_inj
        (show ws ++ cs = ['\'', '\\', c, '\''] ++ ds from hds) hlength.symm
      exact blankFrom.eq_8 c cs
  next c ds _ hds =>
    split at h
    · cases h
    next hc =>
      have hlength := Option.some.inj h
      obtain ⟨rfl, rfl⟩ := List.append_inj
        (show ws ++ cs = ['\'', c, '\''] ++ ds from hds) hlength.symm
      exact blankFrom_literal (not_or.mp hc) cs
  · cases h

variable {l : Lexeme}

/-- The characters of the other fixed tokens mean nothing to comments, and are no spaces. -/
theorem fixed_chars {f : Fixed} (hf : f ≠ .lparen) :
    ∀ c ∈ f.text.toList, Plain c ∧ c ≠ ' ' := by
  have hall : f.text.toList.all fun c => c ≠ '\'' && c ≠ '"' && c ≠ '(' && c ≠ ' ' := by
    revert hf
    cases f <;> decide
  intro c hc
  simpa [Plain, and_assoc] using List.all_eq_true.mp hall c hc

theorem blankFrom_fixed {f : Fixed} (hstar : f = .lparen → ∀ ds, cs ≠ '*' :: ds) :
    blankFrom .code (f.text.toList ++ cs) = f.text.toList ++ blankFrom .code cs := by
  by_cases hf : f = .lparen
  · subst hf
    exact blankFrom_paren (hstar rfl)
  · exact blankFrom_plain (fun c hc => (fixed_chars hf c hc).1) cs

/-- A lexeme is passed over, unless it opens a comment with what is behind it. -/
theorem blankFrom_lexeme (hl : next? (l.chars ++ cs) = some (l, l.chars.length))
    (hstar : l = .fixed .lparen → ∀ ds, cs ≠ '*' :: ds) :
    ∃ out, blankFrom .code (l.chars ++ cs) = l.chars ++ out ∧
      (out = blankFrom .code cs ∨ (∃ s, l = .word .ident s) ∧ Resumes l.chars cs out) := by
  obtain ⟨hstarts, hlongest⟩ := next_spec hl
  have hcode (h : blankFrom .code (l.chars ++ cs) = l.chars ++ blankFrom .code cs) :
      ∃ out, blankFrom .code (l.chars ++ cs) = l.chars ++ out ∧
        (out = blankFrom .code cs ∨ (∃ s, l = .word .ident s) ∧ Resumes l.chars cs out) :=
    ⟨_, h, .inl rfl⟩
  cases l with
  | fixed f => exact hcode (blankFrom_fixed fun hf => hstar (congrArg _ hf))
  | word k s =>
    obtain ⟨hlength, -⟩ := hstarts
    cases k with
    | ident =>
      obtain ⟨out, hout, hresumes⟩ := blankFrom_ident hlength
      exact ⟨out, hout, .inr ⟨⟨s, rfl⟩, hresumes⟩⟩
    | typeVar =>
      exact hcode <| blankFrom_typeVar hlength fun n hn =>
        hlongest (.word .char (String.ofList (List.take n _))) n ⟨hn, rfl⟩
    | float => exact hcode (blankFrom_float hlength)
    | integer => exact hcode (blankFrom_integer hlength)
    | string => exact hcode (blankFrom_quoted hlength)
    | char => exact hcode (blankFrom_char hlength)

/-! ## Texts without comments -/

open Token

variable {ss : List Segment}

/-- Whether no left parenthesis stands directly before a star. -/
def Unopened (tokens : List Token) : Prop :=
  tokens.IsChain fun t u => t.lexeme = .fixed .lparen →
    u.lexeme = .fixed .star ∨ u.lexeme = .fixed .starDot → t.span.stop ≠ u.span.start

instance (tokens : List Token) : Decidable (Unopened tokens) :=
  inferInstanceAs (Decidable (tokens.IsChain _))

/-- Whether somewhere a word ends in an apostrophe and, one character on, an apostrophe
follows that begins no type variable. The two look like those of a character literal. -/
def QuoteAcross (cs : List Char) : Prop :=
  ∃ qs s rs c ds, Cut cs (qs ++ .lexeme (.word .ident s) :: rs) ∧ s.toList.getLast? = some '\'' ∧
    Segment.textOf rs = c :: '\'' :: ds ∧
    (c = '"' ∨ ¬∃ v n, next? ('\'' :: ds) = some (.word .typeVar v, n))

theorem QuoteAcross.gap (hc : isSpace c) (h : QuoteAcross cs) : QuoteAcross (c :: cs) := by
  obtain ⟨qs, s, rs, d, ds, hcut, hrest⟩ := h
  exact ⟨.gap c :: qs, s, rs, d, ds, .gap hc hcut, hrest⟩

theorem QuoteAcross.lexeme (hc : ∀ c ∈ l.chars.head?, isSpace c = false)
    (hl : next? (l.chars ++ cs) = some (l, l.chars.length)) (h : QuoteAcross cs) :
    QuoteAcross (l.chars ++ cs) := by
  obtain ⟨qs, s, rs, d, ds, hcut, hrest⟩ := h
  exact ⟨.lexeme l :: qs, s, rs, d, ds, .lexeme hc hl hcut, hrest⟩

theorem plain_of_space (h : isSpace c) : Plain c := by
  refine ⟨?_, ?_, ?_⟩ <;> rintro rfl <;> exact absurd h (by decide)

/-- A lexeme that begins with neither a word character nor a quote has a fixed spelling. -/
theorem fixed_of_starts {l : Lexeme} {n : Nat} (h : Starts (c :: cs) l n)
    (hident : isIdentChar c = false) (hquote : c ≠ '"') :
    ∃ f, l = .fixed f ∧ f.text.toList.head? = some c := by
  obtain ⟨hpos, -, hchars⟩ := h.bounds
  cases l with
  | fixed f =>
    refine ⟨f, rfl, ?_⟩
    change f.text.toList = _ at hchars
    obtain ⟨m, rfl⟩ := Nat.exists_eq_succ_of_ne_zero (Nat.ne_of_gt hpos)
    rw [hchars]
    rfl
  | word k s =>
    rcases wordLength_head h.1 with hc | hc
    · rw [hident] at hc
      cases hc
    · exact absurd hc hquote

theorem not_cut_backslash : ¬Cut ('\\' :: cs) ss := by
  intro h
  rcases ss with _ | ⟨c | l, ss⟩
  · cases h.of_nil
  · obtain ⟨ds, he, hc, -⟩ := h.of_gap
    obtain ⟨rfl, -⟩ := List.cons.inj he
    exact absurd hc (by decide)
  · obtain ⟨ds, c, ws, he, -, -, hl, -⟩ := h.of_lexeme
    rw [← he] at hl
    obtain ⟨f, -, hf⟩ := fixed_of_starts (next_spec hl).1 (by decide) (by decide)
    revert hf
    cases f <;> decide

theorem cut_star (h : Cut ('*' :: cs) ss) :
    ∃ l rs, ss = .lexeme l :: rs ∧ (l = .fixed .star ∨ l = .fixed .starDot) := by
  rcases ss with _ | ⟨c | l, ss⟩
  · cases h.of_nil
  · obtain ⟨ds, he, hc, -⟩ := h.of_gap
    obtain ⟨rfl, -⟩ := List.cons.inj he
    exact absurd hc (by decide)
  · obtain ⟨ds, c, ws, he, -, -, hl, -⟩ := h.of_lexeme
    rw [← he] at hl
    obtain ⟨f, rfl, hf⟩ := fixed_of_starts (next_spec hl).1 (by decide) (by decide)
    refine ⟨.fixed f, ss, rfl, ?_⟩
    revert hf
    cases f <;> decide

theorem blankFrom_before_apostrophe (hc : c ≠ '"') (ds : List Char) :
    blankFrom .code (c :: '\'' :: ds) = c :: blankFrom .code ('\'' :: ds) := by
  by_cases hquote : c = '\''
  · subst hquote
    exact blankFrom_apostrophe (fun _ _ he => .inr (List.cons.inj he).1.symm)
      fun _ _ he => absurd (List.cons.inj he).1 (by decide)
  · by_cases hparen : c = '('
    · subst hparen
      exact blankFrom_paren fun _ he => absurd (List.cons.inj he).1 (by decide)
    · exact blankFrom_cons_plain ⟨hquote, hc, hparen⟩ _

/-- Where the second apostrophe begins a type variable, reading a literal changes
nothing. -/
theorem blankFrom_across (hsame : blankFrom .code (c :: '\'' :: ds) = c :: '\'' :: ds)
    (hc : c ≠ '"') {v : String} {n : Nat}
    (hv : next? ('\'' :: ds) = some (.word .typeVar v, n)) :
    blankFrom .code ds = ds := by
  obtain ⟨hstarts, hlongest⟩ := next_spec hv
  obtain ⟨es, he, hliteral, hslash⟩ := typeVar_apostrophe hstarts.1 fun m hm =>
    hlongest (.word .char (String.ofList (List.take m _))) m ⟨hm, rfl⟩
  obtain ⟨-, rfl⟩ := List.cons.inj he
  rw [blankFrom_before_apostrophe hc, blankFrom_apostrophe
    (fun c es he => .inr (hliteral c es he)) (fun c es => hslash _)] at hsame
  exact (List.cons.inj (List.cons.inj hsame).2).2

/-- The lexemes of a text are passed over one by one. -/
theorem blankFrom_cut (h : Cut cs ss)
    (hopen : ∀ qs l rs, ss = qs ++ .lexeme (.fixed .lparen) :: .lexeme l :: rs →
      ¬(l = .fixed .star ∨ l = .fixed .starDot))
    (hquote : ¬QuoteAcross cs) : blankFrom .code cs = cs := by
  induction h with
  | nil => rfl
  | @gap c cs ss hc h ih =>
    rw [blankFrom_cons_plain (plain_of_space hc), ih]
    · exact fun qs l rs he => hopen (.gap c :: qs) l rs (congrArg _ he)
    · exact fun h => hquote (h.gap hc)
  | @lexeme l cs ss hc hl h ih =>
    have hsame : blankFrom .code cs = cs :=
      ih (fun qs l' rs he => hopen (.lexeme l :: qs) l' rs (congrArg _ he))
        fun h => hquote (h.lexeme hc hl)
    obtain ⟨out, hout, hresumes⟩ := blankFrom_lexeme hl (by
      rintro rfl ds rfl
      obtain ⟨l, rs, rfl, hstar⟩ := cut_star h
      exact hopen [] l rs rfl hstar)
    rw [hout]
    rcases hresumes with rfl | ⟨⟨s, rfl⟩, rfl | ⟨hlast, vs, ds, rfl, rfl, c, rfl | ⟨rfl, -⟩⟩⟩
    · rw [hsame]
    · rw [hsame]
    · exact absurd h not_cut_backslash
    · have hread : ¬(c = '"' ∨ ¬∃ v n, next? ('\'' :: ds) = some (.word .typeVar v, n)) :=
        fun hread => hquote ⟨[], s, ss, c, ds, .lexeme hc hl h, hlast, h.text, hread⟩
      obtain ⟨hc, hv⟩ := not_or.mp hread
      obtain ⟨v, n, hv⟩ := Classical.not_not.mp hv
      rw [blankFrom_across hsame hc hv]

end Comment

/-- Blanking leaves a source as it is that has tokens, opens no comment among them, and
has no apostrophes of a word and of a literal with one character between. -/
theorem blankComments_eq_self {source : String} {tokens : List Token}
    (h : Token.lex source = .ok tokens) (hopen : Comment.Unopened tokens)
    (hquote : ¬Comment.QuoteAcross source.toList) : blankComments source = source := by
  obtain ⟨ss, hcut, rfl⟩ := Token.cut_of_lex h
  unfold blankComments
  rw [Comment.blankFrom_cut hcut _ hquote, String.ofList_toList]
  rintro qs l rs rfl hl
  unfold Comment.Unopened at hopen
  rw [Token.placed_append] at hopen
  exact (List.isChain_append_cons_cons.mp hopen).2.1 rfl hl rfl

open Comment Token in
/-- Stars and quotes in literals, a type variable behind an apostrophe and a star that is
not next to its parenthesis stay. -/
theorem blankComments_eq_self_quoted :
    let source := "f' 'a '\"' \"(*\" ( *"
    let tokens := [⟨.word .ident "f'", ⟨⟨0, 0⟩, ⟨0, 2⟩, source⟩⟩,
      ⟨.word .typeVar "'a", ⟨⟨0, 3⟩, ⟨0, 5⟩, source⟩⟩,
      ⟨.word .char "'\"'", ⟨⟨0, 6⟩, ⟨0, 9⟩, source⟩⟩,
      ⟨.word .string "\"(*\"", ⟨⟨0, 10⟩, ⟨0, 14⟩, source⟩⟩,
      ⟨.fixed .lparen, ⟨⟨0, 15⟩, ⟨0, 16⟩, source⟩⟩, ⟨.fixed .star, ⟨⟨0, 17⟩, ⟨0, 18⟩, source⟩⟩]
    Token.lex source = .ok tokens ∧ Unopened tokens ∧ ¬QuoteAcross source.toList ∧
      blankComments source = source := by
  intro source tokens
  let ss : List Segment := [.lexeme (.word .ident "f'"), .gap ' ',
    .lexeme (.word .typeVar "'a"), .gap ' ', .lexeme (.word .char "'\"'"), .gap ' ',
    .lexeme (.word .string "\"(*\""), .gap ' ', .lexeme (.fixed .lparen), .gap ' ',
    .lexeme (.fixed .star)]
  have hcut : Cut (Segment.textOf ss) ss :=
    .lexeme (head_not_space (by decide)) (by decide +kernel) <| .gap rfl <|
    .lexeme (head_not_space (by decide)) (by decide +kernel) <| .gap rfl <|
    .lexeme (head_not_space (by decide)) (by decide +kernel) <| .gap rfl <|
    .lexeme (head_not_space (by decide)) (by decide +kernel) <| .gap rfl <|
    .lexeme (head_not_space (by decide)) (by decide +kernel) <| .gap rfl <|
    .lexeme (head_not_space (by decide)) (by decide +kernel) .nil
  have htext : Segment.textOf ss = source.toList := by decide +kernel
  rw [htext] at hcut
  have hopen : Unopened tokens := by decide +kernel
  have hquote : ¬QuoteAcross source.toList := by
    rintro ⟨qs, s, rs, c, ds, hword, hlast, htext, hread⟩
    have he := hword.unique hcut
    rcases qs with _ | ⟨q, qs⟩
    · have hspace : Segment.textOf ss.tail = ' ' :: "'a '\"' \"(*\" ( *".toList := by
        decide +kernel
      obtain rfl : rs = ss.tail := congrArg List.tail he
      rw [hspace] at htext
      obtain ⟨rfl, htail⟩ := List.cons.inj htext
      have hvar : Lexeme.next? "'a '\"' \"(*\" ( *".toList = some (.word .typeVar "'a", 2) := by
        decide +kernel
      rw [htail] at hvar
      exact hread.elim (by decide) fun hread => hread ⟨_, _, hvar⟩
    · have hrest : qs ++ .lexeme (.word .ident s) :: rs = ss.tail := congrArg List.tail he
      have hmem : Segment.lexeme (.word .ident s) ∈ ss.tail := by
        rw [← hrest]
        exact List.mem_append_cons_self
      simp [ss] at hmem
  exact ⟨hcut.lex, hopen, hquote, blankComments_eq_self hcut.lex hopen hquote⟩

open Comment Token in
/-- The apostrophe of a word and the first one of a character literal are taken for a
literal. What is in the string behind them is then blanked, though no comment is opened. -/
theorem blankComments_across :
    let source := "f' '\"' \"(* hi *)\""
    let tokens := [⟨.word .ident "f'", ⟨⟨0, 0⟩, ⟨0, 2⟩, source⟩⟩,
      ⟨.word .char "'\"'", ⟨⟨0, 3⟩, ⟨0, 6⟩, source⟩⟩,
      ⟨.word .string "\"(* hi *)\"", ⟨⟨0, 7⟩, ⟨0, 17⟩, source⟩⟩]
    Token.lex source = .ok tokens ∧ Unopened tokens ∧
      blankComments source = "f' '\"' \"        \"" ∧ blankComments source ≠ source := by
  intro source tokens
  let ss : List Segment := [.lexeme (.word .ident "f'"), .gap ' ',
    .lexeme (.word .char "'\"'"), .gap ' ', .lexeme (.word .string "\"(* hi *)\"")]
  have hcut : Cut (Segment.textOf ss) ss :=
    .lexeme (head_not_space (by decide)) (by decide +kernel) <| .gap rfl <|
    .lexeme (head_not_space (by decide)) (by decide +kernel) <| .gap rfl <|
    .lexeme (head_not_space (by decide)) (by decide +kernel) .nil
  have htext : Segment.textOf ss = source.toList := by decide +kernel
  rw [htext] at hcut
  exact ⟨hcut.lex, by decide +kernel, by decide +kernel, by decide +kernel⟩

end MiniML
