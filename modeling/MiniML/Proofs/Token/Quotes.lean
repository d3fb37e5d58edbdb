import MiniML.Proofs.Source.Excerpt
import MiniML.Proofs.Token.Cut

/-!
# What a token's span quotes

A token begins and ends with characters that are no line ends (`next_last`, `Cut`). So
in a source whose lexemes are not broken over lines, the span from one token to another
one behind it is the place of the text from the first to the last character of the two
(`Token.quotes_merge`), and can be shown.
-/
namespace MiniML
namespace Lexeme

variable {cs : List Char} {l : Lexeme} {n : Nat}

theorem stringRest_last (h : stringRest? cs = some n) : (cs.take n).getLast? = some '"' := by
  have hcons {cs : List Char} (c : Char) (h : cs.getLast? = some '"') :
      (c :: cs).getLast? = some '"' := by
    rw [List.getLast?_cons, h]
    rfl
  fun_induction stringRest? cs generalizing n with
  | case1 =>
    cases h
    rfl
  | case2 => cases h
  | case3 c cs _ ih =>
    obtain ⟨m, hm, rfl⟩ := Option.map_eq_some_iff.mp h
    exact hcons _ (hcons _ (ih hm))
  | case4 => cases h
  | case5 c cs _ _ _ ih =>
    obtain ⟨m, hm, rfl⟩ := Option.map_eq_some_iff.mp h
    exact hcons _ (ih hm)
  | case6 => cases h

theorem stringLength_last (h : stringLength? cs = some n) : (cs.take n).getLast? = some '"' := by
  unfold stringLength? at h
  split at h
  next cs =>
    obtain ⟨m, hm, rfl⟩ := Option.map_eq_some_iff.mp h
    rw [List.take_succ_cons, List.getLast?_cons, stringRest_last hm]
    rfl
  · cases h

theorem charLength_last (h : charLength? cs = some n) : (cs.take n).getLast? = some '\'' := by
  unfold charLength? at h
  split at h
  · split at h
    · cases h
    · cases h
      rfl
  · split at h
    · cases h
    · cases h
      rfl
  · cases h

theorem not_lineEnd {p : Char → Bool} {c : Char} (hp : p '\n' = false ∧ p '\r' = false) (h : p c) :
    isLineEnd c = false := by
  refine Bool.eq_false_iff.mpr fun hend => ?_
  have hc : c = '\n' ∨ c = '\r' := by simpa [isLineEnd] using hend
  rcases hc with rfl | rfl
  · exact absurd h (by simp [hp.1])
  · exact absurd h (by simp [hp.2])

/-- A word does not end in the end of a line. -/
theorem wordLength_last {k : WordClass} (h : wordLength? k cs = some n) :
    ∃ c ∈ (cs.take n).getLast?, isLineEnd c = false := by
  obtain ⟨hpos, hle⟩ := wordLength_le h
  obtain ⟨ws, ds, rfl, rfl⟩ := split_of_le hle
  have hall {p : Char → Bool} (hp : p '\n' = false ∧ p '\r' = false) (hws : ∀ c ∈ ws, p c) :
      ∃ c ∈ ((ws ++ ds).take ws.length).getLast?, isLineEnd c = false := by
    obtain ⟨c, hc⟩ : ∃ c, ws.getLast? = some c :=
      ⟨_, List.getLast?_eq_some_getLast (List.ne_nil_of_length_pos hpos)⟩
    exact ⟨c, by rwa [List.take_left], not_lineEnd hp (hws c (List.mem_of_getLast? hc))⟩
  cases k with
  | string => exact ⟨'"', stringLength_last h, rfl⟩
  | char => exact ⟨'\'', charLength_last h, rfl⟩
  | ident => exact hall (by decide) (ident_chars h).1
  | typeVar =>
    obtain ⟨vs, rfl, hvs⟩ := typeVar_chars h
    exact hall (p := fun c => isNameChar c || c == '\'') (by decide) fun c hc => by
      rcases List.mem_cons.mp hc with rfl | hc
      · rfl
      · simp [hvs c hc]
  | float =>
    exact hall (p := fun c => isDigit c || c == '.') (by decide) fun c hc => by
      simpa using float_chars h c hc
  | integer => exact hall (by decide) (integer_chars h)

theorem Starts.last (h : Starts cs l n) : ∃ c ∈ l.chars.getLast?, isLineEnd c = false := by
  cases l with
  | fixed f => cases f <;> exact ⟨_, rfl, rfl⟩
  | word k s =>
    obtain ⟨-, -, hchars⟩ := h.bounds
    rw [hchars]
    exact wordLength_last h.1

end Lexeme

namespace Token

theorem not_lineEnd_of_space {c : Char} (h : isSpace c = false) : isLineEnd c = false := by
  refine Bool.eq_false_iff.mpr fun hend => ?_
  have hc : c = '\n' ∨ c = '\r' := by simpa [isLineEnd] using hend
  rcases hc with rfl | rfl <;> exact absurd h (by decide)

/-- The place of segments that begin and end with a lexeme quotes their text. -/
theorem Cut.quotes {source : String} {qs ms ns rs : List Segment} {l l' : Lexeme}
    (h : Cut source.toList (qs ++ (.lexeme l :: ms ++ rs)))
    (hline : ∀ t ∈ placed source {} (qs ++ .lexeme l :: ms), '\n' ∉ t.lexeme.chars)
    (hlast : .lexeme l :: ms = ns ++ [.lexeme l']) :
    Span.Quotes ⟨behind {} qs, behind {} (qs ++ .lexeme l :: ms), source⟩
      (Segment.textOf qs) (Segment.textOf (.lexeme l :: ms)) (Segment.textOf rs) := by
  have htext (qs rs : List Segment) :
      Segment.textOf (qs ++ rs) = Segment.textOf qs ++ Segment.textOf rs := List.flatMap_append
  have hstop : behind {} (qs ++ .lexeme l :: ms) =
      .after (Segment.textOf (qs ++ .lexeme l :: ms)) := by
    rw [← List.append_assoc] at h
    exact h.behind_start hline
  rw [placed_append] at hline
  have hstart : behind {} qs = .after (Segment.textOf qs) :=
    h.behind_start fun t ht => hline t (List.mem_append_left _ ht)
  refine ⟨?_, hstart, ?_, ?_, ?_⟩
  · rw [← h.text, htext, htext]
  · rw [hstop, htext]
  · obtain ⟨ds, c, ws, -, hchars, hc, -⟩ := h.rest.of_lexeme
    exact ⟨c, by show c ∈ (l.chars ++ _).head?; rw [hchars]; rfl, not_lineEnd_of_space hc⟩
  · rw [hlast] at h ⊢
    rw [List.append_assoc, ← List.append_assoc] at h
    obtain ⟨ds, -, -, -, -, -, hl, -⟩ := h.rest.of_lexeme
    obtain ⟨c, hc, hend⟩ := (Lexeme.next_spec hl).1.last
    refine ⟨c, ?_, hend⟩
    have hone : Segment.textOf [.lexeme l'] = l'.chars := List.append_nil _
    rw [htext, hone, List.getLast?_append, show l'.chars.getLast? = some c from hc]
    rfl

/-- The span from a token to another one that is not before it quotes the text between
them, if no token up to the second one is broken over lines. -/
theorem quotes_merge {source : String} {ts us : List Token} {t u : Token}
    (h : lex source = .ok (ts ++ u :: us)) (hline : ∀ v ∈ ts ++ [u], '\n' ∉ v.lexeme.chars)
    (ht : t ∈ ts ++ [u]) : ∃ pre mid post, (t.span.merge u.span).Quotes pre mid post := by
  obtain ⟨ss, hcut, htokens⟩ := cut_of_lex h
  obtain ⟨qs', l', rs, rfl, rfl, rfl, -⟩ := placed_eq_append htokens.symm
  -- the segments up to the second token, cut again at the first one
  have hplaced : placed source {} (qs' ++ [.lexeme l']) = _ := placed_append source {} qs' _
  obtain ⟨as, bs, hsplit⟩ := List.append_of_mem ht
  obtain ⟨qs, l, ms, hsegments, -, rfl, -⟩ := placed_eq_append (hplaced.trans hsplit)
  obtain ⟨ns, hlast⟩ : ∃ ns, .lexeme l :: ms = ns ++ [Segment.lexeme l'] := by
    have hend := congrArg List.getLast? hsegments
    rw [List.getLast?_concat, List.getLast?_append_of_ne_nil _ (List.cons_ne_nil _ _)] at hend
    exact List.getLast?_eq_some_iff.mp hend.symm
  rw [List.append_cons, hsegments, List.append_assoc] at hcut
  have hquotes := Cut.quotes hcut (fun v hv => hline v ?_) hlast
  · rw [← hsegments, behind_append] at hquotes
    exact ⟨_, _, _, hquotes⟩
  · rwa [← hsegments, hplaced] at hv

end Token
end MiniML
