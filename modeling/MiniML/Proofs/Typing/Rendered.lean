import MiniML.Proofs.Grammar.LayoutRules
import MiniML.Proofs.Token.Quotes
import MiniML.Proofs.Typing.Spans

/-!
# Diagnostics can be shown

A diagnostic of a check is at no place, or runs from a token of the source to one that is
not before it: syntax errors are at single tokens, and type errors at nodes of the tree,
which lies over the tokens. So it can be quoted under its lines, provided that the places
of the tokens are right, which they are up to the first token that is broken over lines.
Behind a literal with a line break in it a token is taken to be on the line on which the
literal begins, and a diagnostic about it may be behind the end of that line.

Results:
* `exists_tokens_of_checkSource`: where a diagnostic can be.
* `render_isSome_of_checkSource`: a diagnostic can be shown, if no token up to its end is
  broken over lines.
* `render_eq_none_behind_literal`: behind such a token it may not be possible.
-/
namespace MiniML

/-- A diagnostic at no place, or at the place of a text of its source, can be shown. -/
theorem Diagnostic.render_isSome {d : Diagnostic}
    (h : d.span = .nowhere ∨ ∃ pre mid post, d.span.Quotes pre mid post) (colour : Bool) :
    (d.render? colour).isSome := by
  unfold render?
  by_cases hsource : d.span.source.isEmpty
  · rw [if_pos hsource]
    cases d.help <;> rfl
  · rw [if_neg hsource]
    rcases h with h | ⟨pre, mid, post, h⟩
    · rw [h] at hsource
      exact absurd rfl hsource
    · obtain ⟨body, hbody⟩ :=
        Option.isSome_iff_exists.mp (Excerpt.render_isSome h colour d.headline)
      rw [hbody]
      cases d.help <;> rfl

variable {source : String} {config : Config} {o : Outcome} {d : Diagnostic}

/-- What is wrong with a source is reported at one of its tokens, or nowhere. -/
theorem exists_token_of_readSource (hd : d ∈ (readSource source).2) :
    d.span = .nowhere ∨ ∃ tokens, Token.lex (blankComments source) = .ok tokens ∧
      ∃ t ∈ tokens, d.span = t.span := by
  unfold readSource at hd
  split at hd
  next e he =>
    rw [List.mem_singleton.mp hd]
    exact .inl rfl
  next tokens htokens =>
    obtain ⟨f, hf, rfl⟩ := List.mem_map.mp hd
    cases hspan : f.span with
    | none => exact .inl (by rw [Fault.toDiagnostic, hspan]; rfl)
    | some s =>
      have hs : f.toDiagnostic.span = s := by rw [Fault.toDiagnostic, hspan]; rfl
      rcases Grammar.grounded_of_mem_parse hf s hspan with hn | ⟨t, ht, hst⟩
      · exact .inl (hs.trans hn)
      · exact .inr ⟨tokens, htokens, t, by simpa using ht, hs.trans hst⟩

/-- A tree of a source is made of tokens: a span in it runs from one of them to another
one that is not before it. -/
theorem exists_tokens_of_mem_spans {e : Expr} {s : Span} (he : e ∈ (readSource source).1)
    (hs : s ∈ e.outline.spans) :
    ∃ ts u us, Token.lex (blankComments source) = .ok (ts ++ u :: us) ∧
      ∃ t ∈ ts ++ [u], s = t.span.merge u.span := by
  unfold readSource at he
  split at he
  · cases he
  next tokens htokens =>
    obtain ⟨i, j, hlaid⟩ := Grammar.exists_laid_of_mem_parse he
    obtain ⟨p, q, t, u, hpq, ht, hu, hs⟩ := hlaid.mem_spans (by simpa using hs)
    rw [List.getElem?_toArray] at ht hu
    obtain ⟨hq, hu⟩ := List.getElem?_eq_some_iff.mp hu
    have hsplit : tokens = tokens.take q ++ u :: tokens.drop (q + 1) := by
      rw [← hu, ← List.drop_eq_getElem_cons hq, List.take_append_drop]
    have hmem : t ∈ tokens.take q ++ [u] := by
      rw [← hu, ← List.take_succ_eq_append_getElem hq]
      exact List.mem_of_getElem? (by rwa [List.getElem?_take_of_lt (Nat.lt_succ_of_le hpq)])
    exact ⟨_, u, _, hsplit ▸ htokens, t, hmem, hs⟩

/-- A diagnostic of a check is at no place, or runs from a token to another one that is
not before it. -/
theorem exists_tokens_of_checkSource (h : checkSource source config = .ok o)
    (hd : d ∈ o.diagnostics) :
    d.span = .nowhere ∨ ∃ ts u us, Token.lex (blankComments source) = .ok (ts ++ u :: us) ∧
      ∃ t ∈ ts ++ [u], d.span = t.span.merge u.span := by
  unfold checkSource at h
  split at h
  next program hread =>
    obtain ⟨e, he, hs⟩ := span_mem_of_checkProgram h hd
    exact .inr (exists_tokens_of_mem_spans (by rw [hread]; exact he) hs)
  next program diagnostics _ hread =>
    cases h
    rcases exists_token_of_readSource (by rw [hread]; exact hd) with
      hn | ⟨tokens, htokens, t, ht, hs⟩
    · exact .inl hn
    · obtain ⟨ts, us, rfl⟩ := List.append_of_mem ht
      exact .inr ⟨ts, t, us, htokens, t, by simp, hs⟩

/-- What a check of a fixed source reports can be looked up in its outcome. -/
theorem exists_mem_diagnostics
    (h : (checkSource source config).toOption.any (d ∈ ·.diagnostics) = true) :
    ∃ o, checkSource source config = .ok o ∧ d ∈ o.diagnostics := by
  cases ho : checkSource source config with
  | ok o =>
    rw [ho] at h
    exact ⟨o, rfl, of_decide_eq_true h⟩
  | error e =>
    rw [ho] at h
    cases h

/-- A diagnostic of a check can be shown, if no token up to the end of its span is broken
over lines. -/
theorem render_isSome_of_checkSource (h : checkSource source config = .ok o)
    (hd : d ∈ o.diagnostics)
    (hline : ∀ ts u us, Token.lex (blankComments source) = .ok (ts ++ u :: us) →
      u.span.stop = d.span.stop → ∀ t ∈ ts ++ [u], '\n' ∉ t.lexeme.chars) (colour : Bool) :
    (d.render? colour).isSome := by
  refine Diagnostic.render_isSome ?_ colour
  rcases exists_tokens_of_checkSource h hd with hn | ⟨ts, u, us, htokens, t, ht, hs⟩
  · exact .inl hn
  · rw [hs]
    exact .inr (Token.quotes_merge htokens (hline ts u us htokens (by rw [hs]; rfl)) ht)

/-- A literal that is broken over lines does no harm to what is in front of it. -/
theorem render_isSome_before_literal :
    let source := "x \"\n\""
    let d := TypeError.toDiagnostic ⟨.unbound "x", ⟨⟨0, 0⟩, ⟨0, 1⟩, source⟩⟩
    ∃ o, checkSource source {} = .ok o ∧ d ∈ o.diagnostics ∧
      (∀ ts u us, Token.lex (blankComments source) = .ok (ts ++ u :: us) →
        u.span.stop = d.span.stop → ∀ t ∈ ts ++ [u], '\n' ∉ t.lexeme.chars) ∧
      ∀ colour, (d.render? colour).isSome := by
  intro source d
  obtain ⟨o, ho, hd⟩ : ∃ o, checkSource source {} = .ok o ∧ d ∈ o.diagnostics :=
    exists_mem_diagnostics (by decide +kernel)
  have hlex : Token.lex (blankComments source) =
      .ok [⟨.word .ident "x", ⟨⟨0, 0⟩, ⟨0, 1⟩, source⟩⟩,
        ⟨.word .string "\"\n\"", ⟨⟨0, 2⟩, ⟨0, 5⟩, source⟩⟩] := by decide +kernel
  have hline : ∀ ts u us, Token.lex (blankComments source) = .ok (ts ++ u :: us) →
      u.span.stop = d.span.stop → ∀ t ∈ ts ++ [u], '\n' ∉ t.lexeme.chars := by
    intro ts u us h hstop
    have htokens := Except.ok.inj (hlex.symm.trans h)
    rcases ts with _ | ⟨v, ts⟩
    · obtain ⟨rfl, -⟩ := List.cons.inj htokens
      exact List.forall_mem_singleton.mpr (by decide)
    · obtain ⟨-, htail⟩ := List.cons.inj htokens
      rcases ts with _ | ⟨w, ts⟩
      · obtain ⟨rfl, -⟩ := List.cons.inj htail
        cases hstop
      · simp at htail
  exact ⟨o, ho, hd, hline, render_isSome_of_checkSource ho hd hline⟩

/-- Behind a literal that is broken over lines, a name is taken to be on the line on which
the literal begins, behind the end of that line, and cannot be quoted there. -/
theorem render_eq_none_behind_literal :
    let source := "\"\n\" x"
    let d := TypeError.toDiagnostic ⟨.unbound "x", ⟨⟨0, 4⟩, ⟨0, 5⟩, source⟩⟩
    ∃ o, checkSource source {} = .ok o ∧ d ∈ o.diagnostics ∧
      lines source.toList = [['"'], ['"', ' ', 'x']] ∧ ∀ colour, d.render? colour = none := by
  intro source d
  obtain ⟨o, ho, hd⟩ : ∃ o, checkSource source {} = .ok o ∧ d ∈ o.diagnostics :=
    exists_mem_diagnostics (by decide +kernel)
  exact ⟨o, ho, hd, by decide +kernel, by decide +kernel⟩

end MiniML
