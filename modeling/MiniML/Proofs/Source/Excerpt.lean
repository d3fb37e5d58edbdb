import MiniML.Diagnostic
import MiniML.Proofs.Source.Place

/-!
# Quoting what stands in a source

A span that is the place of some text in its source can be quoted, with any message and
with colours or without (`Excerpt.render_isSome`), if that text does not begin or end in
the end of a line. The lines of a source are those of its pieces (`getElem_lines`): the
line that a text ends on begins with the last line of the text.
-/
namespace MiniML

variable {cs ds pre post ws : List Char}

/-! ## Lines -/

theorem takeWhile_line (hws : '\n' ∉ ws) (cs : List Char) :
    (ws ++ cs).takeWhile (· ≠ '\n') = ws ++ cs.takeWhile (· ≠ '\n') := by
  refine List.takeWhile_append_of_pos fun c hc => decide_eq_true fun he => ?_
  subst he
  exact hws hc

theorem pieces_eq (cs : List Char) : ∃ ls, pieces cs = cs.takeWhile (· ≠ '\n') :: ls := by
  induction cs with
  | nil => exact ⟨[], rfl⟩
  | cons c cs ih =>
    obtain ⟨ls, hls⟩ := ih
    rw [pieces, hls]
    by_cases hc : c = '\n'
    · exact ⟨cs.takeWhile (· ≠ '\n') :: ls, by simp [hc]⟩
    · exact ⟨ls, by simp [hc]⟩

theorem pieces_append_break (cs ds : List Char) :
    pieces (cs ++ '\n' :: ds) = pieces cs ++ pieces ds := by
  induction cs with
  | nil =>
    obtain ⟨ls, hls⟩ := pieces_eq ds
    show pieces ('\n' :: ds) = [] :: pieces ds
    rw [pieces, hls]
    rfl
  | cons c cs ih =>
    obtain ⟨ls, hls⟩ := pieces_eq cs
    rw [List.cons_append, pieces, pieces, ih, hls]
    by_cases hc : c = '\n' <;> simp [hc]

theorem length_pieces (cs : List Char) : (pieces cs).length = cs.count '\n' + 1 := by
  induction cs with
  | nil => rfl
  | cons c cs ih =>
    obtain ⟨ls, hls⟩ := pieces_eq cs
    rw [hls] at ih
    rw [pieces, hls]
    by_cases hc : c = '\n'
    · simp [hc, ← ih]
    · simp [hc, ← ih]

/-- A text is its last line, behind a line break if there is one. -/
theorem split_lastLine (cs : List Char) :
    lastLine cs = cs ∨ ∃ ds, cs = ds ++ '\n' :: lastLine cs := by
  induction cs using List.reverseRecOn with
  | nil => exact .inl rfl
  | append_singleton cs c ih =>
    by_cases hc : c = '\n'
    · subst hc
      exact .inr ⟨cs, by rw [lastLine_append_break]⟩
    · rw [lastLine_concat hc]
      rcases ih with ih | ⟨ds, ih⟩
      · exact .inl (by rw [ih])
      · refine .inr ⟨ds, ?_⟩
        conv_lhs => rw [ih]
        simp

/-- The piece that a text ends in begins with the last line of the text. -/
theorem getElem_pieces (pre post : List Char) :
    (pieces (pre ++ post))[(Loc.after pre).line]? =
      some (lastLine pre ++ post.takeWhile (· ≠ '\n')) := by
  have hline {ws : List Char} (hws : '\n' ∉ ws) :
      (pieces (ws ++ post))[0]? = some (ws ++ post.takeWhile (· ≠ '\n')) := by
    obtain ⟨ls, hls⟩ := pieces_eq (ws ++ post)
    rw [hls, takeWhile_line hws]
    rfl
  rcases split_lastLine pre with h | ⟨ds, h⟩
  · have hpre := break_notMem_lastLine pre
    rw [h] at hpre ⊢
    rw [Loc.after, List.count_eq_zero_of_not_mem hpre]
    exact hline hpre
  · have hcount : (Loc.after pre).line = (pieces ds).length := by
      rw [length_pieces]
      unfold Loc.after
      conv_lhs => rw [h]
      rw [List.count_append, List.count_cons_self,
        List.count_eq_zero_of_not_mem (break_notMem_lastLine pre)]
    rw [hcount]
    conv_lhs => rw [h]
    rw [List.append_assoc, List.cons_append, pieces_append_break, List.getElem?_append_right
      (Nat.le_refl _), Nat.sub_self]
    exact hline (break_notMem_lastLine pre)

theorem getElem_linesOf {ls : List (List Char)} {l : List Char} {k : Nat} (h : ls[k]? = some l)
    (hl : l ≠ []) : (linesOf ls)[k]? = some l ∨ (linesOf ls)[k]? = some (dropReturn l) := by
  fun_induction linesOf ls generalizing k with
  | case1 => cases h
  | case2 l' hempty =>
    obtain rfl : l' = [] := List.isEmpty_iff.mp hempty
    cases k with
    | zero => exact absurd (Option.some.inj h).symm hl
    | succ k => cases h
  | case3 l' hempty => exact .inl h
  | case4 l' ls hls ih =>
    cases k with
    | zero => exact .inr (congrArg (some <| dropReturn ·) (Option.some.inj h))
    | succ k => exact ih h

theorem dropReturn_append (hws : ws.getLast? ≠ some '\r') (cs : List Char) :
    ∃ ds, dropReturn (ws ++ cs) = ws ++ ds := by
  unfold dropReturn
  split
  next hlast =>
    cases cs with
    | nil =>
      rw [List.append_nil] at hlast
      exact absurd hlast hws
    | cons c cs => exact ⟨_, List.dropLast_append_of_ne_nil (List.cons_ne_nil c cs)⟩
  · exact ⟨cs, rfl⟩

/-- The line that a text starts on begins with what is before the text on its line. -/
theorem getElem_lines (pre ws post : List Char) (hbreak : '\n' ∉ ws) (hne : ws ≠ [])
    (hreturn : ws.getLast? ≠ some '\r') :
    ∃ rest, (lines (pre ++ (ws ++ post)))[(Loc.after pre).line]? =
      some (lastLine pre ++ (ws ++ rest)) := by
  have hpiece := getElem_pieces pre (ws ++ post)
  rw [takeWhile_line hbreak, ← List.append_assoc (lastLine pre)] at hpiece
  have hlast : (lastLine pre ++ ws).getLast? ≠ some '\r' := by
    rwa [List.getLast?_append_of_ne_nil _ hne]
  rcases getElem_linesOf hpiece (by simp [hne]) with h | h
  · exact ⟨_, h.trans (by rw [List.append_assoc])⟩
  · obtain ⟨ds, hds⟩ := dropReturn_append hlast (post.takeWhile (· ≠ '\n'))
    exact ⟨ds, h.trans (by rw [hds, List.append_assoc])⟩

theorem splitAtByte_append (ws cs : List Char) :
    splitAtByte? (ws ++ cs) (byteLength ws) = some (ws, cs) := by
  induction ws with
  | nil => cases cs <;> rfl
  | cons w ws ih =>
    have hpos := Char.utf8Size_pos w
    obtain ⟨n, hn⟩ : ∃ n, byteLength (w :: ws) = n + 1 :=
      Nat.exists_eq_succ_of_ne_zero (by simp only [byteLength]; omega)
    have hrest : n + 1 - w.utf8Size = byteLength ws := by
      rw [← hn, byteLength, Nat.add_sub_cancel_left]
    rw [hn, List.cons_append, splitAtByte?, hrest, ih, if_pos (by
      rw [← hn, byteLength]
      exact Nat.le_add_right _ _)]
    rfl

/-! ## Excerpts -/

/-- Whether a character ends a line or stands in front of its end. -/
def isLineEnd (c : Char) : Bool := c = '\n' || c = '\r'

/-- A span that is the place of a text in its source, where the text neither begins nor
ends in the end of a line. -/
structure Span.Quotes (s : Span) (pre mid post : List Char) : Prop where
  source : s.source.toList = pre ++ (mid ++ post)
  start : s.start = .after pre
  stop : s.stop = .after (pre ++ mid)
  first : ∃ c ∈ mid.head?, isLineEnd c = false
  last : ∃ c ∈ mid.getLast?, isLineEnd c = false

namespace Excerpt

variable {span : Span} {mid : List Char}

/-- The line of a span's start begins with the text before the span and the first
character of the span. -/
theorem firstLine_isSome (h : span.Quotes pre mid post) (colour : Bool) :
    ∃ line, (lines span.source.toList)[span.start.line]? = some line ∧
      (firstLine colour span line).isSome := by
  have hcol : (Loc.after pre).col = byteLength (lastLine pre) := rfl
  by_cases hbreak : '\n' ∈ mid
  · obtain ⟨c, hc, hend⟩ := h.first
    obtain ⟨mid', rfl⟩ := List.head?_eq_some_iff.mp hc
    have hc : c ≠ '\n' ∧ c ≠ '\r' := by simpa [isLineEnd] using hend
    obtain ⟨rest, hrest⟩ := getElem_lines pre [c] (mid' ++ post)
      (by simpa using fun he => hc.1 he.symm) (by simp) (by simpa using hc.2)
    have hlines : span.start.line ≠ span.stop.line := by
      have hpos := List.count_pos_iff.mpr hbreak
      rw [h.start, h.stop]
      simp only [Loc.after, List.count_append]
      omega
    rw [h.start] at hlines
    refine ⟨_, by rw [h.source, h.start]; exact hrest, ?_⟩
    simp [firstLine, h.start, hcol, splitAtByte_append, hlines]
  · obtain ⟨c, hc, hend⟩ := h.last
    have hreturn : mid.getLast? ≠ some '\r' := fun he => by
      obtain rfl := Option.some.inj (hc.symm.trans he)
      exact absurd hend (by decide)
    have hne : mid ≠ [] := fun he => by
      subst he
      cases hc
    obtain ⟨rest, hrest⟩ := getElem_lines pre mid post hbreak hne hreturn
    have hstop : span.stop = (Loc.after pre).along mid := by rw [h.stop, Loc.after_append hbreak]
    refine ⟨_, by rw [h.source, h.start]; exact hrest, ?_⟩
    simp [firstLine, h.start, hstop, Loc.along, hcol, splitAtByte_append]

/-- There is a line for the end of a span, and the span ends behind its first column. -/
theorem stop_bounds (h : span.Quotes pre mid post) :
    span.stop.line < (lines span.source.toList).length ∧ span.stop.col ≠ 0 := by
  obtain ⟨c, hc, hend⟩ := h.last
  obtain ⟨mid', rfl⟩ := List.getLast?_eq_some_iff.mp hc
  have hc : c ≠ '\n' ∧ c ≠ '\r' := by simpa [isLineEnd] using hend
  have hbreak : '\n' ∉ [c] := by simpa using fun he => hc.1 he.symm
  have hstop : span.stop = (Loc.after (pre ++ mid')).along [c] := by
    rw [h.stop, ← List.append_assoc, Loc.after_append hbreak]
  rw [hstop, h.source, List.append_assoc, ← List.append_assoc]
  constructor
  · obtain ⟨rest, hrest⟩ := getElem_lines (pre ++ mid') [c] post hbreak
      (by simp) (by simpa using hc.2)
    exact (List.getElem?_eq_some_iff.mp hrest).1
  · have hpos := Char.utf8Size_pos c
    simp only [Loc.along, byteLength]
    omega

/-- A span that quotes a text can be shown. -/
theorem render_isSome (h : span.Quotes pre mid post) (colour : Bool) (message : String) :
    (render colour span message).isSome := by
  obtain ⟨line, hline, hfirst⟩ := firstLine_isSome h colour
  obtain ⟨first, hfirst⟩ := Option.isSome_iff_exists.mp hfirst
  obtain ⟨hstop, hcol⟩ := stop_bounds h
  have hstart := (List.getElem?_eq_some_iff.mp hline).1
  obtain ⟨before, hbefore⟩ : ∃ before,
      (lines span.source.toList)[span.start.line - 1]? = some before :=
    ⟨_, List.getElem?_eq_getElem (Nat.lt_of_le_of_lt (Nat.sub_le _ _) hstart)⟩
  unfold render
  by_cases hzero : span.start.line = 0
  · rw [hzero] at hline hstart
    simp [hzero, hline, hfirst, hcol]
    omega
  · simp [hzero, hbefore, hline, hfirst, hcol]
    omega

end Excerpt
end MiniML
