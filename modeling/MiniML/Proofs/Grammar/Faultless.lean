import MiniML.Proofs.Grammar.PairedRules
import MiniML.Proofs.Grammar.Recovery

/-!
# Programs without faults

Where no fault is reported, all tokens are those of declarations, and separators. A
declaration ends with an atom, and its parentheses have counterparts, so both is
true of the program.
-/
namespace MiniML

/-- In a paired list of tokens there are as many closing parentheses as opening ones. -/
theorem Paired.count_eq {ts : List Token} (h : Paired ts) :
    (ts.map Token.lexeme).count (.fixed .lparen) =
      (ts.map Token.lexeme).count (.fixed .rparen) := by
  induction h with
  | nil => rfl
  | plain hl hr _ ih =>
    rw [List.map_cons, List.count_cons_of_ne hl, List.count_cons_of_ne hr, ih]
  | parens ht _ hu _ ih ih' =>
    simp [ht, hu, ih, ih']
    omega

namespace Grammar
open MiniML.Parser

/-- Whether a program may end with this lexeme. -/
def endsProgram (l : Lexeme) : Bool := l.endsAtom || l = .fixed .separator

/-- All parentheses have counterparts, and the last token may end a program. -/
structure Closed (ts : List Token) : Prop where
  paired : Paired ts
  last : ∀ t ∈ ts.getLast?, endsProgram t.lexeme = true

theorem closed_nil : Closed [] := ⟨.nil, nofun⟩

theorem Closed.append {ts us : List Token} (h : Closed ts) (h' : Closed us) :
    Closed (ts ++ us) := by
  refine ⟨h.paired.append h'.paired, fun t ht => ?_⟩
  rw [List.getLast?_append] at ht
  cases hus : us.getLast? with
  | none =>
    rw [hus] at ht
    exact h.last t ht
  | some u =>
    rw [hus] at ht
    obtain rfl := Option.some.inj ht
    exact h'.last _ hus

theorem closed_separator {t : Token} (ht : t.lexeme = .fixed .separator) : Closed [t] := by
  refine ⟨.plain (by rw [ht]; exact nofun) (by rw [ht]; exact nofun) .nil, ?_⟩
  intro u hu
  obtain rfl : t = u := Option.some.inj hu
  rw [endsProgram, ht]
  rfl

variable {c : Cursor}

theorem closed_separators {ts : List Token} (h : ∀ t ∈ ts, t.lexeme = .fixed .separator) :
    Closed ts := by
  induction ts with
  | nil => exact closed_nil
  | cons t ts ih =>
    obtain ⟨ht, hts⟩ := List.forall_mem_cons.mp h
    exact (closed_separator ht).append (ih hts)

/-- A declaration ends with an atom. -/
theorem declaration_closed {d : Expr} {c' : Cursor} (hc : c.Inside)
    (hrun : declaration c.clear = .ok d c') :
    c'.Inside ∧ ∃ s, c.rest = s ++ c'.rest ∧ s ≠ [] ∧ Closed s := by
  obtain ⟨hon, -, s, hs, hpaired, u, hu, hend⟩ :=
    (together_goal (.expr true)).accepts (c := c.clear) hc (Nat.lt_succ_self _) hrun
  refine ⟨hon.inside, s, hs, Ended.ne_nil ⟨u, hu, hend⟩, hpaired, fun t ht => ?_⟩
  obtain rfl := Option.some.inj (hu.symm.trans ht)
  rw [endsProgram, hend]
  rfl

/-- A turn without a fault reads a declaration, and goes on where that ends. -/
theorem turn_of_faultless (h : (turn c).1.fault = none) :
    ∃ d, declaration c.clear = .ok d (turn c).2 := by
  unfold turn at h ⊢
  cases hd : declaration c.clear with
  | error f c' =>
    rw [hd] at h
    change (if c'.furthest.isNone then c'.record f else c').furthest = none at h
    split at h
    next =>
      obtain ⟨kf, hrecord, -⟩ := record_eq c' f
      rw [hrecord] at h
      cases h
    next hsome => exact absurd (Option.isNone_iff_eq_none.mpr h) hsome
  | ok d c' =>
    rw [hd] at h
    change (if atBoundary c' then none else (c'.record (junk c')).furthest) = none at h
    split at h
    next hboundary =>
      refine ⟨d, ?_⟩
      show _ = EStateM.Result.ok d (endDeclaration c.index c')
      rw [endDeclaration, if_pos hboundary]
    next =>
      obtain ⟨kf, hrecord, -⟩ := record_eq c' (junk c')
      rw [hrecord] at h
      cases h

theorem skipSeparators_rest (c : Cursor) :
    ∃ ts, c.rest = ts ++ (skipSeparators c).rest ∧ ∀ t ∈ ts, t.lexeme = .fixed .separator := by
  refine ⟨c.rest.takeWhile fun t => t.lexeme = .fixed .separator, ?_, fun t ht => ?_⟩
  · unfold skipSeparators
    rw [skipWhile_eq _ _ (Nat.le_refl _), Cursor.rest_restore rfl,
      List.takeWhile_eq_take_findIdx_not]
    exact (List.take_append_drop _ _).symm
  · simpa using List.all_eq_true.mp List.all_takeWhile t ht

/-- What is read in turns without faults. -/
theorem turnsUpTo_closed {n : Nat} (hc : c.Inside) (hn : c.rest.length < n)
    (h : ∀ t ∈ (turnsUpTo n c).1, t.fault = none) : Closed c.rest := by
  induction n generalizing c with
  | zero => cases hn
  | succ n ih =>
    obtain ⟨ts, hts, hseparators⟩ := skipSeparators_rest c
    obtain ⟨hinside, -⟩ := skipSeparators_inside hc
    rw [hts, List.length_append] at hn
    rw [hts]
    refine (closed_separators hseparators).append ?_
    by_cases hnext : (skipSeparators c).hasNext
    · rw [turnsUpTo_next n hnext] at h
      obtain ⟨hturn, hturns⟩ := List.forall_mem_cons.mp h
      obtain ⟨d, hrun⟩ := turn_of_faultless hturn
      obtain ⟨hinside', s, hs, hne, hclosed⟩ := declaration_closed hinside hrun
      rw [hs, List.length_append] at hn
      have hpos := List.length_pos_of_ne_nil hne
      rw [hs]
      exact hclosed.append (ih hinside' (by omega) hturns)
    · have hend : (skipSeparators c).rest = [] := by
        refine List.eq_nil_of_length_eq_zero ?_
        rw [Cursor.length_rest]
        exact Nat.sub_eq_zero_of_le (by simpa [Cursor.hasNext] using hnext)
      rw [hend]
      exact closed_nil

/-- A program without faults ends with an atom or a separator, and its parentheses have
counterparts. -/
theorem closed_of_faultless {tokens : List Token} (h : (parse tokens).2 = []) : Closed tokens := by
  rw [parse_turns] at h
  have hturns : ∀ t ∈ turns tokens, t.fault = none := fun t ht => by
    simpa using List.filterMap_eq_nil_iff.mp h t ht
  rw [← Cursor.rest_ofTokens tokens]
  exact turnsUpTo_closed (Nat.zero_le _) (by rw [Cursor.rest_ofTokens]; exact Nat.lt_succ_self _)
    hturns

end Grammar
end MiniML
