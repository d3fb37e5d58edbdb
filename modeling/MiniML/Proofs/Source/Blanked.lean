import MiniML.Source.Comment
import MiniML.Proofs.Source.Place
import Mathlib.Data.List.Forall2

/-!
# Places in a source and in its blanked text

Blanking replaces characters one by one and keeps line breaks (`blankFrom_forall₂`). So
a character stands on the line that it had, and never further right. It stands in the
column that it had exactly if each blanked character before it on its line is one byte
long (`after_blanked_iff`).
-/
namespace MiniML
namespace Comment

variable {cs bs : List Char}

/-- What stands in the place of a character: the character, or a space for one that is
no line break. -/
def Blank (c b : Char) : Prop := b = c ∨ c ≠ '\n' ∧ b = ' '

theorem blank_blanked (c : Char) : Blank c (blanked c) := by
  unfold blanked
  split
  next hc => exact .inl hc.symm
  next hc => exact .inr ⟨hc, rfl⟩

theorem Blank.eq_of_ne {c b : Char} (h : Blank c b) (hb : b ≠ ' ') : c = b :=
  h.elim Eq.symm fun h => absurd h.2 hb

/-- Blanking goes character by character. -/
theorem blankFrom_forall₂ (m : Mode) (cs : List Char) :
    List.Forall₂ Blank cs (blankFrom m cs) := by
  have hmark {c : Char} (hc : c ≠ '\n') : Blank c ' ' := .inr ⟨hc, rfl⟩
  fun_induction blankFrom m cs with
  | case1 => exact .nil
  | case2 c cs ih => exact .cons (.inl rfl) (.cons (.inl rfl) ih)
  | case3 c cs _ ih => exact .cons (.inl rfl) ih
  | case4 n cs ih => exact .cons (hmark (by decide)) (.cons (hmark (by decide)) ih)
  | case5 n cs ih => exact .cons (hmark (by decide)) (.cons (hmark (by decide)) ih)
  | case6 n c cs _ _ ih => exact .cons (blank_blanked c) ih
  | case7 cs ih => exact .cons (hmark (by decide)) (.cons (hmark (by decide)) ih)
  | case8 c cs ih =>
    exact .cons (.inl rfl) (.cons (.inl rfl) (.cons (.inl rfl) (.cons (.inl rfl) ih)))
  | case9 c cs _ _ ih => exact .cons (.inl rfl) ih
  | case10 c cs _ _ ih => exact .cons (.inl rfl) (.cons (.inl rfl) (.cons (.inl rfl) ih))
  | case11 c cs _ _ _ ih => exact .cons (.inl rfl) ih

theorem Blank.break_iff {c b : Char} (h : Blank c b) : b = '\n' ↔ c = '\n' := by
  rcases h with rfl | ⟨hc, rfl⟩
  · rfl
  · exact iff_of_false (by decide) hc

theorem count_blanked (h : List.Forall₂ Blank cs bs) : bs.count '\n' = cs.count '\n' := by
  induction h with
  | nil => rfl
  | cons hb _ ih =>
    simp only [List.count_cons, ih, beq_iff_eq, hb.break_iff]

theorem lastLine_blanked (h : List.Forall₂ Blank cs bs) :
    List.Forall₂ Blank (lastLine cs) (lastLine bs) := by
  unfold lastLine List.rtakeWhile
  rw [List.forall₂_reverse_iff]
  rw [← List.forall₂_reverse_iff] at h
  generalize cs.reverse = cs, bs.reverse = bs at h ⊢
  induction h with
  | nil => exact .nil
  | @cons c b _ _ hb _ ih =>
    by_cases hc : c = '\n'
    · rw [List.takeWhile_cons_of_neg (by simp [hc]),
        List.takeWhile_cons_of_neg (by simp [hb.break_iff, hc])]
      exact .nil
    · rw [List.takeWhile_cons_of_pos (by simp [hc]),
        List.takeWhile_cons_of_pos (by simp [hb.break_iff, hc])]
      exact .cons hb ih

/-- Whether a text and its blanked text have characters of the same size on their last
lines: the blanked ones among them are one byte long. -/
def Narrow (cs bs : List Char) : Prop :=
  List.Forall₂ (fun c b => b = c ∨ c.utf8Size = 1) (lastLine cs) (lastLine bs)

theorem byteLength_blanked (h : List.Forall₂ Blank cs bs) :
    byteLength bs ≤ byteLength cs ∧ (byteLength bs = byteLength cs ↔
      List.Forall₂ (fun c b => b = c ∨ c.utf8Size = 1) cs bs) := by
  induction h with
  | nil => exact ⟨Nat.le_refl _, iff_of_true rfl .nil⟩
  | @cons c b cs bs hb _ ih =>
    obtain ⟨hle, hiff⟩ := ih
    have hpos := Char.utf8Size_pos c
    have hsize : b.utf8Size ≤ c.utf8Size ∧ (b.utf8Size = c.utf8Size ↔ b = c ∨ c.utf8Size = 1) := by
      rcases hb with rfl | ⟨-, rfl⟩
      · exact ⟨Nat.le_refl _, iff_of_true rfl (.inl rfl)⟩
      · refine ⟨hpos, fun he => .inr he.symm, ?_⟩
        rintro (he | he)
        · rw [he]
        · exact he.symm
    rw [List.forall₂_cons, ← hiff, ← hsize.2]
    simp only [byteLength]
    omega

/-- A blanked text ends on the line that the text ends on, and not further right. -/
theorem after_blanked_le (h : List.Forall₂ Blank cs bs) :
    (Loc.after bs).line = (Loc.after cs).line ∧ (Loc.after bs).col ≤ (Loc.after cs).col :=
  ⟨count_blanked h, (byteLength_blanked (lastLine_blanked h)).1⟩

/-- A blanked text ends where the text ends exactly if what is blanked on its last line is
one byte long. -/
theorem after_blanked_iff (h : List.Forall₂ Blank cs bs) :
    Loc.after bs = Loc.after cs ↔ Narrow cs bs := by
  rw [Narrow, ← (byteLength_blanked (lastLine_blanked h)).2, Loc.after, Loc.after, Loc.mk.injEq,
    and_iff_right (count_blanked h)]

end Comment
end MiniML
