import MiniML.Source.Span
import Mathlib.Data.List.DropRight

/-!
# The place behind a text

A text ends on the line of its number of line breaks, in the column of the bytes
behind the last one (`Loc.after`). A text without a line break moves the place along
its line (`Loc.after_append`), and a line break moves it to the next
(`Loc.after_append_break`).
-/
namespace MiniML

variable {cs ds : List Char}

theorem byteLength_append (cs ds : List Char) :
    byteLength (cs ++ ds) = byteLength cs + byteLength ds := by
  induction cs with
  | nil => exact (Nat.zero_add _).symm
  | cons c cs ih => simp only [List.cons_append, byteLength, ih, Nat.add_assoc]

/-- The characters behind the last line break. -/
def lastLine (cs : List Char) : List Char := cs.rtakeWhile (· ≠ '\n')

@[simp] theorem lastLine_nil : lastLine [] = [] := rfl

theorem lastLine_append_break (cs : List Char) : lastLine (cs ++ ['\n']) = [] := by
  unfold lastLine
  rw [List.rtakeWhile_concat_neg]
  simp

theorem lastLine_concat {c : Char} (hc : c ≠ '\n') (cs : List Char) :
    lastLine (cs ++ [c]) = lastLine cs ++ [c] := by
  unfold lastLine
  rw [List.rtakeWhile_concat_pos]
  simpa using hc

theorem lastLine_append (h : '\n' ∉ ds) (cs : List Char) :
    lastLine (cs ++ ds) = lastLine cs ++ ds := by
  induction ds using List.reverseRecOn with
  | nil => simp
  | append_singleton ds d ih =>
    have hd : d ≠ '\n' := fun he => h (by simp [he])
    rw [← List.append_assoc, lastLine_concat hd, ih fun hm => h (by simp [hm]), List.append_assoc]

theorem break_notMem_lastLine (cs : List Char) : '\n' ∉ lastLine cs := fun h => by
  simpa using List.mem_rtakeWhile_imp h

namespace Loc

/-- The place behind a character between lexemes. -/
def past (loc : Loc) (c : Char) : Loc :=
  if c = '\n' then ⟨loc.line + 1, 0⟩ else ⟨loc.line, loc.col + 1⟩

/-- The place behind a lexeme. -/
def along (loc : Loc) (cs : List Char) : Loc := ⟨loc.line, loc.col + byteLength cs⟩

/-- The place behind a text. -/
def after (cs : List Char) : Loc := ⟨cs.count '\n', byteLength (lastLine cs)⟩

@[simp] theorem after_nil : after [] = {} := rfl

theorem after_append_break (cs : List Char) : after (cs ++ ['\n']) = (after cs).past '\n' := by
  unfold after past
  rw [lastLine_append_break, List.count_append]
  rfl

theorem after_append (h : '\n' ∉ ds) (cs : List Char) :
    after (cs ++ ds) = (after cs).along ds := by
  unfold after along
  rw [lastLine_append h, byteLength_append, List.count_append, List.count_eq_zero_of_not_mem h]
  rfl

theorem after_concat {c : Char} (hc : c.utf8Size = 1) (cs : List Char) :
    after (cs ++ [c]) = (after cs).past c := by
  by_cases hbreak : c = '\n'
  · subst hbreak
    exact after_append_break cs
  · rw [after_append (by simpa using fun he => hbreak he.symm)]
    unfold along past
    rw [if_neg hbreak]
    simp [byteLength, hc]

end Loc
end MiniML
