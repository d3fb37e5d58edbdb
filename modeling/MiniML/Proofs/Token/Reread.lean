import MiniML.Proofs.Token.Blanked

/-!
# Reading a blanked text again

Every character of a text has a role: it belongs to a comment, to a string or to a
character literal, or it stands for itself. The role depends on up to three characters
that follow, so blanks in their place might be thought to change it.

They do not (`roles_blankFrom`): in a blanked text each character has the role that it had,
except that those of a comment stand for themselves. No two characters that a comment kept
apart come to open a comment, a string or a literal. Blanking once more then finds nothing
to blank.
-/
namespace MiniML
namespace Comment

/-- What a character is read as. -/
inductive Role
  /-- It stands for itself. -/
  | plain
  /-- The apostrophe that begins a character literal. -/
  | apostrophe
  /-- Behind the beginning of a character literal, up to its end. -/
  | literal
  /-- The quote that begins or ends a string. -/
  | quote
  /-- Between the quotes of a string. -/
  | string
  /-- The parenthesis of a mark that opens a comment. -/
  | opener
  /-- In a comment, or in one of its marks. -/
  | comment
deriving DecidableEq, Repr

/-- The roles of the characters of a text that starts in the given mode. -/
def roles : Mode → List Char → List Role
  | _, [] => []
  | .string, '\\' :: _ :: cs => .string :: .string :: roles .string cs
  | .string, c :: cs => if c = '"' then .quote :: roles .code cs else .string :: roles .string cs
  | .comment n, '(' :: '*' :: cs => .opener :: .comment :: roles (.comment (n + 1)) cs
  | .comment n, '*' :: ')' :: cs => .comment :: .comment :: roles (leave n) cs
  | .comment n, _ :: cs => .comment :: roles (.comment n) cs
  | .code, '(' :: '*' :: cs => .opener :: .comment :: roles (.comment 0) cs
  | .code, '\'' :: '\\' :: _ :: '\'' :: cs =>
    .apostrophe :: .literal :: .literal :: .literal :: roles .code cs
  | .code, '\'' :: c :: '\'' :: cs =>
    if c = '\\' ∨ c = '\'' then .plain :: roles .code (c :: '\'' :: cs)
    else .apostrophe :: .literal :: .literal :: roles .code cs
  | .code, c :: cs => if c = '"' then .quote :: roles .string cs else .plain :: roles .code cs

/-- Whether a character of this role is blanked. -/
def Role.hidden : Role → Bool
  | .opener | .comment => true
  | _ => false

/-- What becomes of a character of this role. -/
def Role.shown (r : Role) (c : Char) : Char := if r.hidden then blanked c else c

/-- The role in the blanked text. -/
def Role.behind (r : Role) : Role := if r.hidden then .plain else r

/-- The mode in which a blanked text is read again. -/
def Mode.again : Mode → Mode
  | .comment _ => .code
  | m => m

@[simp] theorem leave_again (n : Nat) : (leave n).again = .code := by cases n <;> rfl

variable {c : Char} {cs : List Char}

/-! ## What is blanked -/

/-- Blanked are the characters of comments. -/
theorem blankFrom_eq_zipWith (m : Mode) (cs : List Char) :
    blankFrom m cs = List.zipWith Role.shown (roles m cs) cs := by
  fun_induction roles m cs with
  | case1 => simp [blankFrom]
  | _ => simp [blankFrom, blanked, Role.shown, Role.hidden, *]

/-! ## The second reading -/

/-- A character of code that begins nothing. -/
theorem roles_cons (hopen : ∀ ds, c :: cs ≠ '(' :: '*' :: ds)
    (hliteral : c = '\'' → (∀ d ds, cs = d :: '\'' :: ds → d = '\\' ∨ d = '\'') ∧
      ∀ d ds, cs ≠ '\\' :: d :: '\'' :: ds)
    (hquote : c ≠ '"') : roles .code (c :: cs) = .plain :: roles .code cs := by
  by_cases hc : c = '\''
  · subst hc
    obtain ⟨hread, hescaped⟩ := hliteral rfl
    by_cases hcs : ∃ d ds, cs = d :: '\'' :: ds
    · obtain ⟨d, ds, rfl⟩ := hcs
      rw [roles.eq_9 _ _ fun e hd hds => hescaped _ _ (by rw [hd, hds]), if_pos (hread d ds rfl)]
    · rw [roles.eq_10 _ _ (by simp) (fun d ds _ he => hescaped d ds he)
        (fun d ds _ he => hcs ⟨d, ds, he⟩)]
      rfl
  · rw [roles.eq_10 _ _ (fun ds h h' => hopen ds (by rw [h, h'])) (fun _ _ h _ => hc h)
      (fun _ _ h _ => hc h), if_neg hquote]

theorem roles_blanked (c : Char) (cs : List Char) :
    roles .code (blanked c :: cs) = .plain :: roles .code cs := by
  unfold blanked
  split <;> exact roles_cons (by simp) (by simp) (by decide)

/-- Blanking puts no star in front of a text. -/
theorem blankFrom_ne_star (h : ∀ ds, cs ≠ '*' :: ds) (ds : List Char) :
    blankFrom .code cs ≠ '*' :: ds := by
  intro he
  have hblank := blankFrom_forall₂ .code cs
  rw [he] at hblank
  rcases hblank with _ | ⟨hb, -⟩
  exact h _ (by rw [hb.eq_of_ne (by decide)])

/-- Marks are blanked to spaces, which stand for themselves. -/
theorem roles_spaces (cs : List Char) :
    roles .code (' ' :: ' ' :: cs) = .plain :: .plain :: roles .code cs := by
  rw [show ' ' :: ' ' :: cs = blanked '(' :: blanked '*' :: cs from rfl, roles_blanked,
    roles_blanked]

attribute [local simp] Mode.again Role.behind Role.hidden in
/-- The characters of a blanked text are read as they were, those of comments apart. -/
theorem roles_blankFrom (m : Mode) (cs : List Char) :
    roles m.again (blankFrom m cs) = (roles m cs).map Role.behind := by
  have hmark {m : Mode} {cs : List Char} (r : Role) (hr : r.hidden)
      (ih : roles .code (blankFrom m cs) = (roles m cs).map Role.behind) :
      roles .code (' ' :: ' ' :: blankFrom m cs) =
        (r :: .comment :: roles m cs).map Role.behind := by
    rw [roles_spaces, ih, List.map_cons, List.map_cons, Role.behind, if_pos hr]
    rfl
  fun_induction roles m cs with
  | case1 m => simp [blankFrom, roles]
  -- in a string
  | case2 c cs ih => simpa [blankFrom, roles] using ih
  | case3 cs _ ih => simpa [blankFrom, roles] using ih
  | case4 c cs hescaped hquote ih =>
    rw [blankFrom, if_neg hquote]
    · show roles .string _ = _
      rw [roles, if_neg hquote]
      · exact congrArg _ ih
      · intro d ds hc he
        obtain rfl : cs = [] := by
          cases cs with
          | nil => rfl
          | cons e es => exact (hescaped e es hc rfl).elim
        rw [blankFrom] at he
        cases he
    · exact hescaped
  -- in a comment
  | case5 n cs ih =>
    rw [blankFrom]
    exact hmark .opener rfl ih
  | case6 n cs ih =>
    rw [blankFrom]
    rw [leave_again] at ih
    exact hmark .comment rfl ih
  | case7 n c cs hopen hclose ih =>
    rw [blankFrom]
    · exact (roles_blanked c _).trans (congrArg _ ih)
    · exact hopen
    · exact hclose
  -- in code
  | case8 cs ih =>
    rw [blankFrom]
    exact hmark .opener rfl ih
  | case9 c cs ih => simpa [blankFrom, roles] using ih
  | case10 c cs hescaped hc ih =>
    have hliteral : ∀ d ds, c :: '\'' :: cs = d :: '\'' :: ds → d = '\\' ∨ d = '\'' := by
      rintro d ds he
      exact (List.cons.inj he).1 ▸ hc
    have hslash : ∀ d ds, c :: '\'' :: cs ≠ '\\' :: d :: '\'' :: ds := by
      intro d ds he
      obtain ⟨rfl, he⟩ := List.cons.inj he
      exact hescaped ds rfl (List.cons.inj (List.cons.inj he).2).2
    rw [blankFrom_apostrophe hliteral hslash]
    exact (roles_cons (by simp) (fun _ => apostrophe_blankFrom hliteral hslash) (by decide)).trans
      (congrArg _ ih)
  | case11 c cs _ hc ih =>
    rw [blankFrom_literal (not_or.mp hc)]
    show roles .code _ = _
    rw [roles, if_neg hc]
    · exact congrArg (_ :: _ :: _ :: ·) ih
    · exact fun _ hslash => absurd (.inl hslash) hc
  | case12 cs _ _ _ ih =>
    rw [blankFrom_quote]
    simpa [roles] using ih
  | case13 c cs hopen hescaped hliteral hquote ih =>
    rw [blankFrom.eq_10 _ _ hopen hescaped hliteral, if_neg hquote]
    refine (roles_cons (fun ds he => ?_) (fun hc => ?_) hquote).trans (congrArg _ ih)
    · obtain ⟨rfl, hstar⟩ := List.cons.inj he
      exact blankFrom_ne_star (fun ds => hopen ds rfl) ds hstar
    · exact apostrophe_blankFrom (fun d ds he => (hliteral d ds hc he).elim)
        fun d ds => hescaped d ds hc

/-- What is shown stays. -/
theorem zipWith_behind {rs : List Role} (h : cs.length ≤ rs.length) :
    List.zipWith Role.shown (rs.map Role.behind) cs = cs := by
  induction cs generalizing rs with
  | nil => exact List.zipWith_nil_right
  | cons c cs ih =>
    rcases rs with _ | ⟨r, rs⟩
    · cases h
    · have hshown : r.behind.shown c = c := by cases r <;> rfl
      rw [List.map_cons, List.zipWith_cons_cons, hshown, ih (Nat.le_of_succ_le_succ h)]

theorem length_le_roles (m : Mode) (cs : List Char) : cs.length ≤ (roles m cs).length := by
  have hlength := (blankFrom_forall₂ m cs).length_eq
  rw [blankFrom_eq_zipWith, List.length_zipWith] at hlength
  omega

end Comment

open Comment

/-- To blank once more changes nothing. Blanking hides the characters of comments, and in what
is left each character has the role that it had in the source, while those that were hidden
stand for themselves: no comment, no literal and no string begins or ends where none did. -/
theorem blankComments_idempotent (source : String) :
    blankComments (blankComments source) = blankComments source ∧
      (blankComments source).toList =
        List.zipWith Role.shown (roles .code source.toList) source.toList ∧
      roles .code (blankComments source).toList =
        (roles .code source.toList).map Role.behind := by
  have hblank := toList_blankComments source
  have hroles : roles .code (blankComments source).toList =
      (roles .code source.toList).map Role.behind := by
    rw [hblank]
    exact roles_blankFrom .code source.toList
  refine ⟨?_, by rw [hblank, blankFrom_eq_zipWith], hroles⟩
  rw [String.ext_iff, toList_blankComments (blankComments source), blankFrom_eq_zipWith, hroles,
    zipWith_behind]
  rw [← List.length_map Role.behind, ← hroles]
  exact length_le_roles .code _

end MiniML
