import MiniML.Proofs.Grammar.LockstepRules
import MiniML.Proofs.Grammar.Recovery

/-!
# Separators isolate faults

A list of tokens in front of a separator is read as if it were alone, and so is what
stands behind the separator (`Grammar.parse_separated`). The turns of the one are
followed by the turns of the other, and no fault of the first part changes what is
read of the second. Only a fault at the separator itself looks different from one at
the end of the tokens: it is about a token that was found, where the other one is
about the end of input.
-/
namespace MiniML

/-- The turn in more tokens: `n` of them stand in front. -/
def Grammar.Turn.moved (n : Nat) (t : Grammar.Turn) : Grammar.Turn where
  start := t.start + n
  tree := t.tree
  stop := t.stop + n
  fault := t.fault.map fun kf => (kf.1 + n, kf.2)
  resume := t.resume + n

/-! ## Turns of a passage -/

namespace Passage
open MiniML.Grammar

/-- The same turn, in the passage alone and in the whole. -/
structure SameTurn (P : Passage) (t u : Turn) : Prop where
  inside : t.start < P.body.length
  start : u.start = t.start + P.before.length
  tree : u.tree = t.tree
  stop : u.stop = t.stop + P.before.length
  fault : Option.Rel P.SamePlace t.fault u.fault
  resume : u.resume = t.resume + P.before.length

variable {P : Passage} {c d : Cursor}

theorem SameTurn.eq {t u : Turn} (h : P.SameTurn t u) :
    u = { t.moved P.before.length with fault := u.fault } := by
  cases u
  obtain ⟨-, hstart, htree, hstop, -, hresume⟩ := h
  dsimp only at hstart htree hstop hresume
  rw [hstart, htree, hstop, hresume]
  rfl

/-- At the end of the whole the turn is the same in all but its place. -/
theorem SameTurn.eq_moved (hend : P.behind = []) {t u : Turn} (h : P.SameTurn t u) :
    u = t.moved P.before.length := by
  have hfault : u.fault = t.fault.map fun kf => (kf.1 + P.before.length, kf.2) := by
    have hrel := h.fault
    generalize t.fault = x, u.fault = y at hrel ⊢
    cases hrel with
    | none => rfl
    | some hplace =>
      obtain ⟨hindex, -, hsame | ⟨-, v, hv, -⟩⟩ := hplace
      · exact congrArg some (Prod.ext hindex hsame)
      · rw [hend] at hv
        cases hv
  rw [h.eq, hfault]
  rfl

theorem Beside.clear (h : P.Beside c d) : P.Beside c.clear d.clear :=
  ⟨h.alone, h.whole, h.index, h.inside, .none⟩

theorem Beside.commit (h : P.Beside c d) : P.Beside c.commit d.commit := by
  have hrel := h.furthest
  unfold Cursor.commit
  cases hc : c.furthest <;> cases hd : d.furthest <;> rw [hc, hd] at hrel <;> cases hrel
  · exact h
  · exact ⟨h.alone, h.whole, h.index, h.inside, .none⟩

theorem atBoundary_of_beside (h : P.Beside c d) : atBoundary d = atBoundary c := by
  unfold atBoundary
  rcases h.cases with ⟨t, hc, hd, -⟩ | ⟨hc, hd, -⟩
  · rw [hc, hd]
  · rw [hc, hd]
    cases hhead : P.behind.head? with
    | none => rfl
    | some t =>
      have ht : t.lexeme = .fixed .separator := P.separated t hhead
      simp [isBoundary, ht]

/-- The passage from a place on, and what is behind it. -/
theorem drop_whole (P : Passage) {i : Nat} (hi : i ≤ P.body.length) :
    (P.before ++ P.body ++ P.behind).drop (i + P.before.length) = P.body.drop i ++ P.behind := by
  rw [Nat.add_comm, ← List.drop_drop, List.append_assoc, List.drop_left,
    List.drop_append_of_le_length hi]

/-- What is looked for from a place of the passage on is found in the passage, or a
separator will do. -/
theorem findIdx_whole (P : Passage) {i : Nat} (p : Token → Bool)
    (hp : ∀ t, t.lexeme = .fixed .separator → p t = true) :
    (P.body.drop i ++ P.behind).findIdx p = (P.body.drop i).findIdx p := by
  have hbehind : P.behind.findIdx p = 0 := by
    cases hb : P.behind with
    | nil => rfl
    | cons t ts =>
      rw [List.findIdx_cons, hp t (P.separated t (by rw [hb]; rfl))]
      rfl
  rw [List.findIdx_append, hbehind]
  split
  · rfl
  next h =>
    have hle : (P.body.drop i).findIdx p ≤ (P.body.drop i).length := List.findIdx_le_length
    omega

theorem nextBoundary_whole (P : Passage) {i : Nat} (hi : i ≤ P.body.length) :
    nextBoundary (P.before ++ P.body ++ P.behind) (i + P.before.length) =
      nextBoundary P.body i + P.before.length := by
  unfold nextBoundary
  rw [P.drop_whole hi, P.findIdx_whole isBoundary fun t ht => by simp [isBoundary, ht]]
  omega

theorem beside_skipToBoundary (h : P.Beside c d) {start : Nat} (hstart : start ≤ c.index)
    (hin : start < P.body.length) :
    P.Beside (skipToBoundary start c) (skipToBoundary (start + P.before.length) d) ∧
      start < (skipToBoundary start c).index := by
  have hmax : max c.index (start + 1) ≤ P.body.length := Nat.max_le.mpr ⟨h.inside, hin⟩
  have hd : max d.index (start + P.before.length + 1) =
      max c.index (start + 1) + P.before.length := by
    rw [h.index]
    omega
  rw [skipToBoundary_eq hstart (h.size.1 ▸ hin),
    skipToBoundary_eq (by rw [h.index]; omega) (by rw [h.size.2]; omega), hd, h.whole, h.alone]
  rw [P.nextBoundary_whole hmax]
  exact ⟨h.restore (nextBoundary_le hmax),
    Nat.lt_of_lt_of_le (Nat.le_max_right _ _) (le_nextBoundary _ _)⟩

/-- The fault of a declaration that was given up is remembered, unless another one
is. -/
theorem Beside.remember (h : P.Beside c d) {f g : Fault} (hfg : P.SameFault c.index f g) :
    P.Beside (if c.furthest.isNone then c.record f else c)
      (if d.furthest.isNone then d.record g else d) := by
  have hrel := h.furthest
  have hnone : d.furthest.isNone = c.furthest.isNone := by
    cases hc : c.furthest <;> cases hd : d.furthest <;> rw [hc, hd] at hrel <;> cases hrel
    rfl
  rw [hnone]
  split
  · exact h.record hfg
  · exact h

theorem Beside.failedAt (h : P.Beside c d) {start : Nat} (hstart : start < P.body.length) :
    (d.furthest.map Prod.fst).getD (start + P.before.length) =
        (c.furthest.map Prod.fst).getD start + P.before.length ∧
      (c.furthest.map Prod.fst).getD start ≤ P.body.length := by
  have hrel := h.furthest
  cases hc : c.furthest <;> cases hd : d.furthest <;> rw [hc, hd] at hrel <;> cases hrel
  · exact ⟨rfl, Nat.le_of_lt hstart⟩
  next hplace => exact ⟨hplace.1, hplace.2.1⟩

/-- A turn that begins in the passage is the same in the whole, and goes on to the
same place, further on. -/
theorem beside_turn (h : P.Beside c.clear d.clear) (hlt : c.index < P.body.length) :
    P.SameTurn (turn c).1 (turn d).1 ∧ P.Beside (turn c).2 (turn d).2 ∧
      c.index < (turn c).2.index := by
  have hindex : d.index = c.index + P.before.length := h.index
  have hrun := lockstep_declaration (r := P.body.length + 1) c.clear d.clear h (by omega)
  unfold turn
  generalize declaration c.clear = x, declaration d.clear = y at hrun ⊢
  cases hrun with
  | @ok c' d' a h hi =>
    dsimp only
    have hjunk : P.SameFault c'.index (junk c') (junk d') := by
      refine (h.faultHere .unexpectedToken).imp_left fun hsame => ?_
      unfold junk
      rw [hsame]
    unfold endDeclaration
    rw [atBoundary_of_beside h]
    split
    · exact ⟨⟨hlt, hindex, rfl, h.index, .none, h.index⟩, h, hi⟩
    · have hrecord := h.record hjunk
      have hplace : (c'.record (junk c')).commit.index = c'.index := by
        obtain ⟨kf, hkf, -⟩ := record_eq c' (junk c')
        rw [hkf]
        rfl
      have hle : c.index ≤ (c'.record (junk c')).commit.index := by
        rw [hplace]
        exact Nat.le_of_lt hi
      obtain ⟨hnext, hlater⟩ := beside_skipToBoundary hrecord.commit hle hlt
      rw [hindex]
      exact ⟨⟨hlt, rfl, rfl, h.index, hrecord.furthest, hnext.index⟩, hnext, hlater⟩
  | @error c' d' f g h hfg =>
    have hmemory := h.remember hfg
    obtain ⟨hfailed, hle⟩ := hmemory.failedAt hlt
    have hresume := hmemory.commit.restore (Nat.max_le.mpr ⟨hle, Nat.le_of_lt hlt⟩)
    obtain ⟨hnext, hlater⟩ := beside_skipToBoundary hresume (Nat.le_max_right _ _) hlt
    dsimp only
    unfold recover
    rw [hindex]
    dsimp only
    rw [hfailed, Nat.add_max_add_right]
    exact ⟨⟨hlt, rfl, rfl, h.index, hmemory.furthest, hnext.index⟩, hnext, hlater⟩

/-- Separators are passed over up to the next other token of the passage. If there
is none, one cursor has come to its end, and the other one goes on from behind the
passage. -/
theorem beside_skipSeparators (h : P.Beside c.clear d.clear) :
    ((skipSeparators c).index < P.body.length ∧ c.index ≤ (skipSeparators c).index ∧
      P.Beside (skipSeparators c).clear (skipSeparators d).clear) ∨
    (¬ (skipSeparators c).hasNext ∧
      skipSeparators d = skipSeparators (d.restore (P.body.length + P.before.length))) := by
  have halone : c.tokens.toList = P.body := by rw [show c.tokens = _ from h.alone]
  have hwhole : d.tokens.toList = P.before ++ P.body ++ P.behind := by
    rw [show d.tokens = _ from h.whole]
  have hindex : d.index = c.index + P.before.length := h.index
  have hinside : c.index ≤ P.body.length := h.inside
  have hlength : (P.body.drop c.index).length = P.body.length - c.index := List.length_drop
  have hd : (d.tokens.toList.drop d.index) = P.body.drop c.index ++ P.behind := by
    rw [hwhole, hindex, P.drop_whole hinside]
  have hbehind : d.tokens.toList.drop (P.body.length + P.before.length) = P.behind := by
    rw [hwhole, P.drop_whole (Nat.le_refl _), List.drop_length, List.nil_append]
  unfold skipSeparators
  rw [skipWhile_eq _ _ (Nat.le_refl _), skipWhile_eq _ _ (Nat.le_refl _),
    skipWhile_eq _ _ (Nat.le_refl _), hd, halone, List.findIdx_append]
  generalize (P.body.drop c.index).findIdx _ = k
  split
  next hlt =>
    have hk : c.index + k < P.body.length := by omega
    refine .inl ⟨hk, Nat.le_add_right _ _, ?_⟩
    rw [hindex, Nat.add_right_comm]
    exact h.restore (Nat.le_of_lt hk)
  next hge =>
    refine .inr ⟨fun hnext => hge ?_, ?_⟩
    · have hlt : c.index + k < c.tokens.size := of_decide_eq_true hnext
      rw [← Array.length_toList, halone] at hlt
      omega
    · show _ = d.restore (P.body.length + P.before.length + List.findIdx _
        (d.tokens.toList.drop (P.body.length + P.before.length)))
      rw [hbehind, hlength, hindex]
      congr 1
      omega

theorem turnsUpTo_congr {e : Cursor} (h : skipSeparators d = skipSeparators e) (n : Nat) :
    turnsUpTo (n + 1) d = turnsUpTo (n + 1) e := by
  rw [turnsUpTo, turnsUpTo, h]

/-- The turns of the passage alone come first in the whole; then reading goes on
behind the passage. -/
theorem beside_turnsUpTo {n m : Nat} (h : P.Beside c.clear d.clear) (hn : c.remaining < n)
    (hm : d.remaining < m) :
    ∃ us e k, List.Forall₂ P.SameTurn (turnsUpTo n c).1 us ∧
      (turnsUpTo m d).1 = us ++ (turnsUpTo k e).1 ∧ e.remaining < k ∧ e.tokens = d.tokens ∧
      e.index = P.body.length + P.before.length := by
  induction n generalizing c d m with
  | zero => exact absurd hn (Nat.not_lt_zero _)
  | succ n ih =>
    obtain ⟨m, rfl⟩ : ∃ k, m = k + 1 := Nat.exists_eq_succ_of_ne_zero (by omega)
    rcases beside_skipSeparators h with ⟨hlt, hle, hb⟩ | ⟨hend, hskip⟩
    · obtain ⟨hturn, hnext, hlater⟩ := beside_turn hb hlt
      have hc : (skipSeparators c).hasNext := decide_eq_true (hb.size.1 ▸ hlt)
      have hd : (skipSeparators d).hasNext := decide_eq_true (by
        have hsize : (skipSeparators d).tokens.size = _ := hb.size.2
        have hindex : (skipSeparators d).index = _ := hb.index
        rw [hsize, hindex]
        show (skipSeparators c).index + _ < _
        omega)
      have hcn : (turn (skipSeparators c)).2.remaining < n := by
        rw [hnext.remaining.1]
        rw [show c.remaining = P.body.length - c.index from h.remaining.1] at hn
        omega
      have hdm : (turn (skipSeparators d)).2.remaining < m := by
        have hsize := h.size.2
        have hindex := h.index
        unfold Cursor.remaining at hm ⊢
        rw [hnext.size.2, hnext.index]
        change d.tokens.size = _ at hsize
        change d.index = c.index + _ at hindex
        omega
      obtain ⟨us, e, k, hturns, hrest, hk, htokens, hplace⟩ := ih hnext.clear hcn hdm
      refine ⟨(turn (skipSeparators d)).1 :: us, e, k, ?_, ?_, hk, ?_, hplace⟩
      · rw [turnsUpTo_next n hc]
        exact .cons hturn hturns
      · rw [turnsUpTo_next m hd]
        dsimp only
        rw [hrest, List.cons_append]
      · rw [htokens, hnext.whole]
        exact h.whole.symm
    · refine ⟨[], d.restore (P.body.length + P.before.length), m + 1, ?_, ?_, ?_, rfl, rfl⟩
      · rw [turnsUpTo_end n hend]
        exact .nil
      · rw [turnsUpTo_congr hskip]
        rfl
      · have hinside : c.index ≤ P.body.length := h.inside
        have hindex : d.index = c.index + P.before.length := h.index
        unfold Cursor.remaining at hm ⊢
        show d.tokens.size - (P.body.length + P.before.length) < m + 1
        omega

end Passage

/-! ## Whole lists of tokens -/

namespace Grammar
open MiniML.Parser

/-- The turn in front of a token `s`, which is the `n`-th one: only a fault at `s`
itself may be another one. -/
def Turn.SameBefore (s : Token) (n : Nat) (t u : Turn) : Prop :=
  t.start < n ∧ ∃ fault, u = { t with fault } ∧
    Option.Rel (fun x y => y.1 = x.1 ∧ (y.2 = x.2 ∨ x.1 = n ∧ y.2.span = some s.span))
      t.fault fault

variable {A B : List Token} {s : Token} {c : Cursor}

theorem turns_nil : turns [] = [] := by decide

theorem turnsUpTo_of_size_le (h : c.tokens.size ≤ c.index) (n : Nat) : (turnsUpTo n c).1 = [] := by
  cases n with
  | zero => rfl
  | succ n =>
    have hskip : skipSeparators c = c := by
      unfold skipSeparators Cursor.remaining
      rw [Nat.sub_eq_zero_of_le h]
      rfl
    rw [turnsUpTo_end n (by rw [hskip]; simpa [Cursor.hasNext] using h)]

theorem skipSeparators_advance (hs : s.lexeme = .fixed .separator) (h : c.peek = some s) :
    skipSeparators c = skipSeparators c.advance := by
  have hlt : c.index < c.tokens.size := (Array.getElem?_eq_some_iff.mp h).1
  have hrest : c.remaining = c.advance.remaining + 1 := by
    rw [Cursor.advance_eq hlt]
    show c.tokens.size - c.index = c.tokens.size - (c.index + 1) + 1
    omega
  unfold skipSeparators
  rw [hrest, Cursor.skipWhile, h]
  dsimp only
  rw [if_pos (decide_eq_true hs)]

/-- The turns in front of a separator. -/
theorem turns_front (A B : List Token) (hs : s.lexeme = .fixed .separator) :
    ∃ us e k, List.Forall₂ (Turn.SameBefore s A.length) (turns A) us ∧
      turns (A ++ s :: B) = us ++ (turnsUpTo k e).1 ∧ e.remaining < k ∧
      e.tokens = (A ++ s :: B).toArray ∧ e.index = A.length := by
  by_cases hA : A = []
  · subst hA
    exact ⟨[], .ofTokens (s :: B), _, turns_nil ▸ .nil, rfl, Nat.lt_succ_self _, rfl, rfl⟩
  · let P : Passage := ⟨[], A, s :: B, hA, heads_cons rfl hs⟩
    have hb : P.Beside (Cursor.ofTokens A).clear (Cursor.ofTokens (A ++ s :: B)).clear :=
      ⟨rfl, rfl, rfl, Nat.zero_le _, .none⟩
    obtain ⟨us, e, k, hturns, hrest, hk, htokens, hindex⟩ := Passage.beside_turnsUpTo hb
      (n := A.length + 1) (m := (A ++ s :: B).length + 1) (Nat.lt_succ_self _) (Nat.lt_succ_self _)
    refine ⟨us, e, k, hturns.imp fun t u h => ?_, hrest, hk, htokens, hindex⟩
    refine ⟨h.inside, u.fault, h.eq, ?_⟩
    have hfault := h.fault
    generalize t.fault = x, u.fault = y at hfault ⊢
    cases hfault with
    | none => exact .none
    | some hplace =>
      obtain ⟨hindex, -, hsame⟩ := hplace
      refine .some ⟨hindex, hsame.imp_right ?_⟩
      rintro ⟨hend, v, hv, hspan⟩
      cases hv
      exact ⟨hend, hspan⟩

/-- The turns behind a separator. -/
theorem turns_behind (A B : List Token) (hs : s.lexeme = .fixed .separator) {e : Cursor} {k : Nat}
    (hk : e.remaining < k) (htokens : e.tokens = (A ++ s :: B).toArray)
    (hindex : e.index = A.length) :
    (turnsUpTo k e).1 = (turns B).map (Turn.moved (A.length + 1)) := by
  have hsize : e.tokens.size = A.length + (B.length + 1) := by
    rw [htokens, List.size_toArray, List.length_append, List.length_cons]
  have hpeek : e.peek = some s := by
    unfold Cursor.peek
    rw [htokens, hindex, List.getElem?_toArray, List.getElem?_append_right (Nat.le_refl _),
      Nat.sub_self, List.getElem?_cons_zero]
  have hnext : e.advance = e.restore (A.length + 1) := by
    rw [Cursor.advance_eq (by omega), hindex]
  obtain ⟨k, rfl⟩ : ∃ j, k = j + 1 := Nat.exists_eq_succ_of_ne_zero (by omega)
  rw [Passage.turnsUpTo_congr (skipSeparators_advance hs hpeek)]
  by_cases hB : B = []
  · subst hB
    rw [turns_nil, turnsUpTo_of_size_le (by rw [hnext]; exact Nat.le_of_eq hsize)]
    rfl
  · let P : Passage := ⟨A ++ [s], B, [], hB, heads_nil _⟩
    have hwhole : A ++ s :: B = P.before ++ P.body ++ P.behind := by simp [P]
    have hlength : P.before.length = A.length + 1 := by simp [P]
    have hb : P.Beside (Cursor.ofTokens B).clear e.advance.clear := by
      rw [hnext]
      exact ⟨rfl, htokens.trans (congrArg _ hwhole), by rw [hlength]; exact (Nat.zero_add _).symm,
        Nat.zero_le _, .none⟩
    obtain ⟨us, e', k', hturns, hrest, -, htokens', hindex'⟩ := Passage.beside_turnsUpTo hb
      (n := B.length + 1) (m := k + 1) (Nat.lt_succ_self _) (by
        rw [hnext]
        show e.tokens.size - (A.length + 1) < k + 1
        unfold Cursor.remaining at hk
        omega)
    have hend : (turnsUpTo k' e').1 = [] := by
      refine turnsUpTo_of_size_le ?_ _
      rw [htokens', hindex', hnext, hlength]
      show e.tokens.size ≤ B.length + (A.length + 1)
      omega
    have hmoved : List.Forall₂ (fun t u => Turn.moved (A.length + 1) t = u) (turns B) us :=
      hturns.imp fun t u h => by rw [h.eq_moved rfl, hlength]
    rw [← List.forall₂_map_left_iff, List.forall₂_eq_eq_eq] at hmoved
    rw [hrest, hend, List.append_nil, hmoved]

/-- The fault that a turn reports. -/
def Turn.reported (t : Turn) : Option Fault := t.fault.map Prod.snd

/-- The faults of the declarations that begin at a place or behind it. -/
def faultsFrom (i : Nat) (tokens : List Token) : List Fault :=
  ((turns tokens).filter fun t => i ≤ t.start).filterMap Turn.reported

/-- Turns in front of a token read the same trees, begin in front of it, and report
the same faults, but for those about the token. -/
theorem before_of_forall₂ {n : Nat} {ts us : List Turn}
    (h : List.Forall₂ (Turn.SameBefore s n) ts us) :
    us.filterMap Turn.tree = ts.filterMap Turn.tree ∧ (us.filter fun t => n ≤ t.start) = [] ∧
      List.Forall₂ (fun f g => g = f ∨ g.span = some s.span)
        (ts.filterMap Turn.reported) (us.filterMap Turn.reported) := by
  induction h with
  | nil => exact ⟨rfl, rfl, .nil⟩
  | @cons t u ts us hu _ ih =>
    obtain ⟨htrees, hstart, hfaults⟩ := ih
    obtain ⟨hlt, fault, rfl, hrel⟩ := hu
    refine ⟨?_, ?_, ?_⟩
    · simp only [List.filterMap_cons, htrees]
    · rw [List.filter_cons_of_neg (by simpa using hlt), hstart]
    · simp only [List.filterMap_cons, Turn.reported]
      generalize t.fault = x at hrel ⊢
      cases hrel with
      | none => exact hfaults
      | some hplace => exact .cons (hplace.2.imp_right And.right) hfaults

theorem reported_moved (n : Nat) (ts : List Turn) :
    (ts.map (Turn.moved n)).filterMap Turn.reported = ts.filterMap Turn.reported := by
  rw [List.filterMap_map]
  congr 1
  funext t
  simp only [Function.comp_apply, Turn.reported, Turn.moved, Option.map_map]
  rfl

/-- What stands in front of a separator and what stands behind it is read as if it
were alone. The trees are those of both parts, and so are the faults: those of the
second part are its own, and those of the first part differ at most where they are
about the separator. -/
theorem parse_separated (A B : List Token) (hs : s.lexeme = .fixed .separator) :
    (parse (A ++ s :: B)).1 = (parse A).1 ++ (parse B).1 ∧
      (parse (A ++ s :: B)).2.length = (parse A).2.length + (parse B).2.length ∧
      faultsFrom A.length (A ++ s :: B) = (parse B).2 ∧
      ∃ faults, (parse (A ++ s :: B)).2 = faults ++ (parse B).2 ∧
        List.Forall₂ (fun f g => g = f ∨ g.span = some s.span) (parse A).2 faults := by
  obtain ⟨us, e, k, hus, hturns, hk, htokens, hindex⟩ := turns_front A B hs
  rw [turns_behind A B hs hk htokens hindex] at hturns
  obtain ⟨htrees, hstart, hfaults⟩ := before_of_forall₂ hus
  have hread (ts : List Token) : parse ts =
      ((turns ts).filterMap Turn.tree, (turns ts).filterMap Turn.reported) := parse_turns ts
  have hlater : ((turns B).map (Turn.moved (A.length + 1))).filter (fun t => A.length ≤ t.start) =
      (turns B).map (Turn.moved (A.length + 1)) := by
    refine List.filter_eq_self.mpr fun u hu => ?_
    obtain ⟨t, -, rfl⟩ := List.mem_map.mp hu
    exact decide_eq_true (by simp only [Turn.moved]; omega)
  rw [hread, hread, hread]
  dsimp only
  unfold faultsFrom
  rw [hturns, List.filterMap_append, List.filterMap_append, List.filter_append, hstart, hlater,
    List.nil_append, reported_moved, htrees, List.length_append, ← hfaults.length_eq]
  refine ⟨?_, rfl, rfl, _, rfl, hfaults⟩
  rw [List.filterMap_map]
  rfl

/-- In `let x = ;; let y = fun ;; 2` both bindings are broken; the fault of the
second one is the one that it has alone. -/
theorem parse_separated_broken :
    let tokens := List.map fun l : Lexeme => (⟨l, {}⟩ : Token)
    let A := tokens [.fixed .let_, .word .ident "x", .fixed .equals]
    let B := tokens [.fixed .let_, .word .ident "y", .fixed .equals, .fixed .fun_,
      .fixed .separator, .word .integer "2"]
    let s : Token := ⟨.fixed .separator, {}⟩
    s.lexeme = .fixed .separator ∧ (parse A).2.length = 1 ∧ (parse B).2.length = 1 ∧
      (parse (A ++ s :: B)).1 = (parse A).1 ++ (parse B).1 ∧
      (parse (A ++ s :: B)).2.length = 2 ∧ faultsFrom A.length (A ++ s :: B) = (parse B).2 := by
  intro tokens A B s
  have hs : s.lexeme = .fixed .separator := rfl
  have hA : (parse A).2.length = 1 := by decide +kernel
  have hB : (parse B).2.length = 1 := by decide +kernel
  obtain ⟨htrees, hlength, hfaults, -⟩ := parse_separated A B hs
  exact ⟨hs, hA, hB, htrees, by rw [hlength, hA, hB], hfaults⟩

end Grammar
end MiniML
