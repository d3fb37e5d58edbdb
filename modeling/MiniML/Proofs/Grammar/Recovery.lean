import MiniML.Grammar.Program
import MiniML.Proofs.Grammar.Onward

/-!
# Where reading resumes

A program is read in turns, one for each declaration that is begun. A `Turn`
writes down where it began, what tree it read and where that ended, the fault
that it reported with the place of the fault, and where the next turn may begin;
`parse_turns` says that the turns account for all trees and all faults.

After a fault, reading resumes at the first separator, `let` or `fun` from some
place on (`nextBoundary`). When the declaration could not be read this place is
that of the fault. When a tree was read it is the end of the tree, and here the
fault may be further on: a list that gave up its last item in the middle is read
without that item, and the fault that ended the item is remembered
(`turns_resume`). A binding inside the item that was given up is then read
as a declaration (`resume_before_fault`).
-/
namespace MiniML.Grammar

/-! ## Turns -/

/-- One turn of the loop that reads declarations. -/
structure Turn where
  /-- Where the declaration begins. -/
  start : Nat
  /-- What was read, unless the declaration was given up. -/
  tree : Option Expr
  /-- Where the tree ended, or where it was given up. -/
  stop : Nat
  /-- What was reported, and the token where it was met. -/
  fault : Option (Nat × Fault)
  /-- Where reading goes on. -/
  resume : Nat

/-- What is wrong with a token behind a tree. -/
def junk (c : Cursor) : Fault :=
  (c.faultHere .unexpectedToken).expecting (Lexeme.fixed .separator).describe

/-- The turn that begins at a cursor, and the cursor behind it. -/
def turn (c : Cursor) : Turn × Cursor :=
  match declaration c.clear with
  | .ok d c' =>
    let next := endDeclaration c.index c'
    let fault := if atBoundary c' then none else (c'.record (junk c')).furthest
    (⟨c.index, some d, c'.index, fault, next.index⟩, next)
  | .error f c' =>
    let next := recover c.index f c'
    (⟨c.index, none, c'.index, (if c'.furthest.isNone then c'.record f else c').furthest,
      next.index⟩, next)

/-- The turns from a cursor on, at most `n`, and where reading ends. -/
def turnsUpTo : Nat → Cursor → List Turn × Cursor
  | 0, c => ([], c)
  | n + 1, c =>
    let c := skipSeparators c
    if c.hasNext then
      let (t, c) := turn c
      let (ts, c) := turnsUpTo n c
      (t :: ts, c)
    else ([], c)

/-- The turns in which a list of tokens is read. -/
def turns (tokens : List Token) : List Turn :=
  (turnsUpTo (tokens.length + 1) (.ofTokens tokens)).1

/-- The first token from a place on that may begin a declaration or stand behind
one; the end if there is none. -/
def nextBoundary (tokens : List Token) (i : Nat) : Nat := i + (tokens.drop i).findIdx isBoundary

theorem turnsUpTo_next {c : Cursor} (n : Nat) (h : (skipSeparators c).hasNext) :
    turnsUpTo (n + 1) c =
      ((turn (skipSeparators c)).1 :: (turnsUpTo n (turn (skipSeparators c)).2).1,
        (turnsUpTo n (turn (skipSeparators c)).2).2) :=
  if_pos h

theorem turnsUpTo_end {c : Cursor} (n : Nat) (h : ¬ (skipSeparators c).hasNext) :
    turnsUpTo (n + 1) c = ([], skipSeparators c) := if_neg h

theorem declarations_eq (n : Nat) (c : Cursor) :
    declarations n c = ((turnsUpTo n c).1.filterMap Turn.tree, (turnsUpTo n c).2) := by
  induction n generalizing c with
  | zero => rfl
  | succ n ih =>
    simp only [declarations, turnsUpTo]
    split
    · unfold turn
      cases declaration (skipSeparators c).clear <;> simp [ih]
    · rfl

/-! ## Skipping -/

variable {c : Cursor}

theorem drop_of_peek {t : Token} (h : c.peek = some t) :
    c.tokens.toList.drop c.index = t :: c.tokens.toList.drop (c.index + 1) := by
  obtain ⟨hlt, rfl⟩ := Array.getElem?_eq_some_iff.mp h
  exact List.drop_eq_getElem_cons (by simpa using hlt)

theorem drop_of_size_le (h : c.tokens.size ≤ c.index) : c.tokens.toList.drop c.index = [] := by
  rw [List.drop_eq_nil_iff, Array.length_toList]
  exact h

/-- Skipping changes the place only: it goes to the first token that fails the
test. -/
theorem skipWhile_eq (p : Token → Bool) (n : Nat) (hn : c.remaining ≤ n) :
    c.skipWhile p n =
      c.restore (c.index + (c.tokens.toList.drop c.index).findIdx fun t => !p t) := by
  induction n generalizing c with
  | zero =>
    rw [drop_of_size_le (Nat.le_of_sub_eq_zero (Nat.le_zero.mp hn))]
    rfl
  | succ n ih =>
    unfold Cursor.skipWhile
    cases h : c.peek with
    | none =>
      rw [drop_of_size_le (Array.getElem?_eq_none_iff.mp h)]
      rfl
    | some t =>
      have hlt : c.index < c.tokens.size := (Array.getElem?_eq_some_iff.mp h).1
      rw [drop_of_peek h, List.findIdx_cons]
      dsimp only
      cases hp : p t with
      | false => rfl
      | true =>
        have hrest : (c.restore (c.index + 1)).remaining ≤ n := by
          show c.tokens.size - (c.index + 1) ≤ n
          unfold Cursor.remaining at hn
          omega
        rw [Cursor.advance_eq hlt, if_pos rfl, ih hrest]
        exact congrArg c.restore (Nat.add_right_comm _ _ _)

theorem skipToBoundary_eq {start : Nat} (hstart : start ≤ c.index) (hin : start < c.tokens.size) :
    skipToBoundary start c =
      c.restore (nextBoundary c.tokens.toList (max c.index (start + 1))) := by
  have hflip : (fun t => !!isBoundary t) = isBoundary := by
    funext t
    exact Bool.not_not _
  unfold skipToBoundary
  rw [skipWhile_eq _ _ (Nat.le_refl _), hflip]
  split
  · next hle =>
    obtain rfl : c.index = start := Nat.le_antisymm hle hstart
    rw [Cursor.advance_eq hin, Nat.max_eq_right (Nat.le_succ _)]
    rfl
  · next hlt =>
    rw [Nat.max_eq_left (by omega)]
    rfl

theorem le_nextBoundary (tokens : List Token) (i : Nat) : i ≤ nextBoundary tokens i :=
  Nat.le_add_right _ _

theorem nextBoundary_le {tokens : List Token} {i : Nat} (h : i ≤ tokens.length) :
    nextBoundary tokens i ≤ tokens.length := by
  have hle : (tokens.drop i).findIdx isBoundary ≤ (tokens.drop i).length :=
    List.findIdx_le_length
  rw [List.length_drop] at hle
  unfold nextBoundary
  omega

/-! ## One turn -/

/-- A fault is remembered here or further on. -/
theorem record_eq (c : Cursor) (f : Fault) :
    ∃ kf, c.record f = { c with furthest := some kf } ∧ c.index ≤ kf.1 := by
  unfold Cursor.record
  split
  · exact ⟨(c.index, f), rfl, Nat.le_refl _⟩
  · next i g h =>
    split
    · exact ⟨(c.index, f), rfl, Nat.le_refl _⟩
    · exact ⟨(i, g), by rw [← h], by omega⟩

/-- To report the furthest fault and resume from a place on. -/
theorem resume_commit {start i : Nat} {kf : Nat × Fault} (hf : c.furthest = some kf)
    (hstart : start ≤ i) (hin : start < c.tokens.size) :
    skipToBoundary start (c.commit.restore i) =
      { tokens := c.tokens, index := nextBoundary c.tokens.toList (max i (start + 1)),
        furthest := none, faults := c.faults ++ [kf.2] } := by
  have hcommit : c.commit = { c with furthest := none, faults := c.faults ++ [kf.2] } := by
    unfold Cursor.commit
    rw [hf]
    rfl
  rw [hcommit]
  exact skipToBoundary_eq hstart hin

/-- What a turn that begins at a cursor comes to. -/
structure Turn.Leads (t : Turn) (c next : Cursor) : Prop where
  start : t.start = c.index
  tokens : next.tokens = c.tokens
  inside : next.Inside
  index : next.index = t.resume
  later : t.start ≤ t.resume
  faults : next.faults = c.faults ++ (t.fault.map Prod.snd).toList
  resume : ∀ kf ∈ t.fault, t.resume = nextBoundary c.tokens.toList
    (max (if t.tree.isSome then t.stop else kf.1) (t.start + 1))
  behind : ∀ kf ∈ t.fault, t.tree.isSome → t.stop ≤ kf.1

/-- A turn that reports a fault. -/
theorem leads_commit {d : Cursor} {tree : Option Expr} {stop i : Nat} {kf : Nat × Fault}
    (hnext : c.index < c.tokens.size) (htokens : d.tokens = c.tokens) (hfaults : d.faults = c.faults)
    (hf : d.furthest = some kf) (hi : c.index ≤ i) (hsize : i ≤ c.tokens.size)
    (hplace : max i (c.index + 1) = max (if tree.isSome then stop else kf.1) (c.index + 1))
    (hbehind : tree.isSome → stop ≤ kf.1) :
    Turn.Leads ⟨c.index, tree, stop, d.furthest, (skipToBoundary c.index (d.commit.restore i)).index⟩
      c (skipToBoundary c.index (d.commit.restore i)) := by
  rw [resume_commit hf hi (htokens ▸ hnext), htokens, hfaults, hf]
  refine ⟨rfl, rfl, ?_, rfl, ?_, rfl, ?_, ?_⟩
  · have hle : max i (c.index + 1) ≤ c.tokens.toList.length := by
      rw [Array.length_toList]
      omega
    simpa [Cursor.Inside] using nextBoundary_le hle
  · exact Nat.le_trans hi (Nat.le_trans (Nat.le_max_left _ _) (le_nextBoundary _ _))
  · rintro _ ⟨⟩
    exact congrArg (nextBoundary c.tokens.toList) hplace
  · rintro _ ⟨⟩
    exact hbehind

theorem endDeclaration_leads {c' : Cursor} {d : Expr} (hnext : c.index < c.tokens.size)
    (hrun : c.clear.Onward c') :
    Turn.Leads ⟨c.index, some d, c'.index,
      if atBoundary c' then none else (c'.record (junk c')).furthest,
      (endDeclaration c.index c').index⟩ c (endDeclaration c.index c') := by
  unfold endDeclaration
  split
  · exact ⟨rfl, hrun.tokens, hrun.inside, rfl, hrun.le, by simp [hrun.faults, Cursor.clear], nofun,
      nofun⟩
  · obtain ⟨kf, hrecord, hkf⟩ := record_eq c' (junk c')
    have hstay : (c'.record (junk c')).commit = (c'.record (junk c')).commit.restore c'.index := by
      rw [hrecord]
      rfl
    have hsize : c'.index ≤ c.tokens.size := hrun.tokens ▸ hrun.inside
    show Turn.Leads ⟨_, _, _, _, (skipToBoundary c.index (c'.record (junk c')).commit).index⟩ c
      (skipToBoundary c.index (c'.record (junk c')).commit)
    rw [hstay]
    exact leads_commit hnext (by rw [hrecord]; exact hrun.tokens) (by rw [hrecord]; exact hrun.faults)
      (by rw [hrecord]) hrun.le hsize rfl fun _ => hkf

theorem recover_leads {c' : Cursor} {f : Fault} (hnext : c.index < c.tokens.size)
    (hrun : c.clear.Onward c') :
    Turn.Leads ⟨c.index, none, c'.index, (if c'.furthest.isNone then c'.record f else c').furthest,
      (recover c.index f c').index⟩ c (recover c.index f c') := by
  have hsize : c'.index ≤ c.tokens.size := hrun.tokens ▸ hrun.inside
  obtain ⟨kf, hfurthest, hle⟩ : ∃ kf,
      (if c'.furthest.isNone then c'.record f else c') = { c' with furthest := some kf } ∧
        kf.1 ≤ c.tokens.size := by
    cases h : c'.furthest with
    | none =>
      exact ⟨(c'.index, f), by simp [Cursor.record, h], hsize⟩
    | some kf =>
      refine ⟨kf, by rw [if_neg nofun, ← h], ?_⟩
      rcases hrun.furthest kf h with hold | ⟨-, hle⟩
      · cases hold
      · exact hle
  unfold recover
  rw [hfurthest]
  refine leads_commit hnext hrun.tokens hrun.faults rfl (Nat.le_max_right _ _)
    (Nat.max_le.mpr ⟨hle, Nat.le_of_lt hnext⟩) ?_ nofun
  show max (max kf.1 c.index) (c.index + 1) = max kf.1 (c.index + 1)
  omega

theorem turn_leads (hnext : c.index < c.tokens.size) : (turn c).1.Leads c (turn c).2 := by
  have hrun := onward_declaration c.clear (Nat.le_of_lt hnext)
  unfold turn
  cases hd : declaration c.clear with
  | ok d c' =>
    rw [hd] at hrun
    exact endDeclaration_leads hnext hrun
  | error f c' =>
    rw [hd] at hrun
    exact recover_leads hnext hrun

/-! ## All turns -/

theorem skipSeparators_inside (hc : c.Inside) :
    (skipSeparators c).Inside ∧ c.index ≤ (skipSeparators c).index ∧
      (skipSeparators c).tokens = c.tokens ∧ (skipSeparators c).faults = c.faults := by
  unfold skipSeparators
  rw [skipWhile_eq _ _ (Nat.le_refl _)]
  refine ⟨?_, Nat.le_add_right _ _, rfl, rfl⟩
  have hle : (c.tokens.toList.drop c.index).findIdx
      (fun t => !decide (t.lexeme = .fixed .separator)) ≤ (c.tokens.toList.drop c.index).length :=
    List.findIdx_le_length
  rw [List.length_drop, Array.length_toList] at hle
  unfold Cursor.Inside at hc ⊢
  show c.index + _ ≤ c.tokens.size
  omega

/-- A turn begins somewhere behind a place in some tokens and leads on. -/
def Turn.From (t : Turn) (tokens : Array Token) (i : Nat) : Prop :=
  ∃ c next, c.tokens = tokens ∧ i ≤ c.index ∧ t.Leads c next

theorem turnsUpTo_from (n : Nat) (hc : c.Inside) :
    (∀ t ∈ (turnsUpTo n c).1, t.From c.tokens c.index) ∧
      ((turnsUpTo n c).1.Pairwise fun t u => t.resume ≤ u.start) ∧
      (turnsUpTo n c).2.faults =
        c.faults ++ (turnsUpTo n c).1.filterMap fun t => t.fault.map Prod.snd := by
  induction n generalizing c with
  | zero => exact ⟨nofun, .nil, by simp [turnsUpTo]⟩
  | succ n ih =>
    obtain ⟨hinside, hle, htokens, hfaults⟩ := skipSeparators_inside hc
    rw [← htokens, ← hfaults]
    by_cases hnext : (skipSeparators c).hasNext
    · rw [turnsUpTo_next n hnext]
      have ht := turn_leads (of_decide_eq_true hnext)
      obtain ⟨hfrom, hordered, hrest⟩ := ih ht.inside
      rw [ht.tokens, ht.index] at hfrom
      refine ⟨List.forall_mem_cons.mpr ⟨⟨_, _, rfl, hle, ht⟩, fun u hu => ?_⟩,
        List.pairwise_cons.mpr ⟨fun u hu => ?_, hordered⟩, ?_⟩
      · obtain ⟨d, next, hd, hi, hu⟩ := hfrom u hu
        exact ⟨d, next, hd, Nat.le_trans hle (Nat.le_trans (ht.start ▸ ht.later) hi), hu⟩
      · obtain ⟨d, next, -, hi, hu⟩ := hfrom u hu
        exact hu.start ▸ hi
      · dsimp only
        rw [hrest, ht.faults, List.filterMap_cons]
        cases (turn (skipSeparators c)).1.fault <;> simp
    · rw [turnsUpTo_end n hnext]
      exact ⟨nofun, .nil, by simp⟩

/-- The turns account for all trees and all faults. -/
theorem parse_turns (tokens : List Token) :
    parse tokens =
      ((turns tokens).filterMap Turn.tree, (turns tokens).filterMap fun t => t.fault.map Prod.snd) := by
  have hc : (Cursor.ofTokens tokens).Inside := Nat.zero_le _
  show ((declarations (tokens.length + 1) (.ofTokens tokens)).1,
    (declarations (tokens.length + 1) (.ofTokens tokens)).2.faults) = _
  rw [declarations_eq]
  exact congrArg (Prod.mk _) (turnsUpTo_from _ hc).2.2

/-- After a turn that reports a fault, reading resumes at the first boundary from
the place of the fault on, if the declaration was given up, and from the end of
the tree on, if one was read; at least one token behind the start in both cases.
The fault is not before the end of the tree. No turn begins before the place
where an earlier one has resumed. -/
theorem turns_resume (tokens : List Token) :
    parse tokens =
        ((turns tokens).filterMap Turn.tree,
          (turns tokens).filterMap fun t => t.fault.map Prod.snd) ∧
      ((turns tokens).Pairwise fun t u => t.resume ≤ u.start) ∧
      ∀ t ∈ turns tokens, ∀ kf ∈ t.fault,
        (t.tree = none → t.resume = nextBoundary tokens (max kf.1 (t.start + 1))) ∧
        (t.tree ≠ none → t.resume = nextBoundary tokens (max t.stop (t.start + 1)) ∧
          t.stop ≤ kf.1) := by
  have hc : (Cursor.ofTokens tokens).Inside := Nat.zero_le _
  obtain ⟨hfrom, hordered, -⟩ := turnsUpTo_from (tokens.length + 1) hc
  refine ⟨parse_turns tokens, hordered, fun t ht kf hkf => ?_⟩
  obtain ⟨c, next, htokens, -, hleads⟩ := hfrom t ht
  have hresume := hleads.resume kf hkf
  rw [show c.tokens.toList = tokens by rw [htokens]; rfl] at hresume
  constructor
  · intro hnone
    simpa [hnone] using hresume
  · intro hsome
    have hsome := Option.isSome_iff_ne_none.mpr hsome
    exact ⟨by simpa [hsome] using hresume, hleads.behind kf hkf hsome⟩

/-- Where a turn began and where its fault was met, whether it read a tree, and
where reading goes on. -/
def Turn.places (t : Turn) : Nat × Option Nat × Bool × Nat :=
  (t.start, t.fault.map Prod.fst, t.tree.isSome, t.resume)

theorem exists_turn (tokens : List Token) {start k resume : Nat} {read : Bool}
    (h : (start, some k, read, resume) ∈ (turns tokens).map Turn.places) :
    ∃ t ∈ turns tokens, ∃ kf ∈ t.fault,
      t.start = start ∧ kf.1 = k ∧ t.tree.isSome = read ∧ t.resume = resume := by
  obtain ⟨t, ht, hplaces⟩ := List.mem_map.mp h
  obtain ⟨hstart, hk, hread, hresume⟩ : t.start = start ∧ t.fault.map Prod.fst = some k ∧
      t.tree.isSome = read ∧ t.resume = resume := by simpa [Turn.places] using hplaces
  obtain ⟨kf, hkf, hk⟩ := Option.map_eq_some_iff.mp hk
  exact ⟨t, ht, kf, hkf, hstart, hk, hread, hresume⟩

/-- `let x = (let y = 1) ;; 2 )`: the first declaration is given up at the closing
parenthesis, behind the inner `let`, and the second one is read up to the other
parenthesis. -/
theorem turns_resume_both :
    let tokens : List Token :=
      [.fixed .let_, .word .ident "x", .fixed .equals, .fixed .lparen, .fixed .let_,
        .word .ident "y", .fixed .equals, .word .integer "1", .fixed .rparen, .fixed .separator,
        .word .integer "2", .fixed .rparen].map fun l => ⟨l, {}⟩
    (∃ t ∈ turns tokens, ∃ kf ∈ t.fault, t.start = 0 ∧ kf.1 = 8 ∧ t.tree = none ∧
        t.resume = nextBoundary tokens 8) ∧
      ∃ t ∈ turns tokens, ∃ kf ∈ t.fault, t.start = 10 ∧ kf.1 = 11 ∧ t.tree ≠ none ∧
        t.resume = nextBoundary tokens (max t.stop 11) ∧ t.stop ≤ 11 := by
  intro tokens
  have hplaces : (turns tokens).map Turn.places =
      [(0, some 8, false, 9), (10, some 11, true, 12)] := by decide +kernel
  have hresume := (turns_resume tokens).2.2
  constructor
  · obtain ⟨t, ht, kf, hkf, hstart, hk, htree, -⟩ :=
      exists_turn tokens (hplaces ▸ List.mem_cons_self)
    have hnone : t.tree = none := by simpa using htree
    refine ⟨t, ht, kf, hkf, hstart, hk, hnone, ?_⟩
    simpa [hk, hstart] using (hresume t ht kf hkf).1 hnone
  · obtain ⟨t, ht, kf, hkf, hstart, hk, htree, -⟩ :=
      exists_turn tokens (hplaces ▸ List.mem_cons_of_mem _ List.mem_cons_self)
    have hsome : t.tree ≠ none := Option.isSome_iff_ne_none.mp htree
    refine ⟨t, ht, kf, hkf, hstart, hk, hsome, ?_⟩
    simpa [hk, hstart] using (hresume t ht kf hkf).2 hsome

/-- A tree may be read where a fault was met further on: in
`match x with a -> b | c -> (let y = 1) ;; let z = 2` the second alternative is
given up at the closing parenthesis, and the tree ends before it. Reading resumes
at the inner `let`, which stands before the fault and is read as a declaration. -/
theorem resume_before_fault : ¬ ∀ tokens, ∀ t ∈ turns tokens, ∀ kf ∈ t.fault,
    t.resume = nextBoundary tokens (max kf.1 (t.start + 1)) := by
  intro h
  let tokens : List Token :=
    [.fixed .match_, .word .ident "x", .fixed .with_, .word .ident "a", .fixed .arrow,
      .word .ident "b", .fixed .pipe, .word .ident "c", .fixed .arrow, .fixed .lparen,
      .fixed .let_, .word .ident "y", .fixed .equals, .word .integer "1", .fixed .rparen,
      .fixed .separator, .fixed .let_, .word .ident "z", .fixed .equals, .word .integer "2"].map
        fun l => ⟨l, {}⟩
  have hplaces : (turns tokens).map Turn.places =
      [(0, some 14, true, 10), (10, some 14, true, 15), (16, none, true, 20)] := by decide +kernel
  obtain ⟨t, ht, kf, hkf, hstart, hk, -, hresume⟩ :=
    exists_turn tokens (hplaces ▸ List.mem_cons_self)
  have hclaim := h tokens t ht kf hkf
  rw [hstart, hk, hresume] at hclaim
  exact absurd hclaim (by decide)

end MiniML.Grammar
