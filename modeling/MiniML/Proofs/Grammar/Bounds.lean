import MiniML.Proofs.Grammar.LockstepRules

/-!
# Bounds that are never reached

The parsers of a recursive rule are the rule unrolled once more than there are tokens
left, and a repetition takes as many rounds at most. A rule that calls itself only behind
a token (`Parser.Guarded`) does not come to the bottom of this: whatever is put below the
last level is not asked, so that the rule without a bound comes to an end as well, with
the same result (`Parser.Settles`). And if each round of a repetition takes a token, there
is none for the rounds in excess.

That two such runs are the same is known for cursors beside each other
(`Passage.Lockstep`). Here both cursors are one, and the passage is the whole list of
tokens; only the end of the tokens, where nothing is left to read, is looked at apart
(`Parser.Ends`).

Results:
* `Parser.settles`: a guarded rule comes to an end wherever it begins, behind a token if
  it succeeds.
* `Parser.Steady.manyUpTo_eq`: so does a repetition.
-/
namespace MiniML
open MiniML.Parser

/-! ## At the end of the tokens -/

/-- A cursor that has not moved, with no new fault but here. -/
structure Cursor.Stays (c c' : Cursor) : Prop where
  tokens : c'.tokens = c.tokens
  index : c'.index = c.index
  furthest : ∀ kf ∈ c'.furthest, kf ∈ c.furthest ∨ kf.1 = c.index

namespace Cursor

variable {c d e : Cursor}

theorem Stays.refl (c : Cursor) : c.Stays c := ⟨rfl, rfl, fun _ => .inl⟩

theorem Stays.trans (h : c.Stays d) (h' : d.Stays e) : c.Stays e where
  tokens := h'.tokens.trans h.tokens
  index := h'.index.trans h.index
  furthest := fun kf hkf => by
    rcases h'.furthest kf hkf with hd | hd
    · exact h.furthest kf hd
    · exact .inr (hd.trans h.index)

theorem Stays.restore (h : c.Stays d) : c.Stays (d.restore c.index) := ⟨h.tokens, rfl, h.furthest⟩

theorem Stays.peek (h : c.Stays d) : d.peek = c.peek := by
  unfold Cursor.peek
  rw [h.tokens, h.index]

theorem stays_record (c : Cursor) (f : Fault) : c.Stays (c.record f) := by
  have hhere : c.Stays { c with furthest := some (c.index, f) } :=
    ⟨rfl, rfl, fun kf hkf => by
      cases hkf
      exact .inr rfl⟩
  unfold record
  split
  · exact hhere
  · split
    · exact hhere
    · exact .refl c

end Cursor

namespace Parser

variable {α β ι : Type} {p q : Parser α}

/-- At the end of the tokens both parsers fail, in the same way, and stay. -/
def Ends (p q : Parser α) : Prop :=
  ∀ c : Cursor, c.peek = none →
    ∃ f c', p c = .error f c' ∧ q c = .error f c' ∧ c.Stays c'

theorem ends_take (expected : String) (read : Token → Option (Except FaultCause α)) :
    Ends (take expected read) (take expected read) := by
  intro c hc
  unfold take
  rw [hc]
  exact ⟨_, _, rfl, rfl, Cursor.stays_record c _⟩

theorem ends_token (f : Fixed) : Ends (token f) (token f) := ends_take _ _

theorem Ends.bind {f g : α → Parser β} (h : Ends p q) : Ends (p >>= f) (q >>= g) := by
  intro c hc
  obtain ⟨e, c', hp, hq, hstays⟩ := h c hc
  refine ⟨e, c', ?_, ?_, hstays⟩
  · show EStateM.bind p f c = _
    unfold EStateM.bind
    rw [hp]
  · show EStateM.bind q g c = _
    unfold EStateM.bind
    rw [hq]

theorem Ends.seqRight {p' q' : Parser β} (h : Ends p q) : Ends (p *> p') (q *> q') := h.bind

theorem Ends.either {p' q' : Parser α} (h : Ends p q) (h' : Ends p' q') :
    Ends (either p p') (either q q') := by
  intro c hc
  obtain ⟨_, d, hp, hq, hstays⟩ := h c hc
  have hback := hstays.restore
  obtain ⟨f, c', hp', hq', hstays'⟩ := h' (d.restore c.index) (hback.peek.trans hc)
  unfold Parser.either
  rw [hp, hq]
  exact ⟨f, c', hp', hq', hback.trans hstays'⟩

theorem Ends.label (name : String) (h : Ends p q) : Ends (label name p) (label name q) := by
  intro c hc
  obtain ⟨f, d, hp, hq, hstays⟩ := h c hc
  unfold Parser.label
  rw [hp, hq]
  exact ⟨_, _, rfl, rfl, hstays.trans (Cursor.stays_record d _)⟩

/-- What looks at the next token, and finds none. -/
theorem ends_peek {f g : Option Token → Parser α} (h : Ends (f none) (g none)) :
    Ends (peek >>= f) (peek >>= g) := by
  intro c hc
  show ∃ e c', f c.peek c = .error e c' ∧ g c.peek c = .error e c' ∧ c.Stays c'
  rw [hc]
  exact h c hc

theorem Ends.manyUpTo (h : Ends p p) {c : Cursor} (hc : c.peek = none) {n m : Nat} (hn : 0 < n)
    (hm : 0 < m) : manyUpTo p n c = manyUpTo p m c := by
  obtain ⟨f, c', hp, -, -⟩ := h c hc
  have hstop (k : Nat) : Parser.manyUpTo p (k + 1) c = .ok [] (c'.restore c.index) := by
    show EStateM.bind (optional p) _ c = _
    unfold EStateM.bind optional
    rw [hp]
    rfl
  obtain ⟨n, rfl⟩ := Nat.exists_eq_succ_of_ne_zero (Nat.ne_of_gt hn)
  obtain ⟨m, rfl⟩ := Nat.exists_eq_succ_of_ne_zero (Nat.ne_of_gt hm)
  rw [hstop, hstop]

end Parser

/-! ## One cursor twice -/

namespace Passage

/-- All of the tokens. -/
def all (tokens : List Token) (h : tokens ≠ []) : Passage := ⟨[], tokens, [], h, heads_nil _⟩

variable {α ι : Type} {tokens : List Token} {hne : tokens ≠ []} {c d : Cursor} {k r : Nat}

theorem beside_all (htokens : c.tokens = tokens.toArray) (hc : c.Inside)
    (hfar : ∀ kf ∈ c.furthest, kf.1 ≤ c.tokens.size) : (all tokens hne).Beside c c where
  alone := htokens
  whole := by simpa [all] using htokens
  index := rfl
  inside := by simpa [Cursor.Inside, htokens, all] using hc
  furthest := by
    cases hf : c.furthest with
    | none => exact .none
    | some kf => exact .some ⟨rfl, by simpa [htokens, all] using hfar kf hf, .inl rfl⟩

theorem Beside.eq_all (h : (all tokens hne).Beside c d) (hfaults : d.faults = c.faults) :
    d = c := by
  have htokens : d.tokens = c.tokens := by
    rw [h.alone, h.whole]
    simp [all]
  have hfurthest : d.furthest = c.furthest := by
    have hrel := h.furthest
    generalize c.furthest = x, d.furthest = y at hrel ⊢
    cases hrel with
    | none => rfl
    | @some kf kg hsame =>
      obtain ⟨hindex, -, hfault | ⟨-, t, ht, -⟩⟩ := hsame
      · exact congrArg some (Prod.ext hindex hfault)
      · cases ht
  obtain ⟨ctokens, cindex, cfurthest, cfaults⟩ := c
  obtain ⟨dtokens, dindex, dfurthest, dfaults⟩ := d
  obtain rfl : dindex = cindex := h.index
  simp_all

theorem Agree.eq_all {x y : EStateM.Result Fault Cursor α} (h : (all tokens hne).Agree k x y)
    (hfaults : (after y).faults = (after x).faults) : x = y := by
  cases h with
  | ok a h _ => rw [h.eq_all hfaults]
  | error h hfg =>
    rw [h.eq_all hfaults]
    rcases hfg with hfg | ⟨-, t, ht, -⟩
    · rw [hfg]
    · cases ht

/-- Where a token is left, parsers that agree on all of the tokens that are left do the
same. -/
theorem eq_of_lockstep {p q : Parser α} {t : Token} (ht : c.peek = some t)
    (hfar : ∀ kf ∈ c.furthest, kf.1 ≤ c.tokens.size) (hp : Onward p) (hq : Onward q)
    (hlock : ∀ P : Passage, P.Lockstep (c.remaining + 1) k p q) :
    p c = q c ∧ ∀ a c', p c = .ok a c' → c.index + k ≤ c'.index := by
  have hlt : c.index < c.tokens.size := (Array.getElem?_eq_some_iff.mp ht).1
  have hne : c.tokens.toList ≠ [] := by
    rintro hnil
    rw [← Array.length_toList, hnil] at hlt
    cases hlt
  have hc : c.Inside := Nat.le_of_lt hlt
  have hagree := hlock (all c.tokens.toList hne) c c (beside_all rfl hc hfar) (by
    show c.tokens.toList.length < _
    unfold Cursor.remaining
    rw [Array.length_toList]
    omega)
  refine ⟨hagree.eq_all ((hq c hc).faults.trans (hp c hc).faults.symm), fun a c' hrun => ?_⟩
  rw [hrun] at hagree
  generalize q c = y at hagree
  cases hagree with
  | ok _ _ hi => exact hi

end Passage

/-! ## Recursive rules -/

namespace Parser

variable {α ι : Type} {rule : (ι → Parser α) → ι → Parser α} {base : ι → Parser α}

/-- Unroll a recursive rule `n` times, with any parsers below. -/
def unrollOver (base : ι → Parser α) (rule : (ι → Parser α) → ι → Parser α) : Nat → ι → Parser α
  | 0, i => base i
  | n + 1, i => rule (unrollOver base rule n) i

/-- A rule that calls itself for further goals only after it has taken a token. -/
structure Guarded (rule : (ι → Parser α) → ι → Parser α) : Prop where
  onward : ∀ self, (∀ i, Onward (self i)) → ∀ i, Onward (rule self i)
  lockstep : ∀ (P : Passage) r self self', (∀ i, P.Lockstep r 1 (self i) (self' i)) →
    ∀ i, P.Lockstep (r + 1) 1 (rule self i) (rule self' i)
  ends : ∀ self self' i, Ends (rule self i) (rule self' i)

/-- The parser that a recursive rule is for a goal comes to an end at a cursor: it does not
depend on what is below as many levels as there are tokens left, and one more. It goes on,
by a token at least if it succeeds, and remembers faults from there on. -/
structure Settles (rule : (ι → Parser α) → ι → Parser α) (i : ι) (p : Parser α) (c : Cursor) :
    Prop where
  unrolled : ∀ base, (∀ i, Onward (base i)) → ∀ n, c.remaining < n →
    unrollOver base rule n i c = p c
  taken : ∀ a c', p c = .ok a c' → c.index < c'.index
  kept : ∀ f c', p c = .error f c' → c.index ≤ c'.index
  tokens : (after (p c)).tokens = c.tokens
  inside : c.index ≤ c.tokens.size → (after (p c)).index ≤ c.tokens.size
  furthest : c.index ≤ c.tokens.size → c.furthest = none →
    ∀ kf ∈ (after (p c)).furthest, c.index ≤ kf.1 ∧ kf.1 ≤ c.tokens.size

theorem onward_unrollOver (hrule : Guarded rule) (hbase : ∀ i, Onward (base i)) (n : Nat) (i : ι) :
    Onward (unrollOver base rule n i) := by
  induction n generalizing i with
  | zero => exact hbase i
  | succ n ih => exact hrule.onward _ ih i

theorem lockstep_unrollOver {P : Passage} {r n m : Nat} (hrule : Guarded rule) (hn : r ≤ n)
    (hm : r ≤ m) (i : ι) : P.Lockstep r 1 (unrollOver base rule n i) (unroll rule m i) := by
  induction r generalizing n m i with
  | zero => exact Passage.lockstep_zero _ _
  | succ r ih =>
    obtain ⟨n, rfl⟩ := Nat.exists_eq_succ_of_ne_zero (Nat.ne_zero_of_lt hn)
    obtain ⟨m, rfl⟩ := Nat.exists_eq_succ_of_ne_zero (Nat.ne_zero_of_lt hm)
    exact hrule.lockstep P r _ _ (ih (Nat.le_of_succ_le_succ hn) (Nat.le_of_succ_le_succ hm)) i

theorem settles (hrule : Guarded rule) (i : ι) {c : Cursor}
    (hfar : ∀ kf ∈ c.furthest, kf.1 ≤ c.tokens.size) : Settles rule i (recursive rule i) c := by
  have honward : Onward (recursive rule i) := onward_recursive hrule.onward i
  cases ht : c.peek with
  | none =>
    have hends (self self' : ι → Parser α) := hrule.ends self self' i c ht
    obtain ⟨f, c', hrun, -, hstays⟩ : ∃ f c', recursive rule i c = .error f c' ∧
        recursive rule i c = .error f c' ∧ c.Stays c' := hends _ _
    refine ⟨fun base _ n hn => ?_, fun a d h => ?_, fun g d h => ?_, ?_, ?_, ?_⟩
    · obtain ⟨n, rfl⟩ := Nat.exists_eq_succ_of_ne_zero (Nat.ne_zero_of_lt hn)
      obtain ⟨f, c', hbase, hself, -⟩ := hends (unrollOver base rule n) (unroll rule c.remaining)
      exact hbase.trans hself.symm
    · cases hrun.symm.trans h
    · cases hrun.symm.trans h
      exact Nat.le_of_eq hstays.index.symm
    · rw [hrun]
      exact hstays.tokens
    · rw [hrun]
      exact fun hc => Nat.le_trans (Nat.le_of_eq hstays.index) hc
    · rw [hrun]
      intro hc hnone kf hkf
      rcases hstays.furthest kf hkf with hold | hhere
      · rw [hnone] at hold
        cases hold
      · omega
  | some t =>
    have hc : c.Inside := Nat.le_of_lt (Array.getElem?_eq_some_iff.mp ht).1
    have hon := honward c hc
    have heq (base : ι → Parser α) (hbase : ∀ i, Onward (base i)) (n : Nat)
        (hn : c.remaining < n) :=
      Passage.eq_of_lockstep ht hfar (onward_unrollOver hrule hbase n i)
        (onward_unroll hrule.onward (c.remaining + 1) i)
        fun P => lockstep_unrollOver hrule hn (Nat.le_refl _) i
    refine ⟨fun base hbase n hn => (heq base hbase n hn).1, fun a c' hrun => ?_,
      fun f c' hrun => ?_, hon.tokens, fun _ => hon.tokens ▸ hon.inside, fun _ hnone kf hkf => ?_⟩
    · obtain ⟨hsame, htaken⟩ := heq _ (fun i => onward_recursive hrule.onward i) _
        (Nat.lt_succ_self c.remaining)
      exact htaken a c' (hsame.trans hrun)
    · have hle := hon.le
      rw [hrun] at hle
      exact hle
    · rcases hon.furthest kf hkf with hold | hrange
      · rw [hnone] at hold
        cases hold
      · exact hrange

/-- A parser that is the same with any bounds, and takes a token if it succeeds. -/
structure Steady (p : Parser α) : Prop where
  onward : Onward p
  lockstep : ∀ (P : Passage) (r : Nat), P.Lockstep r 1 p p
  ends : Ends p p

theorem steady_unroll (hrule : Guarded rule) (n : Nat) (i : ι) : Steady (unroll rule n i) := by
  refine ⟨onward_unroll hrule.onward n i, fun P r => ?_, ?_⟩
  · induction n generalizing r i with
    | zero => exact fun c d h _ => .error h (h.faultHere _)
    | succ n ih =>
      cases r with
      | zero => exact Passage.lockstep_zero _ _
      | succ r => exact hrule.lockstep P r _ _ (fun i => ih i r) i
  · cases n with
    | zero => exact fun c _ => ⟨_, c, rfl, rfl, .refl c⟩
    | succ n => exact hrule.ends _ _ i

theorem Steady.behind {p : Parser α} (hp : Steady p) {f : Fixed} (hf : f ≠ .separator) :
    Steady (token f *> p) where
  onward := (onward_token f).seqRight hp.onward
  lockstep := fun P r => by
    cases r with
    | zero => exact Passage.lockstep_zero _ _
    | succ r => exact (Passage.lockstep_token hf).seqRight (hp.lockstep P r).weaken
  ends := (ends_token f).seqRight

/-- To allow more rounds than there are tokens makes no difference. -/
theorem Steady.manyUpTo_eq {p : Parser α} (hp : Steady p) {c : Cursor}
    (hfar : ∀ kf ∈ c.furthest, kf.1 ≤ c.tokens.size) {n : Nat} (hn : c.remaining < n) :
    manyUpTo p n c = many p c := by
  cases ht : c.peek with
  | none => exact hp.ends.manyUpTo ht (Nat.zero_lt_of_lt hn) (Nat.succ_pos _)
  | some t =>
    exact (Passage.eq_of_lockstep ht hfar (hp.onward.manyUpTo n)
      (hp.onward.manyUpTo (c.remaining + 1)) fun P =>
        (hp.lockstep P _).manyUpTo hn (Nat.le_refl _)).1

end Parser
end MiniML
