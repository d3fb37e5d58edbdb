import MiniML.Grammar.Program
import MiniML.Proofs.Grammar.Accept

/-!
# A passage read alone and in its place

A passage is a list of tokens that stands among others: it ends with them, or in
front of a separator. A cursor in the passage alone and a cursor in the whole stand
beside each other (`Passage.Beside`) if they have come to the same token of the
passage, with the same faults behind them. No rule of the grammar reads a separator
or looks behind one, so every rule takes two cursors beside each other to two such
cursors, and to the same tree (`Passage.Lockstep`). Faults that are met at the end
of the passage are the one thing that may differ: one parser has met the end of
its tokens there, the other one a separator.

What bounds a repetition or recursion is the number of tokens left, of which there
are more in the whole. Each round takes a token, so that both bounds are as good
as none: the lemmas on them speak of any bounds above what is left of the passage.
-/
namespace MiniML

/-! ## Two cursors -/

/-- A list of tokens among others. -/
structure Passage where
  before : List Token
  body : List Token
  behind : List Token
  nonempty : body ≠ []
  separated : Parser.Heads (· = .fixed .separator) behind

namespace Passage
open MiniML.Parser

/-- What the two cursors meet as a fault at a place of the passage: the same, unless
one of them meets the end and the other one the separator. -/
def SameFault (P : Passage) (i : Nat) (f g : Fault) : Prop :=
  g = f ∨ i = P.body.length ∧ ∃ t ∈ P.behind.head?, g.span = some t.span

/-- The same fault at the same place. -/
def SamePlace (P : Passage) (x y : Nat × Fault) : Prop :=
  y.1 = x.1 + P.before.length ∧ x.1 ≤ P.body.length ∧ P.SameFault x.1 x.2 y.2

/-- `c` stands in the passage alone where `d` stands in the whole. -/
structure Beside (P : Passage) (c d : Cursor) : Prop where
  alone : c.tokens = P.body.toArray
  whole : d.tokens = (P.before ++ P.body ++ P.behind).toArray
  index : d.index = c.index + P.before.length
  inside : c.index ≤ P.body.length
  furthest : Option.Rel P.SamePlace c.furthest d.furthest

variable {P : Passage} {c d c' d' : Cursor}

theorem Beside.peek_left (h : P.Beside c d) : c.peek = P.body[c.index]? := by
  unfold Cursor.peek
  rw [h.alone, List.getElem?_toArray]

theorem Beside.peek_right (h : P.Beside c d) :
    d.peek = if c.index < P.body.length then P.body[c.index]? else P.behind.head? := by
  unfold Cursor.peek
  rw [h.whole, h.index, List.getElem?_toArray, List.append_assoc,
    List.getElem?_append_right (Nat.le_add_left _ _), Nat.add_sub_cancel]
  split
  next hlt => exact List.getElem?_append_left hlt
  next hge =>
    have hend : c.index = P.body.length := Nat.le_antisymm h.inside (Nat.le_of_not_lt hge)
    rw [hend, List.getElem?_append_right (Nat.le_refl _), Nat.sub_self, List.head?_eq_getElem?]

/-- Both cursors see the same token, or one is at its end and the other one behind
the passage. -/
theorem Beside.cases (h : P.Beside c d) :
    (∃ t, c.peek = some t ∧ d.peek = some t ∧ c.index < P.body.length) ∨
      c.peek = none ∧ d.peek = P.behind.head? ∧ c.index = P.body.length := by
  rcases Nat.lt_or_ge c.index P.body.length with hlt | hge
  · refine .inl ⟨P.body[c.index], ?_, ?_, hlt⟩
    · rw [h.peek_left, List.getElem?_eq_getElem hlt]
    · rw [h.peek_right, if_pos hlt, List.getElem?_eq_getElem hlt]
  · refine .inr ⟨?_, ?_, Nat.le_antisymm h.inside hge⟩
    · rw [h.peek_left, List.getElem?_eq_none hge]
    · rw [h.peek_right, if_neg (Nat.not_lt.mpr hge)]

/-- A place of the passage, for both cursors. -/
theorem Beside.restore (h : P.Beside c d) {i : Nat} (hi : i ≤ P.body.length) :
    P.Beside (c.restore i) (d.restore (i + P.before.length)) :=
  ⟨h.alone, h.whole, rfl, hi, h.furthest⟩

/-- Back to where the cursors once stood. -/
theorem Beside.back (h : P.Beside c d) (h' : P.Beside c' d') :
    P.Beside (c'.restore c.index) (d'.restore d.index) := by
  rw [h.index]
  exact h'.restore h.inside

theorem Beside.size (h : P.Beside c d) :
    c.tokens.size = P.body.length ∧
      d.tokens.size = P.before.length + P.body.length + P.behind.length := by
  rw [h.alone, h.whole]
  simp only [List.size_toArray, List.length_append, and_self]

theorem Beside.remaining (h : P.Beside c d) :
    c.remaining = P.body.length - c.index ∧ c.remaining ≤ d.remaining := by
  unfold Cursor.remaining
  rw [h.size.1, h.size.2, h.index]
  omega

theorem Beside.advance (h : P.Beside c d) (hlt : c.index < P.body.length) :
    P.Beside c.advance d.advance ∧ c.advance.index = c.index + 1 := by
  have hc : c.advance = c.restore (c.index + 1) :=
    Cursor.advance_eq (by rw [h.size.1]; exact hlt)
  have hd : d.advance = d.restore (c.index + 1 + P.before.length) := by
    rw [Cursor.advance_eq (by rw [h.size.2, h.index]; omega), h.index, Nat.add_right_comm]
  rw [hc, hd]
  exact ⟨h.restore hlt, rfl⟩

theorem Beside.lastSpan (h : P.Beside c d) (hpos : 0 < c.index) : d.lastSpan = c.lastSpan := by
  obtain ⟨i, hi⟩ := Nat.exists_eq_add_of_lt hpos
  have hc : c.index = i + 1 := by omega
  have hd : d.index = (i + P.before.length) + 1 := by
    rw [h.index]
    omega
  have hlt : i < P.body.length := Nat.lt_of_lt_of_le (by omega) h.inside
  unfold Cursor.lastSpan
  rw [hc, hd]
  dsimp only
  rw [h.whole, h.alone, List.getElem?_toArray, List.getElem?_toArray, List.append_assoc,
    List.getElem?_append_right (Nat.le_add_left _ _), Nat.add_sub_cancel,
    List.getElem?_append_left hlt]

theorem Beside.record (h : P.Beside c d) {f g : Fault} (hfg : P.SameFault c.index f g) :
    P.Beside (c.record f) (d.record g) := by
  have hhere : P.Beside { c with furthest := some (c.index, f) }
      { d with furthest := some (d.index, g) } :=
    ⟨h.alone, h.whole, h.index, h.inside, .some ⟨h.index, h.inside, hfg⟩⟩
  have hrel := h.furthest
  unfold Cursor.record
  cases hc : c.furthest with
  | none =>
    rw [hc] at hrel
    cases hd : d.furthest with
    | none => exact hhere
    | some y =>
      rw [hd] at hrel
      cases hrel
  | some x =>
    rw [hc] at hrel
    cases hd : d.furthest with
    | none =>
      rw [hd] at hrel
      cases hrel
    | some y =>
      rw [hd] at hrel
      obtain ⟨hplace, -, -⟩ : P.SamePlace x y := by
        cases hrel
        assumption
      have hiff : y.1 ≤ d.index ↔ x.1 ≤ c.index := by
        rw [hplace, h.index]
        omega
      dsimp only
      by_cases hle : x.1 ≤ c.index
      · rw [if_pos hle, if_pos (hiff.mpr hle)]
        exact hhere
      · rw [if_neg hle, if_neg (mt hiff.mp hle)]
        exact h

/-- A fault about the next token. -/
theorem Beside.faultHere (h : P.Beside c d) (cause : FaultCause) :
    P.SameFault c.index (c.faultHere cause) (d.faultHere cause) := by
  unfold Cursor.faultHere
  rcases h.cases with ⟨t, hc, hd, -⟩ | ⟨hc, hd, hend⟩
  · rw [hc, hd]
    exact .inl rfl
  · rw [hc, hd]
    cases hhead : P.behind.head? with
    | none =>
      have hpos : 0 < c.index := hend ▸ List.length_pos_of_ne_nil P.nonempty
      dsimp only
      rw [h.lastSpan hpos]
      exact .inl rfl
    | some t => exact .inr ⟨hend, t, hhead, rfl⟩

/-! ## Two parsers -/

variable {α β : Type} {r k : Nat}

/-- Two runs agree: both read the same value and end beside each other, not before
the `i`-th token, or both fail with what is the same fault. -/
inductive Agree (P : Passage) (i : Nat) :
    EStateM.Result Fault Cursor α → EStateM.Result Fault Cursor α → Prop
  | ok {c' d' : Cursor} (a : α) (h : P.Beside c' d') (hi : i ≤ c'.index) :
    P.Agree i (.ok a c') (.ok a d')
  | error {c' d' : Cursor} {f g : Fault} (h : P.Beside c' d') (hfg : P.SameFault c'.index f g) :
    P.Agree i (.error f c') (.error g d')

/-- From cursors beside each other, with less than `r` tokens of the passage left,
the parsers agree, and they take at least `k` tokens if they succeed. -/
def Lockstep (P : Passage) (r k : Nat) (p q : Parser α) : Prop :=
  ∀ c d, P.Beside c d → P.body.length < c.index + r → P.Agree (c.index + k) (p c) (q d)

variable {p q : Parser α}

theorem Agree.mono {x y : EStateM.Result Fault Cursor α} {i j : Nat} (h : P.Agree i x y)
    (hj : j ≤ i) : P.Agree j x y := by
  cases h with
  | ok a h hi => exact .ok a h (Nat.le_trans hj hi)
  | error h hfg => exact .error h hfg

theorem Lockstep.mono {r' l : Nat} (h : P.Lockstep r k p q) (hr : r' ≤ r) (hl : l ≤ k) :
    P.Lockstep r' l p q := fun c d hb hlt => (h c d hb (by omega)).mono (by omega)

/-- Fewer tokens left. -/
theorem Lockstep.later (h : P.Lockstep (r + 1) k p q) : P.Lockstep r k p q :=
  h.mono (Nat.le_succ _) (Nat.le_refl _)

/-- The token that is taken does not matter. -/
theorem Lockstep.weaken (h : P.Lockstep r k p q) : P.Lockstep r 0 p q :=
  h.mono (Nat.le_refl _) (Nat.zero_le _)

/-- No cursor has less than nothing left. -/
theorem lockstep_zero (p q : Parser α) : P.Lockstep 0 k p q := fun _ _ h hlt =>
  absurd h.inside (Nat.not_le.mpr hlt)

theorem lockstep_pure (a : α) : P.Lockstep r 0 (pure a) (pure a) := fun _ _ h _ =>
  .ok a h (Nat.le_refl _)

/-- What is read first may be nothing. -/
theorem Lockstep.bind {f g : α → Parser β} (hp : P.Lockstep r 0 p q)
    (hf : ∀ a, P.Lockstep r k (f a) (g a)) : P.Lockstep r k (p >>= f) (q >>= g) := by
  intro c d hb hlt
  have h := hp c d hb hlt
  show P.Agree _ (EStateM.bind p f c) (EStateM.bind q g d)
  unfold EStateM.bind
  generalize p c = x, q d = y at h ⊢
  cases h with
  | ok a h hi => exact (hf a _ _ h (by omega)).mono (by omega)
  | error h hfg => exact .error h hfg

/-- What is read first takes a token. -/
theorem Lockstep.first {f g : α → Parser β} (hp : P.Lockstep (r + 1) 1 p q)
    (hf : ∀ a, P.Lockstep r 0 (f a) (g a)) : P.Lockstep (r + 1) 1 (p >>= f) (q >>= g) := by
  intro c d hb hlt
  have h := hp c d hb hlt
  show P.Agree _ (EStateM.bind p f c) (EStateM.bind q g d)
  unfold EStateM.bind
  generalize p c = x, q d = y at h ⊢
  cases h with
  | ok a h hi => exact (hf a _ _ h (by omega)).mono hi
  | error h hfg => exact .error h hfg

theorem Lockstep.seqRight {p' q' : Parser β} (hp : P.Lockstep (r + 1) 1 p q)
    (hq : P.Lockstep r 0 p' q') : P.Lockstep (r + 1) 1 (p *> p') (q *> q') :=
  hp.first fun _ => hq

theorem agree_raise {f g : Fault} {i : Nat} (h : P.Beside c d) (hfg : P.SameFault c.index f g) :
    P.Agree (α := α) i (raise f c) (raise g d) := by
  have hindex : (c.record f).index = c.index := by
    unfold Cursor.record
    split
    · rfl
    · split <;> rfl
  exact .error (h.record hfg) (hindex.symm ▸ hfg)

/-- Nothing is read from a separator. -/
theorem lockstep_take {expected : String} {read : Token → Option (Except FaultCause α)}
    (hread : ∀ t, t.lexeme = .fixed .separator → read t = none) :
    P.Lockstep r 1 (take expected read) (take expected read) := by
  intro c d h _
  unfold take
  rcases h.cases with ⟨t, hc, hd, hlt⟩ | ⟨hc, hd, hend⟩
  · rw [hc, hd]
    dsimp only
    split
    next a _ => exact .ok a (h.advance hlt).1 (Nat.le_of_eq (h.advance hlt).2.symm)
    · exact agree_raise h (.inl rfl)
    · exact agree_raise h (.inl rfl)
  · rw [hc, hd]
    cases hhead : P.behind.head? with
    | none =>
      have hpos : 0 < c.index := hend ▸ List.length_pos_of_ne_nil P.nonempty
      dsimp only
      rw [h.lastSpan hpos]
      exact agree_raise h (.inl rfl)
    | some t =>
      dsimp only
      rw [hread t (P.separated t hhead)]
      exact agree_raise h (.inr ⟨hend, t, hhead, rfl⟩)

theorem lockstep_token {f : Fixed} (hf : f ≠ .separator) : P.Lockstep r 1 (token f) (token f) :=
  lockstep_take fun _ ht => if_neg fun h => hf (Lexeme.fixed.inj (h.symm.trans ht))

theorem Beside.nextIs (h : P.Beside c d) {f : Fixed} (hf : f ≠ .separator) :
    d.nextIs f = c.nextIs f := by
  unfold Cursor.nextIs
  rcases h.cases with ⟨t, hc, hd, -⟩ | ⟨hc, hd, -⟩
  · rw [hc, hd]
  · rw [hc, hd]
    cases hhead : P.behind.head? with
    | none => rfl
    | some t =>
      have ht : t.lexeme ≠ .fixed f := fun h =>
        hf (Lexeme.fixed.inj (h.symm.trans (P.separated t hhead)))
      exact decide_eq_false ht

theorem lockstep_nextIs {f : Fixed} (hf : f ≠ .separator) :
    P.Lockstep r 0 (nextIs f) (nextIs f) := fun c d h _ => by
  unfold Parser.nextIs
  rw [h.nextIs hf]
  exact .ok _ h (Nat.le_refl _)

theorem peek_bind (f : Option Token → Parser α) (c : Cursor) : (peek >>= f) c = f c.peek c := rfl

/-- The next token is looked at: it is the same for both, or it does not exist for
one and is at most a separator for the other. -/
theorem lockstep_peek {f g : Option Token → Parser α}
    (htoken : ∀ t c d, P.Beside c d → P.body.length < c.index + r → c.index < P.body.length →
      P.Agree (c.index + k) (f (some t) c) (g (some t) d))
    (hend : ∀ o, (∀ t ∈ o, t.lexeme = .fixed .separator) → P.Lockstep r k (f none) (g o)) :
    P.Lockstep r k (peek >>= f) (peek >>= g) := by
  intro c d h hlt
  rw [peek_bind, peek_bind]
  rcases h.cases with ⟨t, hc, hd, hinside⟩ | ⟨hc, hd, -⟩
  · rw [hd, hc]
    exact htoken t c d h hlt hinside
  · rw [hd, hc]
    exact hend _ P.separated c d h hlt

/-- A token that is there is passed over. -/
theorem agree_skip {f g : Unit → Parser α} (h : P.Beside c d)
    (hlt : P.body.length < c.index + (r + 1)) (hinside : c.index < P.body.length)
    (hf : P.Lockstep r 0 (f ()) (g ())) :
    P.Agree (c.index + 1) ((skip >>= f) c) ((skip >>= g) d) := by
  obtain ⟨hnext, hindex⟩ := h.advance hinside
  show P.Agree _ (f () c.advance) (g () d.advance)
  exact (hf _ _ hnext (by omega)).mono (by omega)

/-! ## Combinators -/

theorem Lockstep.either {p' q' : Parser α} (hp : P.Lockstep r k p q)
    (hq : P.Lockstep r k p' q') : P.Lockstep r k (either p p') (either q q') := by
  intro c d hb hlt
  have h := hp c d hb hlt
  unfold Parser.either
  generalize p c = x, q d = y at h ⊢
  cases h with
  | ok a h hi => exact .ok a h hi
  | error h hfg => exact hq _ _ (hb.back h) hlt

theorem Lockstep.label (name : String) (hp : P.Lockstep r k p q) :
    P.Lockstep r k (label name p) (label name q) := by
  intro c d hb hlt
  have h := hp c d hb hlt
  unfold Parser.label
  generalize p c = x, q d = y at h ⊢
  cases h with
  | ok a h hi => exact .ok a h hi
  | error h hfg =>
    refine agree_raise h (hfg.imp_left ?_)
    rintro rfl
    rfl

/-- A value, or none. -/
theorem agree_optional {f g : Option α → Parser β} {i : Nat} (hp : P.Lockstep r k p q)
    (hb : P.Beside c d) (hlt : P.body.length < c.index + r)
    (hsome : ∀ a c' d', P.Beside c' d' → c.index + k ≤ c'.index →
      P.Agree i (f (some a) c') (g (some a) d'))
    (hnone : ∀ c' d', P.Beside c' d' → c'.index = c.index → P.Agree i (f none c') (g none d')) :
    P.Agree i ((optional p >>= f) c) ((optional q >>= g) d) := by
  have h := hp c d hb hlt
  show P.Agree i (EStateM.bind (optional p) f c) (EStateM.bind (optional q) g d)
  unfold EStateM.bind Parser.optional
  generalize p c = x, q d = y at h ⊢
  cases h with
  | ok a h hi => exact hsome a _ _ h hi
  | error h hfg => exact hnone _ _ (hb.back h) rfl

theorem Lockstep.optional (hp : P.Lockstep r 0 p q) :
    P.Lockstep r 0 (optional p) (optional q) := by
  intro c d hb hlt
  have h := hp c d hb hlt
  unfold Parser.optional
  generalize p c = x, q d = y at h ⊢
  cases h with
  | ok a h hi => exact .ok _ h hi
  | error h hfg => exact .ok none (hb.back h) (Nat.le_refl _)

theorem Lockstep.manyUpTo (hp : P.Lockstep r 1 p q) {n m : Nat} (hn : r ≤ n) (hm : r ≤ m) :
    P.Lockstep r 0 (manyUpTo p n) (manyUpTo q m) := by
  induction r generalizing n m with
  | zero => exact lockstep_zero _ _
  | succ r ih =>
    obtain ⟨n, rfl⟩ := Nat.exists_eq_add_of_lt (Nat.zero_lt_of_lt hn)
    obtain ⟨m, rfl⟩ := Nat.exists_eq_add_of_lt (Nat.zero_lt_of_lt hm)
    have hrest := ih hp.later (n := 0 + n) (m := 0 + m) (by omega) (by omega)
    intro c d hb hlt
    refine agree_optional hp hb hlt (fun a c' d' hb' hi => ?_) fun _ _ h hi =>
      .ok _ h (Nat.le_of_eq hi.symm)
    exact ((hrest.bind fun _ => lockstep_pure _) c' d' hb' (by omega)).mono (by omega)

/-- The number of tokens left bounds what follows. -/
theorem lockstep_remaining {p q : Nat → Parser α}
    (h : ∀ s n m, s ≤ r → s ≤ n + 1 → s ≤ m + 1 → P.Lockstep s k (p n) (q m)) :
    P.Lockstep r k (fun c => p c.remaining c) (fun d => q d.remaining d) := by
  intro c d hb hlt
  obtain ⟨hc, hd⟩ := hb.remaining
  have hinside := hb.inside
  exact h (P.body.length - c.index + 1) _ _ (by omega) (by omega) (by omega) c d hb (by omega)

theorem Lockstep.many (hp : P.Lockstep r 1 p q) : P.Lockstep r 0 (many p) (many q) :=
  lockstep_remaining (p := fun n => Parser.manyUpTo p (n + 1))
    (q := fun n => Parser.manyUpTo q (n + 1))
    fun _ _ _ hs hn hm => (hp.mono hs (Nat.le_refl _)).manyUpTo hn hm

theorem Lockstep.many1 (hp : P.Lockstep (r + 1) 1 p q) :
    P.Lockstep (r + 1) 1 (many1 p) (many1 q) :=
  hp.first fun _ => hp.later.many.bind fun _ => lockstep_pure _

/-- The separators between items are tokens of their own. -/
theorem Lockstep.sepBy1 {f : Fixed} (hf : f ≠ .separator) (hp : P.Lockstep r 1 p q) :
    P.Lockstep r 1 (sepBy1 p (token f)) (sepBy1 q (token f)) := by
  cases r with
  | zero => exact lockstep_zero _ _
  | succ r =>
    have hitem : P.Lockstep (r + 1) 1 (token f *> p) (token f *> q) :=
      (lockstep_token hf).seqRight hp.later.weaken
    exact hp.first fun _ => hitem.later.many.bind fun _ => lockstep_pure _

/-- A rule that calls itself only behind a token. -/
theorem lockstep_unroll {ι : Type} {rule : (ι → Parser α) → ι → Parser α}
    (hrule : ∀ r self self', (∀ i, P.Lockstep r 1 (self i) (self' i)) →
      ∀ i, P.Lockstep (r + 1) 1 (rule self i) (rule self' i))
    {n m : Nat} (hn : r ≤ n) (hm : r ≤ m) (i : ι) :
    P.Lockstep r 1 (unroll rule n i) (unroll rule m i) := by
  induction r generalizing n m i with
  | zero => exact lockstep_zero _ _
  | succ r ih =>
    obtain ⟨n, rfl⟩ := Nat.exists_eq_add_of_lt (Nat.zero_lt_of_lt hn)
    obtain ⟨m, rfl⟩ := Nat.exists_eq_add_of_lt (Nat.zero_lt_of_lt hm)
    exact hrule r _ _ (fun i => ih (n := 0 + n) (m := 0 + m) (by omega) (by omega) i) i

theorem lockstep_recursive {ι : Type} {rule : (ι → Parser α) → ι → Parser α}
    (hrule : ∀ r self self', (∀ i, P.Lockstep r 1 (self i) (self' i)) →
      ∀ i, P.Lockstep (r + 1) 1 (rule self i) (rule self' i)) (i : ι) :
    P.Lockstep r 1 (recursive rule i) (recursive rule i) :=
  lockstep_remaining (p := fun n => unroll rule (n + 1) i) (q := fun n => unroll rule (n + 1) i)
    fun _ _ _ _ hn hm => lockstep_unroll hrule hn hm i

end Passage
end MiniML
