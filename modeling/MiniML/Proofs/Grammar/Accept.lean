import MiniML.Proofs.Grammar.Onward
import Mathlib.Data.List.Forall2

/-!
# What parsers make of given tokens

`Accepts p ts rest Q` says that from any cursor that stands before the tokens
`ts` the parser `p` goes on to `rest`, with a value of which `Q` holds, and
`Refuses p ts` that it fails there. Neither depends on the tokens behind the
cursor or on the faults that were met before, so such facts are put together along the
combinators: a bind goes through a place in the middle, an alternative is
reached when the one before it refuses, and a repetition goes through a `Row`
of places until it is refused.
-/
namespace MiniML

/-- The tokens from the cursor on. -/
def Cursor.rest (c : Cursor) : List Token := c.tokens.toList.drop c.index

namespace Cursor

variable {c d : Cursor} {t : Token} {ts : List Token}

theorem length_rest (c : Cursor) : c.rest.length = c.remaining := by
  unfold rest remaining
  rw [List.length_drop, Array.length_toList]

theorem peek_eq (c : Cursor) : c.peek = c.rest.head? := by
  unfold peek rest
  rw [List.head?_drop, Array.getElem?_toList]

/-- A later place in the same tokens. -/
theorem rest_restore (h : d.tokens = c.tokens) (k : Nat) :
    (d.restore (c.index + k)).rest = c.rest.drop k := by
  unfold rest
  rw [List.drop_drop, ← h]
  rfl

theorem rest_advance (h : c.rest = t :: ts) : c.advance.rest = ts := by
  have hlt : c.index < c.tokens.size := by
    have hlen := congrArg List.length h
    rw [length_rest, List.length_cons] at hlen
    unfold remaining at hlen
    omega
  rw [advance_eq hlt, rest_restore rfl, h]
  rfl

theorem rest_ofTokens (ts : List Token) : (ofTokens ts).rest = ts := by
  simp [rest, ofTokens]

end Cursor

namespace Parser

/-- The parser reads the tokens up to the rest, to a value with a property. -/
def Accepts {α : Type} (p : Parser α) (ts rest : List Token) (Q : α → Prop) : Prop :=
  ∀ c : Cursor, c.Inside → c.rest = ts →
    ∃ a c', p c = .ok a c' ∧ c.Onward c' ∧ c'.rest = rest ∧ Q a

/-- The parser fails on the tokens. -/
def Refuses {α : Type} (p : Parser α) (ts : List Token) : Prop :=
  ∀ c : Cursor, c.Inside → c.rest = ts → ∃ e c', p c = .error e c' ∧ c.Onward c'

/-- What the next token is, if there is one. -/
def Heads (P : Lexeme → Prop) (ts : List Token) : Prop := ∀ t ∈ ts.head?, P t.lexeme

variable {α β : Type} {p q : Parser α} {ts mid rest : List Token} {t : Token} {Q : α → Prop}

theorem heads_nil (P : Lexeme → Prop) : Heads P [] := nofun

theorem heads_cons {P : Lexeme → Prop} {l : Lexeme} (ht : t.lexeme = l) (hl : P l) :
    Heads P (t :: ts) := by
  rintro _ ⟨⟩
  exact ht ▸ hl

theorem Heads.mono {P P' : Lexeme → Prop} (h : Heads P ts) (hP : ∀ l, P l → P' l) : Heads P' ts :=
  fun t ht => hP _ (h t ht)

section Step

variable {R : β → Prop}

theorem Accepts.mono {Q' : α → Prop} (h : Accepts p ts rest Q) (hQ : ∀ a, Q a → Q' a) :
    Accepts p ts rest Q' := by
  intro c hc hts
  obtain ⟨a, d, hrun, hon, hrest, ha⟩ := h c hc hts
  exact ⟨a, d, hrun, hon, hrest, hQ a ha⟩

theorem accepts_pure {a : α} (h : Q a) : Accepts (pure a) ts ts Q := fun c hc hts =>
  ⟨a, c, rfl, .refl hc, hts, h⟩

theorem Accepts.bind {f : α → Parser β} (hp : Accepts p ts mid Q)
    (hf : ∀ a, Q a → Accepts (f a) mid rest R) : Accepts (p >>= f) ts rest R := by
  intro c hc hts
  obtain ⟨a, d, hpc, hon, hmid, ha⟩ := hp c hc hts
  obtain ⟨b, e, hfd, hon', hrest, hb⟩ := hf a ha d hon.inside hmid
  refine ⟨b, e, ?_, hon.trans hon', hrest, hb⟩
  show EStateM.bind p f c = _
  unfold EStateM.bind
  rw [hpc]
  exact hfd

theorem Accepts.seqRight {q : Parser β} (hp : Accepts p ts mid Q) (hq : Accepts q mid rest R) :
    Accepts (p *> q) ts rest R :=
  hp.bind fun _ _ => hq

theorem Refuses.bind {f : α → Parser β} (hp : Refuses p ts) : Refuses (p >>= f) ts := by
  intro c hc hts
  obtain ⟨e, d, hpc, hon⟩ := hp c hc hts
  refine ⟨e, d, ?_, hon⟩
  show EStateM.bind p f c = _
  unfold EStateM.bind
  rw [hpc]

theorem Accepts.refuses {f : α → Parser β} (hp : Accepts p ts mid Q)
    (hf : ∀ a, Q a → Refuses (f a) mid) : Refuses (p >>= f) ts := by
  intro c hc hts
  obtain ⟨a, d, hpc, hon, hmid, ha⟩ := hp c hc hts
  obtain ⟨e, d', hfd, hon'⟩ := hf a ha d hon.inside hmid
  refine ⟨e, d', ?_, hon.trans hon'⟩
  show EStateM.bind p f c = _
  unfold EStateM.bind
  rw [hpc]
  exact hfd

end Step

/-! ## Single tokens -/

theorem accepts_take {expected : String} {read : Token → Option (Except FaultCause α)} {a : α}
    (h : read t = some (.ok a)) (ha : Q a) : Accepts (take expected read) (t :: rest) rest Q := by
  intro c hc hts
  refine ⟨a, c.advance, ?_, Cursor.onward_advance hc, Cursor.rest_advance hts, ha⟩
  unfold take
  rw [Cursor.peek_eq, hts, List.head?_cons]
  dsimp only
  rw [h]

theorem refuses_take {expected : String} {read : Token → Option (Except FaultCause α)}
    (h : ∀ t ∈ ts.head?, read t = none) : Refuses (take expected read) ts := by
  intro c hc hts
  unfold take
  rw [Cursor.peek_eq, hts]
  cases hhead : ts.head? with
  | none => exact ⟨_, _, rfl, Cursor.onward_record hc _⟩
  | some t =>
    dsimp only
    rw [h t hhead]
    exact ⟨_, _, rfl, Cursor.onward_record hc _⟩

theorem accepts_token {f : Fixed} (h : t.lexeme = .fixed f) :
    Accepts (token f) (t :: rest) rest fun _ => True :=
  accepts_take (by rw [if_pos h]) trivial

theorem refuses_token {f : Fixed} (h : Heads (· ≠ .fixed f) ts) : Refuses (token f) ts :=
  refuses_take fun t ht => if_neg (h t ht)

theorem accepts_peek : Accepts peek ts ts (· = ts.head?) := fun c hc hts =>
  ⟨_, c, rfl, .refl hc, hts, by rw [Cursor.peek_eq, hts]⟩

theorem accepts_nextIs (f : Fixed) (h : t.lexeme = .fixed f) :
    Accepts (nextIs f) (t :: ts) (t :: ts) (· = true) := fun c hc hts =>
  ⟨_, c, rfl, .refl hc, hts, by simp [Cursor.nextIs, Cursor.peek_eq, hts, h]⟩

theorem accepts_nextIs_not {f : Fixed} (h : Heads (· ≠ .fixed f) ts) :
    Accepts (nextIs f) ts ts (· = false) := fun c hc hts =>
  ⟨_, c, rfl, .refl hc, hts, by
    unfold Cursor.nextIs
    rw [Cursor.peek_eq, hts]
    cases hhead : ts.head? with
    | none => rfl
    | some t => exact decide_eq_false (h t hhead)⟩

theorem accepts_skip : Accepts skip (t :: rest) rest fun _ => True := fun _ hc hts =>
  ⟨(), _, rfl, Cursor.onward_advance hc, Cursor.rest_advance hts, trivial⟩

/-- A bound that is taken from the cursor. -/
theorem accepts_remaining {p : Nat → Parser α} (h : Accepts (p ts.length) ts rest Q) :
    Accepts (fun c => p c.remaining c) ts rest Q := by
  intro c hc hts
  show ∃ a c', p c.remaining c = .ok a c' ∧ _
  rw [← c.length_rest, hts]
  exact h c hc hts

/-! ## Alternatives -/

theorem Accepts.either (h : Accepts p ts rest Q) : Accepts (either p q) ts rest Q := by
  intro c hc hts
  obtain ⟨a, d, hpc, h⟩ := h c hc hts
  refine ⟨a, d, ?_, h⟩
  unfold Parser.either
  rw [hpc]

/-- Where a parser has failed, the cursor can go back. -/
theorem Refuses.back (h : Refuses p ts) {c : Cursor} (hc : c.Inside) (hts : c.rest = ts) :
    ∃ e d, p c = .error e d ∧ c.Onward (d.restore c.index) ∧ (d.restore c.index).rest = ts := by
  obtain ⟨e, d, hpc, hon⟩ := h c hc hts
  exact ⟨e, d, hpc, hon.restore hc, (Cursor.rest_restore hon.tokens 0).trans hts⟩

theorem Refuses.either (h : Refuses p ts) (hq : Accepts q ts rest Q) :
    Accepts (either p q) ts rest Q := by
  intro c hc hts
  obtain ⟨e, d, hpc, hon, hback⟩ := h.back hc hts
  obtain ⟨a, d', hqd, hon', h⟩ := hq _ hon.inside hback
  refine ⟨a, d', ?_, hon.trans hon', h⟩
  unfold Parser.either
  rw [hpc]
  exact hqd

theorem refuses_either (h : Refuses p ts) (hq : Refuses q ts) : Refuses (either p q) ts := by
  intro c hc hts
  obtain ⟨e, d, hpc, hon, hback⟩ := h.back hc hts
  obtain ⟨e', d', hqd, hon'⟩ := hq _ hon.inside hback
  refine ⟨e', d', ?_, hon.trans hon'⟩
  unfold Parser.either
  rw [hpc]
  exact hqd

theorem Accepts.label (name : String) (h : Accepts p ts rest Q) :
    Accepts (label name p) ts rest Q := by
  intro c hc hts
  obtain ⟨a, d, hpc, h⟩ := h c hc hts
  refine ⟨a, d, ?_, h⟩
  unfold Parser.label
  rw [hpc]

theorem Accepts.optional (h : Accepts p ts rest Q) :
    Accepts (optional p) ts rest fun o => ∃ a, o = some a ∧ Q a := by
  intro c hc hts
  obtain ⟨a, d, hpc, hon, hrest, ha⟩ := h c hc hts
  refine ⟨some a, d, ?_, hon, hrest, a, rfl, ha⟩
  unfold Parser.optional
  rw [hpc]

theorem Refuses.optional (h : Refuses p ts) : Accepts (optional p) ts ts (· = none) := by
  intro c hc hts
  obtain ⟨e, d, hpc, hon, hback⟩ := h.back hc hts
  refine ⟨none, _, ?_, hon, hback, rfl⟩
  unfold Parser.optional
  rw [hpc]

/-! ## Repetition -/

/-- The parser goes through the tokens in a row of steps, with one value for
each of some items, until it is refused. -/
inductive Row (p : Parser α) (Q : β → α → Prop) : List β → List Token → List Token → Prop
  | nil {ts : List Token} : Refuses p ts → Row p Q [] ts ts
  | cons {x : β} {xs : List β} {ts mid rest : List Token} : Accepts p ts mid (Q x) →
      mid.length < ts.length → Row p Q xs mid rest → Row p Q (x :: xs) ts rest

variable {Q : β → α → Prop} {xs : List β} {x : β}

theorem Row.length_le (h : Row p Q xs ts rest) : xs.length ≤ ts.length := by
  induction h with
  | nil => exact Nat.zero_le _
  | cons _ hlt _ ih => exact Nat.lt_of_le_of_lt ih hlt

theorem accepts_manyUpTo (h : Row p Q xs ts rest) {n : Nat} (hn : xs.length < n) :
    Accepts (manyUpTo p n) ts rest (List.Forall₂ Q xs) := by
  induction h generalizing n with
  | nil hrefuses =>
    obtain ⟨n, rfl⟩ := Nat.exists_eq_succ_of_ne_zero (Nat.ne_of_gt hn)
    refine hrefuses.optional.bind fun o ho => ?_
    subst ho
    exact accepts_pure .nil
  | cons haccepts _ _ ih =>
    obtain ⟨n, rfl⟩ := Nat.exists_eq_succ_of_ne_zero (Nat.ne_of_gt (Nat.zero_lt_of_lt hn))
    refine haccepts.optional.bind fun o ho => ?_
    obtain ⟨a, rfl, ha⟩ := ho
    exact (ih (Nat.lt_of_succ_lt_succ hn)).bind fun as has => accepts_pure (.cons ha has)

theorem accepts_many (h : Row p Q xs ts rest) : Accepts (many p) ts rest (List.Forall₂ Q xs) := by
  intro c hc hts
  have hn : xs.length < c.remaining + 1 := by
    rw [← c.length_rest, hts]
    exact Nat.lt_succ_of_le h.length_le
  exact accepts_manyUpTo h hn c hc hts

theorem accepts_many1 (h : Accepts p ts mid (Q x)) (hs : Row p Q xs mid rest) :
    Accepts (many1 p) ts rest (List.Forall₂ Q (x :: xs)) :=
  h.bind fun _ ha => (accepts_many hs).bind fun _ has => accepts_pure (.cons ha has)

theorem accepts_sepBy1 {γ : Type} {s : Parser γ} (h : Accepts p ts mid (Q x))
    (hrow : Row (s *> p) Q xs mid rest) :
    Accepts (sepBy1 p s) ts rest (List.Forall₂ Q (x :: xs)) :=
  h.bind fun _ ha => (accepts_many hrow).bind fun _ has => accepts_pure (.cons ha has)

/-- A list of one item, where no separator follows. -/
theorem accepts_sepBy1_one {γ : Type} {s : Parser γ} {Q : α → Prop} (h : Accepts p ts rest Q)
    (hs : Refuses s rest) : Accepts (sepBy1 p s) ts rest fun as => ∃ a, as = [a] ∧ Q a := by
  have hrow : Row (s *> p) (fun _ : Unit => Q) [] rest rest := .nil hs.bind
  refine h.bind fun a ha => (accepts_many hrow).bind fun as has => ?_
  cases has
  exact accepts_pure ⟨a, rfl, ha⟩

/-! ## Recursion -/

theorem accepts_recursive {ι : Type} {rule : (ι → Parser α) → ι → Parser α} {i : ι}
    {Q : α → Prop} (h : ∀ n, ts.length < n → Accepts (unroll rule n i) ts rest Q) :
    Accepts (recursive rule i) ts rest Q := by
  intro c hc hts
  have hn : ts.length < c.remaining + 1 := by
    rw [← c.length_rest, hts]
    exact Nat.lt_succ_self _
  exact h _ hn c hc hts

theorem refuses_recursive {ι : Type} {rule : (ι → Parser α) → ι → Parser α} {i : ι}
    (h : ∀ self, Refuses (rule self i) ts) : Refuses (recursive rule i) ts := fun c hc hts =>
  h _ c hc hts

end Parser
end MiniML
