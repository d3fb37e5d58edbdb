import MiniML.Proofs.Grammar.Accept

/-!
# Reading up to a closing parenthesis

A parenthesis is only read together with its counterpart, so what a parser has
read is `Paired`, and no parser goes past a closing parenthesis that belongs to an
opening one before it. What stands behind such a parenthesis cannot matter: two
streams of tokens that are the same up to there (`Enclosed`) are read alike
(`Parser.Together`), whatever is tried and given up on the way.

How much is read is told apart as far as it is needed (`Extent`): whether anything
is, and whether it ends with the end of an atom, as every expression does.

As in lockstep, repetitions and recursions are bounded by the number of tokens left,
which is not the same in the two streams. Each round takes a token, so that all
bounds above the number of tokens up to the parenthesis are as good as none.
-/
namespace MiniML

/-! ## Pairs of parentheses -/

/-- Every parenthesis has its counterpart. -/
inductive Paired : List Token → Prop
  | nil : Paired []
  | plain {t : Token} {ts : List Token} : t.lexeme ≠ .fixed .lparen → t.lexeme ≠ .fixed .rparen →
      Paired ts → Paired (t :: ts)
  | parens {t u : Token} {inner ts : List Token} : t.lexeme = .fixed .lparen → Paired inner →
      u.lexeme = .fixed .rparen → Paired ts → Paired (t :: (inner ++ u :: ts))

namespace Paired

variable {t : Token} {s inner ts us x : List Token}

theorem append (h : Paired ts) (h' : Paired us) : Paired (ts ++ us) := by
  induction h with
  | nil => exact h'
  | plain hl hr _ ih => exact .plain hl hr ih
  | parens ht hin hu _ _ ih =>
    rw [List.cons_append, List.append_assoc, List.cons_append]
    exact .parens ht hin hu ih

theorem head_ne (h : Paired (t :: ts)) : t.lexeme ≠ .fixed .rparen := by
  cases h with
  | plain _ hr _ => exact hr
  | parens ht _ _ _ =>
    rw [ht]
    exact nofun

theorem tail (h : Paired (t :: ts)) (ht : t.lexeme ≠ .fixed .lparen) : Paired ts := by
  cases h with
  | plain _ _ h => exact h
  | parens hl _ _ _ => exact absurd hl ht

/-- What stands in front of a closing parenthesis without a counterpart ends nowhere
before a paired passage does. -/
theorem cut (hs : Paired s) (hinner : Paired inner) (ht : t.lexeme = .fixed .rparen)
    (h : inner ++ t :: x = s ++ ts) :
    ∃ rest, inner = s ++ rest ∧ Paired rest ∧ ts = rest ++ t :: x := by
  induction hs generalizing inner t x ts with
  | nil => exact ⟨inner, rfl, hinner, h.symm⟩
  | @plain a s hl hr _ ih =>
    cases inner with
    | nil =>
      obtain ⟨rfl, -⟩ := List.cons.inj h
      exact absurd ht hr
    | cons b inner =>
      obtain ⟨rfl, heq⟩ := List.cons.inj h
      obtain ⟨rest, rfl, hrest, hts⟩ := ih (hinner.tail hl) ht heq
      exact ⟨rest, rfl, hrest, hts⟩
  | @parens a b s₁ s₂ ha _ hb _ ih₁ ih₂ =>
    cases inner with
    | nil =>
      obtain ⟨rfl, -⟩ := List.cons.inj h
      rw [ht] at ha
      cases ha
    | cons c inner =>
      obtain ⟨rfl, heq⟩ := List.cons.inj h
      cases hinner with
      | plain hl _ _ => exact absurd ha hl
      | @parens _ d i₁ i₂ _ hi₁ hd hi₂ =>
        -- the first parts end with the counterparts of the same parenthesis
        have heq₁ : i₁ ++ d :: (i₂ ++ t :: x) = s₁ ++ b :: (s₂ ++ ts) := by simpa using heq
        obtain ⟨r₁, rfl, hr₁, heq₂⟩ := ih₁ hi₁ hd heq₁
        cases r₁ with
        | cons e r₁ =>
          obtain ⟨rfl, -⟩ := List.cons.inj heq₂
          exact absurd hb hr₁.head_ne
        | nil =>
          obtain ⟨rfl, heq₃⟩ := List.cons.inj heq₂
          obtain ⟨rest, rfl, hrest, hts⟩ := ih₂ hi₂ ht heq₃.symm
          exact ⟨rest, by simp, hrest, hts⟩

end Paired

/-- Two streams of tokens, of which `n` may be read: they are the same, or the same
up to a closing parenthesis that has no counterpart. -/
inductive Enclosed (n : Nat) (ts us : List Token) : Prop
  | whole : us = ts → ts.length = n → Enclosed n ts us
  | inside (inner x y : List Token) (t : Token) : Paired inner → t.lexeme = .fixed .rparen →
      inner.length = n → ts = inner ++ t :: x → us = inner ++ t :: y → Enclosed n ts us

namespace Enclosed

variable {n : Nat} {t u : Token} {s ts us : List Token}

theorem refl (ts : List Token) : Enclosed ts.length ts ts := .whole rfl rfl

theorem head? (h : Enclosed n ts us) : us.head? = ts.head? := by
  cases h with
  | whole h _ => rw [h]
  | inside inner x y t _ _ _ hts hus =>
    rw [hts, hus]
    cases inner <;> rfl

theorem le_length (h : Enclosed n ts us) : n ≤ ts.length ∧ n ≤ us.length := by
  cases h with
  | whole h hn => exact ⟨Nat.le_of_eq hn.symm, Nat.le_of_eq (h ▸ hn.symm)⟩
  | inside inner x y t _ _ hn hts hus =>
    rw [hts, hus, List.length_append, List.length_append, hn]
    exact ⟨Nat.le_add_right _ _, Nat.le_add_right _ _⟩

/-- Where nothing may be read. -/
theorem heads (h : Enclosed 0 ts us) :
    Parser.Heads (· = .fixed .rparen) ts ∧ Parser.Heads (· = .fixed .rparen) us := by
  cases h with
  | whole h hn =>
    obtain rfl := List.eq_nil_of_length_eq_zero hn
    rw [h]
    exact ⟨Parser.heads_nil _, Parser.heads_nil _⟩
  | inside inner x y t _ ht hn hts hus =>
    obtain rfl := List.eq_nil_of_length_eq_zero hn
    rw [hts, hus]
    exact ⟨Parser.heads_cons ht rfl, Parser.heads_cons ht rfl⟩

/-- Behind what is read. -/
theorem drop {ts' us' : List Token} (h : Enclosed n ts us) (hs : Paired s) (hts : ts = s ++ ts')
    (hus : us = s ++ us') : s.length ≤ n ∧ Enclosed (n - s.length) ts' us' := by
  subst hts hus
  cases h with
  | whole h hn =>
    rw [List.length_append] at hn
    refine ⟨by omega, .whole (List.append_cancel_left h) (by omega)⟩
  | inside inner x y t hinner ht hn hts hus =>
    obtain ⟨rest, rfl, hrest, hts'⟩ := hs.cut hinner ht hts.symm
    rw [List.append_assoc] at hus
    rw [List.length_append] at hn
    exact ⟨by omega, .inside rest x y t hrest ht (by omega) hts' (List.append_cancel_left hus)⟩

/-- Behind an opening parenthesis. -/
theorem opened (h : Enclosed n (t :: ts) (t :: us)) (ht : t.lexeme = .fixed .lparen) :
    ∃ m < n, Enclosed m ts us := by
  cases h with
  | whole h hn =>
    refine ⟨ts.length, ?_, .whole (List.cons.inj h).2 rfl⟩
    rw [← hn, List.length_cons]
    exact Nat.lt_succ_self _
  | inside inner x y u hinner hu hn hts hus =>
    cases hinner with
    | nil =>
      obtain ⟨rfl, -⟩ := List.cons.inj hts
      rw [ht] at hu
      cases hu
    | plain hl _ _ =>
      obtain ⟨rfl, -⟩ := List.cons.inj hts
      exact absurd ht hl
    | @parens _ v i₁ i₂ _ hi₁ hv _ =>
      rw [List.cons_append, List.append_assoc, List.cons_append] at hts hus
      refine ⟨i₁.length, ?_,
        .inside i₁ _ _ v hi₁ hv rfl (List.cons.inj hts).2 (List.cons.inj hus).2⟩
      rw [← hn, List.length_cons, List.length_append]
      omega

end Enclosed

/-! ## How much is read -/

/-- Whether the last token of an atom may be this one. -/
def Lexeme.endsAtom : Lexeme → Bool
  | .word .typeVar _ => false
  | .word _ _ => true
  | .fixed f => f = .true_ || f = .false_ || f = .rparen

/-- The last token ends an atom. -/
def Ended (s : List Token) : Prop := ∃ t ∈ s.getLast?, t.lexeme.endsAtom = true

theorem Ended.append (s : List Token) {s' : List Token} (h : Ended s') : Ended (s ++ s') := by
  obtain ⟨t, ht, hend⟩ := h
  exact ⟨t, by rw [List.getLast?_append, Option.mem_def.mp ht]; rfl, hend⟩

theorem Ended.ne_nil {s : List Token} (h : Ended s) : s ≠ [] := by
  rintro rfl
  obtain ⟨t, ht, -⟩ := h
  cases ht

/-- What is known of the tokens that a parser reads. -/
inductive Extent
  | empty
  | any
  | nonempty
  | ended
  /-- Nothing, or tokens that end an atom. -/
  | tail
  deriving DecidableEq

namespace Extent

/-- The tokens are of this extent. -/
def Holds : Extent → List Token → Prop
  | empty, s => s = []
  | any, _ => True
  | nonempty, s => s ≠ []
  | ended, s => Ended s
  | tail, s => s = [] ∨ Ended s

/-- The extent of tokens that are read one after the other. -/
def append : Extent → Extent → Extent
  | empty, l => l
  | k, empty => k
  | _, ended => ended
  | ended, tail => ended
  | tail, tail => tail
  | nonempty, _ | ended, _ | _, nonempty => nonempty
  | _, _ => any

/-- The extent of a repetition. -/
def repeated : Extent → Extent
  | ended => tail
  | _ => any

/-- Whether tokens of an extent are of another one as well. -/
def within : Extent → Extent → Bool
  | _, any | empty, empty | empty, tail | nonempty, nonempty | ended, nonempty | ended, ended
  | ended, tail | tail, tail => true
  | _, _ => false

/-- Whether there is a token. -/
def positive : Extent → Bool
  | nonempty | ended => true
  | _ => false

variable {k l : Extent} {s s' : List Token}

theorem Holds.append (h : k.Holds s) (h' : l.Holds s') : (k.append l).Holds (s ++ s') := by
  cases l with
  | empty =>
    obtain rfl : s' = [] := h'
    rw [List.append_nil]
    cases k <;> exact h
  | nonempty => cases k <;> exact List.append_ne_nil_of_right_ne_nil _ h'
  | ended => cases k <;> exact Ended.append s h'
  | any =>
    cases k with
    | nonempty => exact List.append_ne_nil_of_left_ne_nil h _
    | ended => exact List.append_ne_nil_of_left_ne_nil (Ended.ne_nil h) _
    | _ => trivial
  | tail =>
    have hlast : Ended s → Ended (s ++ s') := fun hs => by
      rcases h' with rfl | h'
      · rwa [List.append_nil]
      · exact h'.append s
    cases k with
    | empty =>
      obtain rfl : s = [] := h
      exact h'
    | any => trivial
    | nonempty => exact List.append_ne_nil_of_left_ne_nil h _
    | ended => exact hlast h
    | tail =>
      rcases h with rfl | h
      · exact h'
      · exact .inr (hlast h)

theorem Holds.mono (h : k.Holds s) (hkl : k.within l = true) : l.Holds s := by
  cases k <;> cases l <;> simp only [within, Holds, Bool.false_eq_true] at hkl h ⊢ <;>
    first
      | exact h
      | exact .inl h
      | exact .inr h
      | exact h.ne_nil

theorem Holds.ne_nil (h : k.Holds s) (hk : k.positive = true) : s ≠ [] := by
  cases k <;> simp only [positive, Bool.false_eq_true] at hk
  · exact h
  · exact Ended.ne_nil h

theorem append_repeated_within (hk : k.positive = true) :
    (k.append k.repeated).within k.repeated = true := by
  cases k <;> simp_all [positive, repeated, Extent.append, within]

end Extent

/-! ## Two parsers -/

namespace Parser

variable {α β : Type} {p q : Parser α} {k l : Extent} {r r' n m : Nat} {ts us : List Token}

/-- Two parsers read the same tokens to the same value, or both fail. -/
inductive Alike (k : Extent) (p q : Parser α) (ts us : List Token) : Prop
  | read (a : α) (s ts' us' : List Token) : ts = s ++ ts' → us = s ++ us' → Paired s → k.Holds s →
      Accepts p ts ts' (· = a) → Accepts q us us' (· = a) → Alike k p q ts us
  | fail : Refuses p ts → Refuses q us → Alike k p q ts us

/-- On streams of which less than `r` tokens may be read, the parsers do the same. -/
def Together (r : Nat) (k : Extent) (p q : Parser α) : Prop :=
  ∀ n ts us, Enclosed n ts us → n < r → Alike k p q ts us

theorem Alike.mono (h : Alike k p q ts us) (hkl : k.within l = true) : Alike l p q ts us := by
  cases h with
  | read a s ts' us' hts hus hs hk hp hq => exact .read a s ts' us' hts hus hs (hk.mono hkl) hp hq
  | fail hp hq => exact .fail hp hq

theorem Together.mono (h : Together r k p q) (hr : r' ≤ r) (hkl : k.within l = true) :
    Together r' l p q := fun n ts us henc hn => (h n ts us henc (Nat.lt_of_lt_of_le hn hr)).mono hkl

/-- Fewer tokens. -/
theorem Together.later (h : Together (r + 1) k p q) : Together r k p q := fun n ts us henc hn =>
  h n ts us henc (Nat.lt_succ_of_lt hn)

theorem together_zero (p q : Parser α) : Together 0 k p q := fun _ _ _ _ hn =>
  absurd hn (Nat.not_lt_zero _)

theorem together_pure (a : α) : Together r .empty (pure a) (pure a) := fun _ ts us _ _ =>
  .read a [] ts us rfl rfl .nil rfl (accepts_pure rfl) (accepts_pure rfl)

/-! ## Sequences -/

/-- A bind goes on with the value that is read. -/
theorem Accepts.bind_eq {f : α → Parser β} {a : α} {mid rest : List Token} {R : β → Prop}
    (hp : Accepts p ts mid (· = a)) (hf : Accepts (f a) mid rest R) :
    Accepts (p >>= f) ts rest R := by
  refine hp.bind ?_
  rintro _ rfl
  exact hf

theorem Accepts.refuses_eq {f : α → Parser β} {a : α} {mid : List Token}
    (hp : Accepts p ts mid (· = a)) (hf : Refuses (f a) mid) : Refuses (p >>= f) ts := by
  refine hp.refuses ?_
  rintro _ rfl
  exact hf

/-- What comes behind a value that both have read. -/
theorem Alike.behind {f g : α → Parser β} {a : α} {s ts' us' : List Token} (hts : ts = s ++ ts')
    (hus : us = s ++ us') (hs : Paired s) (hk : k.Holds s) (hp : Accepts p ts ts' (· = a))
    (hq : Accepts q us us' (· = a)) (h : Alike l (f a) (g a) ts' us') :
    Alike (k.append l) (p >>= f) (q >>= g) ts us := by
  cases h with
  | fail hf hg => exact .fail (hp.refuses_eq hf) (hq.refuses_eq hg)
  | read b s' ts'' us'' hts' hus' hs' hl hf hg =>
    exact .read b (s ++ s') ts'' us'' (by rw [hts, hts', List.append_assoc])
      (by rw [hus, hus', List.append_assoc]) (hs.append hs') (hk.append hl) (hp.bind_eq hf)
      (hq.bind_eq hg)

theorem Alike.bind {f g : α → Parser β} (h : Alike k p q ts us)
    (hf : ∀ a s ts' us', ts = s ++ ts' → us = s ++ us' → Paired s → k.Holds s →
      Alike l (f a) (g a) ts' us') : Alike (k.append l) (p >>= f) (q >>= g) ts us := by
  cases h with
  | fail hp hq => exact .fail hp.bind hq.bind
  | read a s ts' us' hts hus hs hk hp hq =>
    exact .behind hts hus hs hk hp hq (hf a s ts' us' hts hus hs hk)

theorem Together.bind {f g : α → Parser β} (hp : Together r k p q)
    (hf : ∀ a, Together r l (f a) (g a)) : Together r (k.append l) (p >>= f) (q >>= g) :=
  fun n ts us henc hn => (hp n ts us henc hn).bind fun a _ _ _ hts hus hs _ =>
    hf a _ _ _ (henc.drop hs hts hus).2 (Nat.lt_of_le_of_lt (Nat.sub_le _ _) hn)

/-- What is read first takes a token. -/
theorem Together.first {f g : α → Parser β} (hk : k.positive = true)
    (hp : Together (r + 1) k p q) (hf : ∀ a, Together r l (f a) (g a)) :
    Together (r + 1) (k.append l) (p >>= f) (q >>= g) :=
  fun n ts us henc hn => (hp n ts us henc hn).bind fun a s _ _ hts hus hs hks => by
    obtain ⟨hle, hrest⟩ := henc.drop hs hts hus
    have hpos : 0 < s.length := List.length_pos_of_ne_nil (hks.ne_nil hk)
    exact hf a _ _ _ hrest (by omega)

theorem Together.seqRight {p' q' : Parser β} (hk : k.positive = true)
    (hp : Together (r + 1) k p q) (hq : Together r l p' q') :
    Together (r + 1) (k.append l) (p *> p') (q *> q') := hp.first hk fun _ => hq

/-! ## Single tokens -/

/-- Whatever is wrong with the next token. -/
theorem refuses_take_of_ne {expected : String} {read : Token → Option (Except FaultCause α)}
    (h : ∀ t ∈ ts.head?, ∀ a, read t ≠ some (.ok a)) : Refuses (take expected read) ts := by
  intro c hc hts
  unfold take
  rw [Cursor.peek_eq, hts]
  cases hhead : ts.head? with
  | none => exact ⟨_, _, rfl, Cursor.onward_record hc _⟩
  | some t =>
    dsimp only
    split
    next a ha => exact absurd ha (h t hhead a)
    · exact ⟨_, _, rfl, Cursor.onward_record hc _⟩
    · exact ⟨_, _, rfl, Cursor.onward_record hc _⟩

/-- No parenthesis is read, and what is read has the extent. -/
theorem together_take {expected : String} {read : Token → Option (Except FaultCause α)}
    (hread : ∀ t a, read t = some (.ok a) →
      t.lexeme ≠ .fixed .lparen ∧ t.lexeme ≠ .fixed .rparen ∧ k.Holds [t]) :
    Together r k (take expected read) (take expected read) := by
  intro n ts us henc _
  by_cases h : ∃ t ∈ ts.head?, ∃ a, read t = some (.ok a)
  · obtain ⟨t, ht, a, ha⟩ := h
    obtain ⟨hl, hr, hk⟩ := hread t a ha
    have hus : t ∈ us.head? := henc.head? ▸ ht
    obtain ⟨ts', rfl⟩ := List.head?_eq_some_iff.mp ht
    obtain ⟨us', rfl⟩ := List.head?_eq_some_iff.mp hus
    exact .read a [t] ts' us' rfl rfl (.plain hl hr .nil) hk (accepts_take ha rfl)
      (accepts_take ha rfl)
  · have hno : ∀ t ∈ ts.head?, ∀ a, read t ≠ some (.ok a) := fun t ht a ha => h ⟨t, ht, a, ha⟩
    exact .fail (refuses_take_of_ne hno) (refuses_take_of_ne (henc.head? ▸ hno))

theorem together_token {f : Fixed} (hf : f ≠ .lparen ∧ f ≠ .rparen) :
    Together r .nonempty (token f) (token f) := by
  refine together_take fun t a ha => ?_
  split at ha
  next ht =>
    rw [ht]
    exact ⟨fun h => hf.1 (Lexeme.fixed.inj h), fun h => hf.2 (Lexeme.fixed.inj h),
      List.cons_ne_nil _ _⟩
  next => cases ha

theorem together_nextIs (f : Fixed) : Together r .empty (nextIs f) (nextIs f) := by
  intro n ts us henc _
  refine .read (ts.head?.any fun t => t.lexeme = .fixed f) [] ts us rfl rfl .nil rfl ?_ ?_
  · intro c hc hts
    refine ⟨_, c, rfl, .refl hc, hts, ?_⟩
    unfold Cursor.nextIs
    rw [Cursor.peek_eq, hts]
    cases ts.head? <;> rfl
  · intro c hc hus
    refine ⟨_, c, rfl, .refl hc, hus, ?_⟩
    unfold Cursor.nextIs
    rw [Cursor.peek_eq, hus, henc.head?]
    cases ts.head? <;> rfl

/-- The next token is looked at. It is the same in both streams. -/
theorem together_peek {f g : Option Token → Parser α}
    (h : ∀ n ts us, Enclosed n ts us → n < r → Alike k (f ts.head?) (g ts.head?) ts us) :
    Together r k (peek >>= f) (peek >>= g) := by
  intro n ts us henc hn
  cases h n ts us henc hn with
  | read a s ts' us' hts hus hs hk hf hg =>
    exact .read a s ts' us' hts hus hs hk (accepts_peek.bind_eq hf)
      (accepts_peek.bind_eq (henc.head?.symm ▸ hg))
  | fail hf hg =>
    exact .fail (accepts_peek.refuses_eq hf) (accepts_peek.refuses_eq (henc.head?.symm ▸ hg))

/-- The next token is passed over. -/
theorem alike_skip {f g : Unit → Parser α} {t : Token} (henc : Enclosed n ts us) (hn : n < r + 1)
    (ht : ts.head? = some t) (hl : t.lexeme ≠ .fixed .lparen) (hr : t.lexeme ≠ .fixed .rparen)
    (hf : Together r k (f ()) (g ())) :
    Alike (.append .nonempty k) (skip >>= f) (skip >>= g) ts us := by
  obtain ⟨ts', rfl⟩ := List.head?_eq_some_iff.mp ht
  obtain ⟨us', rfl⟩ := List.head?_eq_some_iff.mp (henc.head?.trans ht)
  have hs : Paired [t] := .plain hl hr .nil
  have hskip : Alike .nonempty skip skip (t :: ts') (t :: us') :=
    .read () [t] ts' us' rfl rfl hs (List.cons_ne_nil _ _)
      (accepts_skip.mono fun _ _ => rfl) (accepts_skip.mono fun _ _ => rfl)
  refine hskip.bind fun _ s _ _ hts hus hs hne => ?_
  obtain ⟨hle, hrest⟩ := henc.drop hs hts hus
  have hpos : 0 < s.length := List.length_pos_of_ne_nil hne
  exact hf _ _ _ hrest (by omega)

/-! ## Combinators -/

theorem Together.either {p' q' : Parser α} (hp : Together r k p q) (hq : Together r k p' q') :
    Together r k (either p p') (either q q') := by
  intro n ts us henc hn
  cases hp n ts us henc hn with
  | read a s ts' us' hts hus hs hk hp hq =>
    exact .read a s ts' us' hts hus hs hk hp.either hq.either
  | fail hp₁ hq₁ =>
    cases hq n ts us henc hn with
    | read a s ts' us' hts hus hs hk hp hq =>
      exact .read a s ts' us' hts hus hs hk (hp₁.either hp) (hq₁.either hq)
    | fail hp hq => exact .fail (refuses_either hp₁ hp) (refuses_either hq₁ hq)

theorem Refuses.label (name : String) (h : Refuses p ts) : Refuses (label name p) ts := by
  intro c hc hts
  obtain ⟨e, d, hpc, hon⟩ := h c hc hts
  unfold Parser.label
  rw [hpc]
  exact ⟨_, _, rfl, hon.trans (Cursor.onward_record hon.inside _)⟩

theorem Together.label (name : String) (hp : Together r k p q) :
    Together r k (label name p) (label name q) := by
  intro n ts us henc hn
  cases hp n ts us henc hn with
  | read a s ts' us' hts hus hs hk hp hq =>
    exact .read a s ts' us' hts hus hs hk (hp.label name) (hq.label name)
  | fail hp hq => exact .fail (hp.label name) (hq.label name)

theorem Accepts.optional_eq {a : α} {rest : List Token} (h : Accepts p ts rest (· = a)) :
    Accepts (Parser.optional p) ts rest (· = some a) := by
  refine h.optional.mono ?_
  rintro _ ⟨_, rfl, rfl⟩
  rfl

theorem Together.optional (hp : Together r k p q) :
    Together r .any (Parser.optional p) (Parser.optional q) := by
  intro n ts us henc hn
  cases hp n ts us henc hn with
  | read a s ts' us' hts hus hs hk hp hq =>
    exact .read (some a) s ts' us' hts hus hs trivial hp.optional_eq hq.optional_eq
  | fail hp hq => exact .read none [] ts us rfl rfl .nil trivial hp.optional hq.optional

theorem Together.manyUpTo (hk : k.positive = true) (hp : Together r k p q) (hn : r ≤ n)
    (hm : r ≤ m) : Together r k.repeated (manyUpTo p n) (manyUpTo q m) := by
  induction r generalizing n m with
  | zero => exact together_zero _ _
  | succ r ih =>
    obtain ⟨n, rfl⟩ := Nat.exists_eq_succ_of_ne_zero (Nat.ne_of_gt (Nat.zero_lt_of_lt hn))
    obtain ⟨m, rfl⟩ := Nat.exists_eq_succ_of_ne_zero (Nat.ne_of_gt (Nat.zero_lt_of_lt hm))
    have hrest := ih hp.later (Nat.le_of_succ_le_succ hn) (Nat.le_of_succ_le_succ hm)
    intro j ts us henc hj
    cases hp j ts us henc hj with
    | fail hp hq =>
      have hnil : Alike k.repeated (pure []) (pure []) ts us :=
        .read [] [] ts us rfl rfl .nil (by cases k <;> first | trivial | exact .inl rfl)
          (accepts_pure (rfl : ([] : List α) = [])) (accepts_pure rfl)
      exact .behind (k := .empty) (a := none) rfl rfl .nil rfl hp.optional hq.optional hnil
    | read a s ts' us' hts hus hs hks hp hq =>
      obtain ⟨hle, henc'⟩ := henc.drop hs hts hus
      have hpos : 0 < s.length := List.length_pos_of_ne_nil (hks.ne_nil hk)
      have hmany : Together r k.repeated (Parser.manyUpTo p n >>= fun as => pure (a :: as))
          (Parser.manyUpTo q m >>= fun as => pure (a :: as)) := by
        have := hrest.bind fun as => together_pure (a :: as)
        cases k <;> exact this
      exact (Alike.behind (a := some a) hts hus hs hks hp.optional_eq hq.optional_eq
        (hmany _ _ _ henc' (by omega))).mono (Extent.append_repeated_within hk)

theorem refuses_remaining {p : Nat → Parser α} (h : Refuses (p ts.length) ts) :
    Refuses (fun c => p c.remaining c) ts := by
  intro c hc hts
  show ∃ e c', p c.remaining c = .error e c' ∧ _
  rw [← c.length_rest, hts]
  exact h c hc hts

/-- The number of tokens left bounds what follows. -/
theorem together_remaining {p q : Nat → Parser α}
    (h : ∀ s n m, s ≤ r → s ≤ n + 1 → s ≤ m + 1 → Together s k (p n) (q m)) :
    Together r k (fun c => p c.remaining c) (fun c => q c.remaining c) := by
  intro n ts us henc hn
  obtain ⟨hts, hus⟩ := henc.le_length
  have halike := h (n + 1) ts.length us.length hn (by omega) (by omega) n ts us henc
    (Nat.lt_succ_self n)
  cases halike with
  | read a s ts' us' hts hus hs hk hp hq =>
    exact .read a s ts' us' hts hus hs hk (accepts_remaining hp) (accepts_remaining hq)
  | fail hp hq => exact .fail (refuses_remaining hp) (refuses_remaining hq)

theorem Together.many (hk : k.positive = true) (hp : Together r k p q) :
    Together r k.repeated (many p) (many q) :=
  together_remaining (p := fun n => Parser.manyUpTo p (n + 1))
    (q := fun n => Parser.manyUpTo q (n + 1))
    fun _ _ _ hs hn hm => (hp.mono hs (by cases k <;> rfl)).manyUpTo hk hn hm

theorem Together.many1 (hk : k.positive = true) (hp : Together (r + 1) k p q) :
    Together (r + 1) k (many1 p) (many1 q) := by
  have h := hp.first hk fun a => (hp.later.many hk).bind fun as => together_pure (a :: as)
  exact h.mono (Nat.le_refl _) (by cases k <;> first | rfl | cases hk)

/-- The separators between items are tokens of their own. -/
theorem Together.sepBy1 {f : Fixed} (hf : f ≠ .lparen ∧ f ≠ .rparen) (hk : k.positive = true)
    (hp : Together r k p q) : Together r k (sepBy1 p (token f)) (sepBy1 q (token f)) := by
  cases r with
  | zero => exact together_zero _ _
  | succ r =>
    have hitem : Together (r + 1) (.append .nonempty k) (token f *> p) (token f *> q) :=
      (together_token hf).seqRight rfl hp.later
    have hitems := hitem.later.many (by cases k <;> rfl)
    have h := hp.first hk fun a => hitems.bind fun as => together_pure (a :: as)
    exact h.mono (Nat.le_refl _) (by cases k <;> first | rfl | cases hk)

/-- A rule that calls itself only behind a token. -/
theorem together_unroll {ι : Type} {rule : (ι → Parser α) → ι → Parser α}
    (hrule : ∀ r self self', (∀ i, Together r k (self i) (self' i)) →
      ∀ i, Together (r + 1) k (rule self i) (rule self' i))
    (hn : r ≤ n) (hm : r ≤ m) (i : ι) : Together r k (unroll rule n i) (unroll rule m i) := by
  induction r generalizing n m i with
  | zero => exact together_zero _ _
  | succ r ih =>
    obtain ⟨n, rfl⟩ := Nat.exists_eq_succ_of_ne_zero (Nat.ne_of_gt (Nat.zero_lt_of_lt hn))
    obtain ⟨m, rfl⟩ := Nat.exists_eq_succ_of_ne_zero (Nat.ne_of_gt (Nat.zero_lt_of_lt hm))
    exact hrule r _ _ (fun i => ih (Nat.le_of_succ_le_succ hn) (Nat.le_of_succ_le_succ hm) i) i

theorem together_recursive {ι : Type} {rule : (ι → Parser α) → ι → Parser α}
    (hrule : ∀ r self self', (∀ i, Together r k (self i) (self' i)) →
      ∀ i, Together (r + 1) k (rule self i) (rule self' i)) (i : ι) :
    Together r k (recursive rule i) (recursive rule i) :=
  together_remaining (p := fun n => unroll rule (n + 1) i) (q := fun n => unroll rule (n + 1) i)
    fun _ _ _ _ hn hm => together_unroll hrule hn hm i

/-! ## Parentheses -/

/-- Two parsers read the same tokens and then a closing parenthesis without a
counterpart, to the same value, or both fail. -/
inductive Closing (p q : Parser α) (ts us : List Token) : Prop
  | read (a : α) (s ts' us' : List Token) (t : Token) : ts = s ++ t :: ts' → us = s ++ t :: us' →
      Paired s → t.lexeme = .fixed .rparen → Accepts p ts ts' (· = a) → Accepts q us us' (· = a) →
      Closing p q ts us
  | fail : Refuses p ts → Refuses q us → Closing p q ts us

/-- Behind an opening parenthesis, both read up to its counterpart. -/
def Closes (r : Nat) (p q : Parser α) : Prop :=
  ∀ n ts us, Enclosed n ts us → n < r → Closing p q ts us

theorem closes_token {f g : Token → Parser α} {a : Token → α} (hf : ∀ t, f t = pure (a t))
    (hg : ∀ t, g t = pure (a t)) : Closes r (token .rparen >>= f) (token .rparen >>= g) := by
  intro n ts us henc _
  by_cases h : ∃ t ∈ ts.head?, t.lexeme = .fixed .rparen
  · obtain ⟨t, ht, hr⟩ := h
    obtain ⟨ts', rfl⟩ := List.head?_eq_some_iff.mp ht
    obtain ⟨us', rfl⟩ := List.head?_eq_some_iff.mp (henc.head?.trans ht)
    have htoken (vs : List Token) : Accepts (token .rparen) (t :: vs) vs (· = t) :=
      accepts_take (by rw [if_pos hr]) rfl
    refine .read (a t) [] ts' us' t rfl rfl .nil hr ((htoken ts').bind_eq ?_)
      ((htoken us').bind_eq ?_)
    · rw [hf]
      exact accepts_pure rfl
    · rw [hg]
      exact accepts_pure rfl
  · have hno : Heads (· ≠ .fixed .rparen) ts := fun t ht hr => h ⟨t, ht, hr⟩
    have hno' : Heads (· ≠ .fixed .rparen) us := fun t ht hr => h ⟨t, henc.head? ▸ ht, hr⟩
    exact .fail (refuses_token hno).bind (refuses_token hno').bind

theorem Together.closes {f g : α → Parser β} (hp : Together r k p q)
    (hf : ∀ a, Closes r (f a) (g a)) : Closes r (p >>= f) (q >>= g) := by
  intro n ts us henc hn
  cases hp n ts us henc hn with
  | fail hp hq => exact .fail hp.bind hq.bind
  | read a s ts' us' hts hus hs _ hp hq =>
    obtain ⟨hle, henc'⟩ := henc.drop hs hts hus
    cases hf a _ _ _ henc' (by omega) with
    | fail hf hg => exact .fail (hp.refuses_eq hf) (hq.refuses_eq hg)
    | read b s' ts'' us'' t hts' hus' hs' ht hf hg =>
      exact .read b (s ++ s') ts'' us'' t (by rw [hts, hts', List.append_assoc])
        (by rw [hus, hus', List.append_assoc]) (hs.append hs') ht (hp.bind_eq hf) (hq.bind_eq hg)

/-- Parentheses with something between them end an atom. -/
theorem Closes.parens {f g : Token → Parser α} (h : ∀ t, Closes r (f t) (g t)) :
    Together (r + 1) .ended (token .lparen >>= f) (token .lparen >>= g) := by
  intro n ts us henc hn
  by_cases hhead : ∃ t ∈ ts.head?, t.lexeme = .fixed .lparen
  · obtain ⟨t, ht, hl⟩ := hhead
    obtain ⟨ts', rfl⟩ := List.head?_eq_some_iff.mp ht
    obtain ⟨us', rfl⟩ := List.head?_eq_some_iff.mp (henc.head?.trans ht)
    have htoken (vs : List Token) : Accepts (token .lparen) (t :: vs) vs (· = t) :=
      accepts_take (by rw [if_pos hl]) rfl
    obtain ⟨m, hm, hopened⟩ := henc.opened hl
    cases h t m ts' us' hopened (by omega) with
    | fail hf hg => exact .fail ((htoken ts').refuses_eq hf) ((htoken us').refuses_eq hg)
    | read a s ts'' us'' u hts hus hs hr hf hg =>
      exact .read a (t :: (s ++ [u])) ts'' us'' (by simp [hts]) (by simp [hus])
        (.parens hl hs hr .nil) ⟨u, by simp [List.getLast?_cons], by rw [hr]; rfl⟩
        ((htoken ts').bind_eq hf) ((htoken us').bind_eq hg)
  · have hno : Heads (· ≠ .fixed .lparen) ts := fun t ht hl => hhead ⟨t, ht, hl⟩
    have hno' : Heads (· ≠ .fixed .lparen) us := fun t ht hl => hhead ⟨t, henc.head? ▸ ht, hl⟩
    exact .fail (refuses_token hno).bind (refuses_token hno').bind

/-! ## One stream -/

/-- A parser does one thing with the tokens. -/
theorem Accepts.unique {a b : α} {ts' ts'' : List Token} (h : Accepts p ts ts' (· = a))
    (h' : Accepts p ts ts'' (· = b)) : ts' = ts'' ∧ a = b := by
  obtain ⟨_, _, hrun, -, rfl, rfl⟩ := h (.ofTokens ts) (Nat.zero_le _) (Cursor.rest_ofTokens ts)
  obtain ⟨_, _, hrun', -, rfl, rfl⟩ := h' (.ofTokens ts) (Nat.zero_le _) (Cursor.rest_ofTokens ts)
  cases hrun.symm.trans hrun'
  exact ⟨rfl, rfl⟩

theorem Accepts.not_refuses {Q : α → Prop} {rest : List Token} (h : Accepts p ts rest Q) :
    ¬ Refuses p ts := by
  intro h'
  obtain ⟨_, _, hrun, -⟩ := h (.ofTokens ts) (Nat.zero_le _) (Cursor.rest_ofTokens ts)
  obtain ⟨_, _, hrun', -⟩ := h' (.ofTokens ts) (Nat.zero_le _) (Cursor.rest_ofTokens ts)
  cases hrun.symm.trans hrun'

/-- A run of two parsers. -/
theorem bind_ok {f : α → Parser β} {c c' : Cursor} {b : β} (h : (p >>= f) c = .ok b c') :
    ∃ a d, p c = .ok a d ∧ f a d = .ok b c' := by
  change EStateM.bind p f c = _ at h
  unfold EStateM.bind at h
  split at h
  next a d hp => exact ⟨a, d, hp, h⟩
  next => cases h

/-- What is read from one stream does not depend on where it stands, and all its
parentheses have counterparts. -/
theorem Together.accepts {c c' : Cursor} {a : α} (h : Together r k p q) (hc : c.Inside)
    (hr : c.rest.length < r) (hrun : p c = .ok a c') :
    c.Onward c' ∧ Accepts q c.rest c'.rest (· = a) ∧
      ∃ s, c.rest = s ++ c'.rest ∧ Paired s ∧ k.Holds s := by
  cases h _ _ _ (.refl c.rest) hr with
  | fail hp _ =>
    obtain ⟨e, d, hpc, -⟩ := hp c hc rfl
    cases hrun.symm.trans hpc
  | read b s ts' us' hts hus hs hk hp hq =>
    obtain ⟨b', d, hpc, hon, hrest, rfl⟩ := hp c hc rfl
    cases hrun.symm.trans hpc
    subst hrest
    obtain rfl := List.append_cancel_left (hus.symm.trans hts)
    exact ⟨hon, hq, s, hts, hs, hk⟩

/-- Up to a closing parenthesis, it does not matter what stands behind it. -/
theorem Closes.accepts (h : Closes r p q) (hr : ts.length < r) :
    Refuses p ts ∨ ∃ a s ts', ts = s ++ ts' ∧ Accepts p ts ts' (· = a) ∧
      ∀ rest, Accepts q (s ++ rest) rest (· = a) := by
  cases h _ _ _ (.refl ts) hr with
  | fail hp _ => exact .inl hp
  | read a s ts' _ t hts _ hs ht hp _ =>
    refine .inr ⟨a, s ++ [t], ts', by rw [hts, List.append_assoc, List.singleton_append], hp,
      fun rest => ?_⟩
    rw [List.append_assoc, List.singleton_append]
    have hlt : s.length < r := by
      rw [hts, List.length_append] at hr
      omega
    subst hts
    -- the streams differ from the parenthesis on
    cases h _ _ _ (.inside s ts' rest t hs ht rfl rfl rfl) hlt with
    | fail hp' _ => exact absurd hp' hp.not_refuses
    | read b s' ts'' us'' t' hts hus _ _ hp' hq =>
      obtain ⟨rfl, rfl⟩ := hp.unique hp'
      rw [List.append_cons s, List.append_cons s'] at hts hus
      rw [List.append_cancel_right hts] at hus
      obtain rfl := List.append_cancel_left hus
      exact hq

end Parser
end MiniML
