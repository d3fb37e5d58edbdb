import MiniML.Proofs.Grammar.Yields
import MiniML.Proofs.Grammar.Written

/-!
# What parsers make in given tokens

A parser that is used on given tokens may be known to make values with a property that
speaks of these tokens (`Parser.Makes`). Where the property does not, it is enough to know
that the parser yields such values anywhere (`Yields.makes`). The property is kept along
the combinators: the places where the values are read (`Parser.Reads`) play no part in it
any more, but for a head that is read step by step and then summed up (`Reads.makes`).

Results:
* `Parser.makes_pure` to `Parser.makes_recursive`: one lemma for each combinator.
-/
namespace MiniML

namespace Parser

variable {α β : Type} {ts : Array Token} {P : Nat → Prop} {Q Q' : α → Prop} {R : β → Prop}
  {p q : Parser α} {f : α → Parser β}

/-- In these tokens the parser only yields values with a property. -/
abbrev Makes (ts : Array Token) (Q : α → Prop) (p : Parser α) : Prop :=
  Reads ts (fun _ => True) (fun a _ => Q a) p

theorem makes_pure {a : α} (h : Q a) : Makes ts Q (pure a) := reads_pure fun _ _ => h

/-- From what is known of the place where it begins. -/
theorem makes_anywhere (h : ∀ i, Reads ts (· = i) (fun a _ => Q a) p) : Makes ts Q p :=
  fun c hc _ => h c.index c hc rfl

theorem makes_of_lays {g : α → List Outline} (h : Lays ts g p) : Makes ts (fun _ => True) p :=
  makes_anywhere fun i => (reads_at h i).imp fun _ _ _ => trivial

theorem Makes.and (hp : Makes ts Q p) (hy : Yields Q' p) : Makes ts (fun a => Q a ∧ Q' a) p := by
  intro c hc hP
  have hrun := hp c hc hP
  cases hpc : p c with
  | ok a c' =>
    rw [hpc] at hrun
    exact ⟨hrun.1, hrun.2, hy hpc⟩
  | error e c' =>
    rw [hpc] at hrun
    exact hrun

/-- What is known of all values, and of the tokens where they are read. -/
theorem Yields.makes {g : α → List Outline} (hy : Yields Q p) (h : Lays ts g p) : Makes ts Q p :=
  ((makes_of_lays h).and hy).imp fun _ _ h => h.2

/-- Once the value is read, only its property is kept. -/
theorem Reads.makes (hp : Reads ts P (fun a _ => Q a) p) (hf : ∀ a, Q a → Makes ts R (f a)) :
    Reads ts P (fun b _ => R b) (p >>= f) :=
  hp.bind fun a c hc ha => hf a ha c hc trivial

/-- What is read first may be anything. -/
theorem makes_behind {g : α → List Outline} (hp : Lays ts g p) (hf : ∀ a, Makes ts R (f a)) :
    Makes ts R (p >>= f) :=
  (makes_of_lays hp).makes fun a _ => hf a

theorem makes_nextIs {f : Bool → Parser β} (fixed : Fixed) (hf : ∀ b, Makes ts R (f b)) :
    Makes ts R (nextIs fixed >>= f) := (reads_nextIs fixed).bind hf

theorem makes_peek {f : Option Token → Parser β} (hf : ∀ o, Makes ts R (f o)) :
    Makes ts R (peek >>= f) := reads_peek.bind fun o => (hf o).imp_left fun _ => trivial

theorem Makes.optional (hp : Makes ts Q p) : Makes ts (fun o => ∀ a ∈ o, Q a) (optional p) :=
  (Reads.optional hp).imp fun o _ h a ha => by
    cases ha
    exact h

theorem Makes.manyUpTo (hp : Makes ts Q p) (n : Nat) :
    Makes ts (fun as => ∀ a ∈ as, Q a) (manyUpTo p n) := by
  induction n with
  | zero => exact makes_pure (by simp)
  | succ n ih =>
    refine hp.optional.makes fun o ho => ?_
    cases o with
    | none => exact makes_pure (by simp)
    | some a => exact ih.makes fun as has => makes_pure (List.forall_mem_cons.mpr ⟨ho a rfl, has⟩)

/-- There is at least one item. -/
theorem Makes.sepBy1 (hp : Makes ts Q p) (s : Fixed) :
    Makes ts (fun as => (∀ a ∈ as, Q a) ∧ as ≠ []) (sepBy1 p (token s)) := by
  have hnext : Makes ts Q (token s *> p) := makes_behind (lays_mark s) fun _ => hp
  have hmany : Makes ts (fun as => ∀ a ∈ as, Q a) (many (token s *> p)) :=
    fun c => hnext.manyUpTo (c.remaining + 1) c
  refine Makes.and ?_ (yields_sepBy1_ne_nil p _)
  exact Reads.makes hp fun a ha => hmany.makes fun as has =>
    makes_pure (List.forall_mem_cons.mpr ⟨ha, has⟩)

theorem makes_recursive {ι : Type} {rule : (ι → Parser α) → ι → Parser α} {Q : ι → α → Prop}
    (hrule : ∀ self, (∀ i, Makes ts (Q i) (self i)) → ∀ i, Makes ts (Q i) (rule self i)) (i : ι) :
    Makes ts (Q i) (recursive rule i) := by
  have hunroll (n : Nat) : ∀ i, Makes ts (Q i) (unroll rule n i) := by
    induction n with
    | zero => exact fun i c hc _ => ⟨hc, hc.faultHere _⟩
    | succ n ih => exact hrule _ ih
  exact fun c => hunroll (c.remaining + 1) i c

end Parser

end MiniML
