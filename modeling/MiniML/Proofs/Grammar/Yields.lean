import MiniML.Grammar.Expr

/-!
# What parsers yield

A property of the values that a parser reads, wherever it is used and whatever it leaves
(`Parser.Yields`). The parser need not succeed, and nothing is said of the tokens that it
takes. The property is kept along the combinators, and by a recursive rule if one round of
the rule keeps it.

Results:
* `Parser.yields_pure` to `Parser.yields_recursive`: one lemma for each combinator.
-/
namespace MiniML

namespace Parser

/-- Whatever the parser reads satisfies `P`. -/
def Yields {α : Type} (P : α → Prop) (p : Parser α) : Prop := ∀ ⦃c a c'⦄, p c = .ok a c' → P a

variable {α β : Type} {P : α → Prop} {Q : β → Prop} {p q : Parser α} {f : α → Parser β}

theorem yields_pure {a : α} (h : P a) : Yields P (pure a) := by
  intro c b c' hb
  cases hb
  exact h

theorem Yields.bind (hp : Yields P p) (hf : ∀ a, P a → Yields Q (f a)) : Yields Q (p >>= f) := by
  intro c b c' hb
  change EStateM.bind p f c = .ok b c' at hb
  unfold EStateM.bind at hb
  cases hpc : p c with
  | ok a d =>
    rw [hpc] at hb
    exact hf a (hp hpc) hb
  | error e d =>
    rw [hpc] at hb
    cases hb

/-- What is read first may be anything. -/
theorem yields_behind (p : Parser α) (hf : ∀ a, Yields Q (f a)) : Yields Q (p >>= f) :=
  .bind (P := fun _ => True) (fun _ _ _ _ => trivial) fun a _ => hf a

theorem Yields.and {P' : α → Prop} (hp : Yields P p) (hp' : Yields P' p) :
    Yields (fun a => P a ∧ P' a) p := fun _ _ _ h => ⟨hp h, hp' h⟩

theorem yields_take {expected : String} {read : Token → Option (Except FaultCause α)}
    (h : ∀ t a, read t = some (.ok a) → P a) : Yields P (take expected read) := by
  intro c a c' hrun
  unfold take at hrun
  cases ht : c.peek with
  | none =>
    rw [ht] at hrun
    cases hrun
  | some t =>
    rw [ht] at hrun
    dsimp only at hrun
    split at hrun
    next hread =>
      cases hrun
      exact h t _ hread
    · cases hrun
    · cases hrun

theorem Yields.either (hp : Yields P p) (hq : Yields P q) : Yields P (either p q) := by
  intro c a c' h
  unfold Parser.either at h
  cases hpc : p c with
  | ok b d =>
    rw [hpc] at h
    cases h
    exact hp hpc
  | error e d =>
    rw [hpc] at h
    exact hq h

theorem Yields.label (name : String) (hp : Yields P p) : Yields P (label name p) := by
  intro c a c' h
  unfold Parser.label at h
  cases hpc : p c with
  | ok b d =>
    rw [hpc] at h
    cases h
    exact hp hpc
  | error e d =>
    rw [hpc] at h
    cases h

theorem Yields.optional (hp : Yields P p) : Yields (fun o => ∀ a ∈ o, P a) (optional p) := by
  intro c o c' h
  unfold Parser.optional at h
  cases hpc : p c with
  | ok b d =>
    rw [hpc] at h
    cases h
    exact fun a ha => Option.some.inj ha ▸ hp hpc
  | error e d =>
    rw [hpc] at h
    cases h
    exact nofun

theorem Yields.manyUpTo (hp : Yields P p) (n : Nat) :
    Yields (fun as => ∀ a ∈ as, P a) (manyUpTo p n) := by
  induction n with
  | zero => exact yields_pure (by simp)
  | succ n ih =>
    refine hp.optional.bind fun o ho => ?_
    cases o with
    | none => exact yields_pure (by simp)
    | some a => exact ih.bind fun as has => yields_pure (List.forall_mem_cons.mpr ⟨ho a rfl, has⟩)

theorem Yields.sepBy1 {separator : Parser β} (hp : Yields P p) :
    Yields (fun as => ∀ a ∈ as, P a) (sepBy1 p separator) := by
  have hnext : Yields P (separator *> p) := yields_behind separator fun _ => hp
  have hmany : Yields (fun as => ∀ a ∈ as, P a) (many (separator *> p)) :=
    fun c _ _ h => hnext.manyUpTo (c.remaining + 1) h
  exact hp.bind fun a ha => hmany.bind fun as has =>
    yields_pure (List.forall_mem_cons.mpr ⟨ha, has⟩)

/-- There is at least one item. -/
theorem yields_sepBy1_ne_nil (p : Parser α) (separator : Parser β) :
    Yields (· ≠ []) (sepBy1 p separator) :=
  yields_behind p fun a => yields_behind _ fun as => yields_pure (List.cons_ne_nil a as)

theorem yields_recursive {ι : Type} {rule : (ι → Parser α) → ι → Parser α}
    (hrule : ∀ self, (∀ i, Yields P (self i)) → ∀ i, Yields P (rule self i)) (i : ι) :
    Yields P (recursive rule i) := by
  have hunroll (n : Nat) : ∀ i, Yields P (unroll rule n i) := by
    induction n with
    | zero => exact fun _ _ _ _ h => nomatch h
    | succ n ih => exact hrule _ ih
  exact fun c _ _ h => hunroll (c.remaining + 1) i h

end Parser

end MiniML
