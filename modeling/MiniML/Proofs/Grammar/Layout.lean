import MiniML.Proofs.Tree.Outline
import MiniML.Grammar.Program

/-!
# Trees over tokens

A row of outlines lies over a range of tokens (`Laid`) if each outline runs from the
start of a token to the end of one that is not before it, its parts lie over these
tokens, and the next outline lies over tokens behind them. So rows can be joined, thinned
out, and enclosed by a node from the start of the first outline to the end of the last
one: this is how every rule of the grammar makes the span of its node.

A parser lays out what it reads (`Parser.Lays`) if that lies over the tokens it goes
past. The faults it meets on the way, and those it ends with, are places of tokens
(`Cursor.Grounded`). Parsers in sequence are followed step by step, with the row that is
laid so far (`Parser.Reads`).

Results:
* `Laid.enclose`: the node around a row.
* `Laid.mem_spans`: every span in a row runs from a token to another one behind it.
* `Parser.reads_pure` to `Parser.lays_recursive`: one lemma for each combinator.
-/
namespace MiniML

/-! ## Rows of outlines -/

/-- The outlines lie one after the other over tokens from `i` up to `j`. -/
inductive Laid (ts : Array Token) : Nat → Nat → List Outline → Prop
  | nil {i j : Nat} : i ≤ j → Laid ts i j []
  /-- An outline over the tokens from `p` to `q`, and the others behind it. -/
  | cons {i j p q : Nat} {t u : Token} {parts os : List Outline} : i ≤ p → p ≤ q →
      ts[p]? = some t → ts[q]? = some u → Laid ts p (q + 1) parts → Laid ts (q + 1) j os →
      Laid ts i j (.node (t.span.merge u.span) parts :: os)

namespace Laid

variable {ts : Array Token} {i j k l : Nat} {o last : Outline} {os os' parts : List Outline}

theorem le (h : Laid ts i j os) : i ≤ j := by
  induction h with
  | nil hij => exact hij
  | cons hip hpq _ _ _ _ _ ih => omega

/-- The range may be wider. -/
theorem widen (h : Laid ts j k os) (hij : i ≤ j) (hkl : k ≤ l) : Laid ts i l os := by
  induction h generalizing i with
  | nil hjk => exact .nil (by omega)
  | cons hjp hpq ht hu hparts _ _ ih =>
    exact .cons (Nat.le_trans hij hjp) hpq ht hu hparts (ih (Nat.le_refl _) hkl)

theorem append (h : Laid ts i j os) (h' : Laid ts j k os') : Laid ts i k (os ++ os') := by
  induction h with
  | nil hij => exact h'.widen hij (Nat.le_refl k)
  | cons hip hpq ht hu hparts _ _ ih => exact .cons hip hpq ht hu hparts (ih h')

/-- Outlines may be left out of a row. -/
theorem sublist (h : Laid ts i j os) (hsub : parts.Sublist os) : Laid ts i j parts := by
  induction h generalizing parts with
  | nil hij =>
    rw [List.sublist_nil.mp hsub]
    exact .nil hij
  | cons hip hpq ht hu hparts _ _ ih =>
    cases hsub with
    | cons _ hsub => exact (ih hsub).widen (by omega) (Nat.le_refl _)
    | cons_cons _ hsub => exact .cons hip hpq ht hu hparts (ih hsub)

theorem leaf {t : Token} (ht : ts[i]? = some t) : Laid ts i (i + 1) [.leaf t.span] :=
  .cons (Nat.le_refl i) (Nat.le_refl i) ht ht (.nil (Nat.le_succ i)) (.nil (Nat.le_refl _))

/-- The last outline of a row ends with a token, and the row lies over the tokens up to it. -/
theorem ends (h : Laid ts i j os) (hlast : last ∈ os.getLast?) :
    ∃ (p q : Nat) (t u : Token), i ≤ p ∧ p ≤ q ∧ q < j ∧ ts[q]? = some u ∧
      last.span = t.span.merge u.span ∧ Laid ts i (q + 1) os := by
  induction h with
  | nil => cases hlast
  | @cons i j p q t u parts os hip hpq ht hu hparts hos _ ih =>
    cases os with
    | nil =>
      cases hlast
      exact ⟨p, q, t, u, hip, hpq, hos.le, hu, rfl,
        .cons hip hpq ht hu hparts (.nil (Nat.le_refl _))⟩
    | cons o os =>
      obtain ⟨p', q', t', u', hqp, hpq', hqj, hu', hspan, hlaid⟩ := ih hlast
      exact ⟨p', q', t', u', by omega, hpq', hqj, hu', hspan, .cons hip hpq ht hu hparts hlaid⟩

/-- A node from the start of the first outline of a row to the end of the last one, with
some of the row as its parts. -/
theorem enclose (last : Outline) {s : Span} (h : Laid ts i j (o :: os))
    (hlast : last ∈ (o :: os).getLast?) (hs : s = o.span.merge last.span)
    (hparts : parts.Sublist (o :: os)) : Laid ts i j [.node s parts] := by
  obtain ⟨p', q', t', u', hip', hpq', hqj, hu', hspan, hrow⟩ := h.ends hlast
  cases hrow with
  | @cons _ _ p q t u _ _ hip hpq ht hu hown hos =>
    -- the row begins with the token `p`, so that it lies over the tokens of the node
    have hrow : Laid ts p (q' + 1) (.node (t.span.merge u.span) _ :: os) :=
      .cons (Nat.le_refl p) hpq ht hu hown hos
    have hpq' : p ≤ q' := by
      have hle := hos.le
      omega
    rw [hs, hspan]
    exact .cons hip hpq' ht hu' (hrow.sublist hparts) (.nil hqj)

/-- A span in a row runs from a token to another one that is not before it. -/
theorem mem_spans {s : Span} (h : Laid ts i j os) (hs : s ∈ os.flatMap Outline.spans) :
    ∃ (p q : Nat) (t u : Token), p ≤ q ∧ ts[p]? = some t ∧ ts[q]? = some u ∧
      s = t.span.merge u.span := by
  induction h with
  | nil => cases hs
  | @cons i j p q t u parts os hip hpq ht hu hparts hos ihparts ihos =>
    rw [List.flatMap_cons, Outline.spans_node, List.cons_append, List.mem_cons,
      List.mem_append] at hs
    rcases hs with rfl | hs | hs
    · exact ⟨p, q, t, u, hpq, ht, hu, rfl⟩
    · exact ihparts hs
    · exact ihos hs

end Laid

/-! ## Faults at tokens -/

/-- The place of a fault, if it has any, is that of a token, or of nothing. -/
def Fault.Grounded (ts : Array Token) (f : Fault) : Prop :=
  ∀ s ∈ f.span, s = .nowhere ∨ ∃ t ∈ ts, s = Token.span t

/-- A cursor in these tokens, all of whose faults are at tokens. -/
structure Cursor.Grounded (ts : Array Token) (c : Cursor) : Prop where
  tokens : c.tokens = ts
  furthest : ∀ kf ∈ c.furthest, kf.2.Grounded ts
  faults : ∀ f ∈ c.faults, f.Grounded ts

namespace Cursor.Grounded

variable {ts : Array Token} {c : Cursor} {f : Fault}

theorem restore (h : c.Grounded ts) (i : Nat) : (c.restore i).Grounded ts :=
  ⟨h.tokens, h.furthest, h.faults⟩

theorem clear (h : c.Grounded ts) : c.clear.Grounded ts := ⟨h.tokens, nofun, h.faults⟩

theorem advance (h : c.Grounded ts) : c.advance.Grounded ts := by
  unfold Cursor.advance
  split
  · exact ⟨h.tokens, h.furthest, h.faults⟩
  · exact h

theorem index_advance {t : Token} (h : c.Grounded ts) (ht : ts[c.index]? = some t) :
    c.advance.index = c.index + 1 := by
  have hlt : c.index < c.tokens.size := by
    rw [h.tokens]
    exact (Array.getElem?_eq_some_iff.mp ht).1
  unfold Cursor.advance
  rw [if_pos (by exact decide_eq_true hlt)]

theorem record (h : c.Grounded ts) (hf : f.Grounded ts) : (c.record f).Grounded ts := by
  have hhere : Grounded ts { c with furthest := some (c.index, f) } :=
    ⟨h.tokens, fun kf hkf => by
      cases hkf
      exact hf, h.faults⟩
  unfold Cursor.record
  split
  · exact hhere
  · split
    · exact hhere
    · exact h

theorem commit (h : c.Grounded ts) : c.commit.Grounded ts := by
  unfold Cursor.commit
  split
  · exact h
  next k f hk =>
    refine ⟨h.tokens, nofun, fun g hg => ?_⟩
    rcases List.mem_append.mp hg with hg | hg
    · exact h.faults g hg
    · rw [List.mem_singleton.mp hg]
      exact h.furthest _ hk

theorem skipWhile (h : c.Grounded ts) (p : Token → Bool) (n : Nat) :
    (c.skipWhile p n).Grounded ts := by
  induction n generalizing c with
  | zero => exact h
  | succ n ih =>
    unfold Cursor.skipWhile
    split
    · split
      · exact ih h.advance
      · exact h
    · exact h

theorem peek {t : Token} (h : c.Grounded ts) (ht : c.peek = some t) :
    ts[c.index]? = some t := by
  rw [← h.tokens]
  exact ht

/-- A fault at the next token. -/
theorem next {t : Token} (h : c.Grounded ts) (ht : c.peek = some t) (hf : f.span = some t.span) :
    f.Grounded ts := by
  intro s hs
  rw [hf] at hs
  cases hs
  exact .inr ⟨t, Array.mem_of_getElem? (h.peek ht), rfl⟩

/-- A fault at the token before. -/
theorem last (h : c.Grounded ts) (hf : f.span = some c.lastSpan) : f.Grounded ts := by
  intro s hs
  rw [hf] at hs
  cases hs
  unfold Cursor.lastSpan
  split
  · exact .inl rfl
  next i _ =>
    rw [h.tokens]
    cases ht : ts[i]? with
    | none => exact .inl rfl
    | some t => exact .inr ⟨t, Array.mem_of_getElem? ht, rfl⟩

theorem faultHere (h : c.Grounded ts) (cause : FaultCause) :
    (c.faultHere cause).Grounded ts := by
  unfold Cursor.faultHere
  split
  next t ht => exact h.next ht rfl
  · exact h.last rfl

end Cursor.Grounded

/-! ## Combinators -/

namespace Parser

variable {α β : Type} {ts : Array Token}

/-- In a place where `P` holds the parser reads a value `a` and ends in a place where
`Q a` holds, or fails. -/
def Reads (ts : Array Token) (P : Nat → Prop) (Q : α → Nat → Prop) (p : Parser α) : Prop :=
  ∀ c : Cursor, c.Grounded ts → P c.index →
    match p c with
    | .ok a c' => c'.Grounded ts ∧ Q a c'.index
    | .error f c' => c'.Grounded ts ∧ f.Grounded ts

/-- The outlines `g a` of what the parser reads lie over the tokens that it goes past. -/
def Lays (ts : Array Token) (g : α → List Outline) (p : Parser α) : Prop :=
  ∀ i, Reads ts (Laid ts i · []) (fun a j => Laid ts i j (g a)) p

variable {P : Nat → Prop} {Q R : α → Nat → Prop} {S : β → Nat → Prop} {p q : Parser α}
  {f : α → Parser β} {g g' : α → List Outline} {i : Nat} {os : List Outline}

theorem reads_pure {a : α} (h : ∀ j, P j → Q a j) : Reads ts P Q (pure a) :=
  fun c hc hP => ⟨hc, h c.index hP⟩

theorem Reads.bind (hp : Reads ts P Q p) (hf : ∀ a, Reads ts (Q a) S (f a)) :
    Reads ts P S (p >>= f) := by
  intro c hc hP
  have h := hp c hc hP
  show match EStateM.bind p f c with
    | .ok b c' => c'.Grounded ts ∧ S b c'.index
    | .error e c' => c'.Grounded ts ∧ e.Grounded ts
  unfold EStateM.bind
  cases hpc : p c with
  | ok a d =>
    rw [hpc] at h
    exact hf a d h.1 h.2
  | error e d =>
    rw [hpc] at h
    exact h

theorem Reads.imp (hp : Reads ts P Q p) (h : ∀ a j, Q a j → R a j) : Reads ts P R p := by
  intro c hc hP
  have hrun := hp c hc hP
  cases hpc : p c with
  | ok a d =>
    rw [hpc] at hrun
    exact ⟨hrun.1, h a _ hrun.2⟩
  | error e d =>
    rw [hpc] at hrun
    exact hrun

theorem Reads.imp_left {P' : Nat → Prop} (hp : Reads ts P Q p) (h : ∀ {j}, P' j → P j) :
    Reads ts P' Q p := fun c hc hP => hp c hc (h hP)

/-- What is laid behind a row prolongs it. -/
theorem Lays.behind (hp : Lays ts g p) (i : Nat) (os : List Outline) :
    Reads ts (Laid ts i · os) (fun a j => Laid ts i j (os ++ g a)) p := by
  intro c hc hos
  have hrun := hp c.index c hc (.nil (Nat.le_refl _))
  cases hpc : p c with
  | ok a d =>
    rw [hpc] at hrun
    exact ⟨hrun.1, hos.append hrun.2⟩
  | error e d =>
    rw [hpc] at hrun
    exact hrun

theorem Lays.sublist (hp : Lays ts g p) (h : ∀ a, (g' a).Sublist (g a)) : Lays ts g' p :=
  fun i => (hp i).imp fun a _ hlaid => hlaid.sublist (h a)

theorem lays_pure (a : α) (h : g a = []) : Lays ts g (pure a) :=
  fun i => reads_pure fun j hj => by rwa [h]

/-- The first of two parsers may leave nothing in the row. -/
theorem Lays.seqRight {p : Parser β} (hp : Lays ts (fun _ => []) p) (hq : Lays ts g q) :
    Lays ts g (p *> q) :=
  fun i => (hp.behind i []).bind fun _ => hq.behind i []

/-- What is made of the value that was read. -/
theorem Lays.map {g : β → List Outline} {f : α → β} (hp : Lays ts (fun a => g (f a)) p) :
    Lays ts g (do return f (← p)) :=
  fun i => (hp i).bind fun _ => reads_pure fun _ h => h

theorem raise_grounded {c : Cursor} {e : Fault} (hc : c.Grounded ts) (he : e.Grounded ts) :
    (c.record e).Grounded ts ∧ e.Grounded ts :=
  ⟨hc.record he, he⟩

/-- What is made of a token lies where the token does. -/
theorem lays_take {expected : String} {read : Token → Option (Except FaultCause α)}
    (h : ∀ t a, read t = some (.ok a) → (g a).Sublist [.leaf t.span]) :
    Lays ts g (take expected read) := by
  intro i c hc hi
  unfold take
  cases ht : c.peek with
  | none => exact raise_grounded hc (hc.last rfl)
  | some t =>
    dsimp only
    cases hr : read t with
    | none => exact raise_grounded hc (hc.next ht rfl)
    | some r =>
      cases r with
      | error cause => exact raise_grounded hc (hc.next ht rfl)
      | ok a =>
        refine ⟨hc.advance, ?_⟩
        rw [hc.index_advance (hc.peek ht)]
        exact (hi.append (Laid.leaf (hc.peek ht))).sublist (h t a hr)

theorem lays_token (f : Fixed) : Lays ts (fun t => [.leaf t.span]) (token f) :=
  lays_take fun t a h => by
    split at h
    · cases h
      exact .refl _
    · cases h

/-- A token that leaves nothing in the row. -/
theorem lays_mark (f : Fixed) : Lays ts (fun _ => []) (token f) :=
  (lays_token f).sublist fun _ => List.nil_sublist _

theorem reads_peek : Reads ts P (fun o j => P j ∧ o = ts[j]?) peek :=
  fun c hc hP => ⟨hc, hP, by rw [← hc.tokens]; rfl⟩

theorem reads_nextIs (f : Fixed) : Reads ts P (fun _ => P) (nextIs f) := fun _ hc hP => ⟨hc, hP⟩

/-- Whatever is skipped leaves nothing in the row. -/
theorem lays_skip : Lays ts (fun _ => []) skip := by
  intro i c hc hi
  refine ⟨hc.advance, hi.widen (Nat.le_refl i) ?_⟩
  unfold Cursor.advance
  split
  · exact Nat.le_succ c.index
  · exact Nat.le_refl c.index

/-- The token that is skipped becomes part of the row. -/
theorem reads_skip_token {t : Token} :
    Reads ts (fun j => Laid ts i j os ∧ some t = ts[j]?)
      (fun _ j => Laid ts i j (os ++ [.leaf t.span])) skip := by
  intro c hc ⟨hos, ht⟩
  refine ⟨hc.advance, ?_⟩
  rw [hc.index_advance ht.symm]
  exact hos.append (Laid.leaf ht.symm)

theorem Reads.either (hp : Reads ts P Q p) (hq : Reads ts P Q q) :
    Reads ts P Q (either p q) := by
  intro c hc hP
  have h := hp c hc hP
  unfold Parser.either
  cases hpc : p c with
  | ok a d =>
    rw [hpc] at h
    exact h
  | error e d =>
    rw [hpc] at h
    exact hq _ (h.1.restore c.index) hP

theorem Lays.either (hp : Lays ts g p) (hq : Lays ts g q) : Lays ts g (either p q) :=
  fun i => (hp i).either (hq i)

theorem Reads.label (name : String) (hp : Reads ts P Q p) : Reads ts P Q (label name p) := by
  intro c hc hP
  have h := hp c hc hP
  unfold Parser.label
  cases hpc : p c with
  | ok a d =>
    rw [hpc] at h
    exact h
  | error e d =>
    rw [hpc] at h
    exact raise_grounded h.1 h.2

theorem Lays.label (name : String) (hp : Lays ts g p) : Lays ts g (label name p) :=
  fun i => (hp i).label name

/-- Without a value the place stays. -/
theorem Reads.optional (hp : Reads ts P Q p) :
    Reads ts P (fun o j => o.elim (P j) (Q · j)) (optional p) := by
  intro c hc hP
  have h := hp c hc hP
  unfold Parser.optional
  cases hpc : p c with
  | ok a d =>
    rw [hpc] at h
    exact h
  | error e d =>
    rw [hpc] at h
    exact ⟨h.1.restore c.index, hP⟩

theorem Lays.optional (hp : Lays ts g p) :
    Lays ts (fun o => o.toList.flatMap g) (optional p) :=
  fun i => (hp i).optional.imp fun o j h => by
    cases o with
    | none => exact h
    | some a => simpa using h

theorem Lays.manyUpTo (hp : Lays ts g p) (n : Nat) :
    Lays ts (fun as => as.flatMap g) (manyUpTo p n) := by
  induction n with
  | zero => exact lays_pure [] rfl
  | succ n ih =>
    refine fun i => (hp.optional i).bind fun o => ?_
    cases o with
    | none => exact reads_pure fun j h => h
    | some a => exact (ih.behind i _).bind fun as => reads_pure fun j h => by simpa using h

theorem Lays.many (hp : Lays ts g p) : Lays ts (fun as => as.flatMap g) (many p) :=
  fun i c => hp.manyUpTo (c.remaining + 1) i c

theorem Lays.many1 (hp : Lays ts g p) : Lays ts (fun as => as.flatMap g) (many1 p) :=
  fun i => (hp i).bind fun _ => (hp.many.behind i _).bind fun _ => reads_pure fun _ h => h

/-- There is at least one item. -/
theorem Lays.sepBy1 {separator : Parser β} (hp : Lays ts g p)
    (hs : Lays ts (fun _ => []) separator) (i : Nat) (os : List Outline) :
    Reads ts (Laid ts i · os) (fun as j => as ≠ [] ∧ Laid ts i j (os ++ as.flatMap g))
      (sepBy1 p separator) :=
  (hp.behind i os).bind fun a => ((hs.seqRight hp).many.behind i _).bind fun as =>
    reads_pure fun j h => ⟨List.cons_ne_nil a as, by simpa using h⟩

theorem lays_recursive {ι : Type} {rule : (ι → Parser α) → ι → Parser α}
    (hrule : ∀ self, (∀ k, Lays ts g (self k)) → ∀ k, Lays ts g (rule self k)) (k : ι) :
    Lays ts g (recursive rule k) := by
  have hunroll (n : Nat) : ∀ k, Lays ts g (unroll rule n k) := by
    induction n with
    | zero => exact fun k i c hc _ => ⟨hc, hc.faultHere _⟩
    | succ n ih => exact hrule _ ih
  exact fun i c => hunroll (c.remaining + 1) k i c

end Parser
end MiniML
