import MiniML.Proofs.Grammar.LayoutRules
import MiniML.Proofs.Grammar.Print

/-!
# What is written at a function

A function begins with the keyword, its parameters, and a result annotation if it has one
(`FunHead`); each parameter is a pattern, or a pattern and its annotation in parentheses
(`ParamAt`). The tree keeps less: the patterns, and one annotation for the whole function.
`Expr.Signed` says how the one comes from the other. If the function has a name, this is
the first thing that is written, and it is not the only one; the others are the parameters.
Nothing is annotated if the function has no annotation, and else the annotation has an arrow
for each parameter, with what is written there or `_` in front of it, and what is written
for the result, or `_`, is what remains.

Results:
* `reads_funParams`, `reads_result`: what is read between the keyword and the arrow.
* `signed_ofFunction`: the tree that is made of it.
-/
namespace MiniML

/-! ## Values in their places -/

namespace Parser

/-- The `i`-th token is a fixed one. -/
def TokenAt (ts : Array Token) (i : Nat) (f : Fixed) : Prop := ∃ t ∈ ts[i]?, t.lexeme = .fixed f

variable {α : Type}

/-- The parser reads a value from the `i`-th token on, and goes to the `j`-th one. -/
def ReadsAt (p : Parser α) (ts : Array Token) (i j : Nat) (a : α) : Prop :=
  ∃ c c' : Cursor, c.tokens = ts ∧ c.index = i ∧ p c = .ok a c' ∧ c'.index = j

variable {ts : Array Token} {p : Parser α} {P : Nat → Prop} {Q : Nat → α → Nat → Prop}

/-- From wherever something holds. -/
theorem reads_from (hp : ∀ i, Reads ts (· = i) (Q i) p) :
    Reads ts P (fun a j => ∃ i, P i ∧ Q i a j) p := by
  intro c hc hP
  have hrun : Reads ts (· = c.index) (fun a j => ∃ i, P i ∧ Q i a j) p :=
    (hp c.index).imp fun _ _ h => ⟨c.index, hP, h⟩
  exact hrun c hc rfl

theorem reads_at {g : α → List Outline} (hp : Lays ts g p) (i : Nat) :
    Reads ts (· = i) (fun a j => p.ReadsAt ts i j a) p := by
  intro c hc hi
  have hrun := hp c.index c hc (.nil (Nat.le_refl _))
  cases hpc : p c with
  | ok a c' =>
    rw [hpc] at hrun
    exact ⟨hrun.1, c, c', hc.tokens, hi, hpc, rfl⟩
  | error f c' =>
    rw [hpc] at hrun
    exact hrun

theorem reads_token (f : Fixed) (i : Nat) :
    Reads ts (· = i) (fun t j => ts[i]? = some t ∧ t.lexeme = .fixed f ∧ j = i + 1) (token f) := by
  rintro c hc rfl
  have hrun := lays_token f c.index c hc (.nil (Nat.le_refl _))
  unfold token take at hrun ⊢
  cases ht : c.peek with
  | none =>
    rw [ht] at hrun
    exact hrun
  | some t =>
    rw [ht] at hrun
    dsimp only at hrun ⊢
    by_cases hf : t.lexeme = .fixed f
    · rw [if_pos hf] at hrun ⊢
      exact ⟨hrun.1, hc.peek ht, hf, hc.index_advance (hc.peek ht)⟩
    · rw [if_neg hf] at hrun ⊢
      exact hrun

/-- What is read behind a token. -/
theorem reads_behind_token (f : Fixed) (hp : ∀ i, Reads ts (· = i) (Q i) p) (i : Nat) :
    Reads ts (· = i) (fun a j => TokenAt ts i f ∧ Q (i + 1) a j) (token f *> p) := by
  refine (reads_token f i).bind fun t => (reads_from hp).imp ?_
  rintro a j ⟨_, ⟨ht, hf, rfl⟩, hQ⟩
  exact ⟨⟨t, ht, hf⟩, hQ⟩

end Parser

namespace Grammar
open MiniML.Parser

/-! ## Heads of functions -/

/-- A parameter is written from the `i`-th token up to the `j`-th one, with its annotation
if it has one. -/
inductive ParamAt (ts : Array Token) : Nat → Nat → Pattern × Option Hint → Prop
  | plain {i j : Nat} {p : Pattern} : pattern.ReadsAt ts i j p → ParamAt ts i j (p, none)
  | annotated {i j k : Nat} {p : Pattern} {h : Hint} : TokenAt ts i .lparen →
      pattern.ReadsAt ts (i + 1) j p → TokenAt ts j .colon → hint.ReadsAt ts (j + 1) k h →
      TokenAt ts k .rparen → ParamAt ts i (k + 1) (p, some h)

/-- Parameters are written one after the other. -/
inductive ParamsAt (ts : Array Token) : Nat → Nat → List (Pattern × Option Hint) → Prop
  | nil {i : Nat} : ParamsAt ts i i []
  | cons {i j k : Nat} {x : Pattern × Option Hint} {xs : List (Pattern × Option Hint)} :
      ParamAt ts i j x → ParamsAt ts j k xs → ParamsAt ts i k (x :: xs)

/-- The annotation of a result is written, or nothing is. -/
inductive ResultAt (ts : Array Token) : Nat → Nat → Option Hint → Prop
  | none {i : Nat} : ResultAt ts i i none
  | some {i j : Nat} {h : Hint} : TokenAt ts i .colon → resultHint.ReadsAt ts (i + 1) j h →
      ResultAt ts i j (some h)

/-- At the token `start` a function is written with these parameters and this result. -/
inductive FunHead (ts : Array Token) : Token → List (Pattern × Option Hint) → Option Hint → Prop
  | intro {i j k : Nat} {start : Token} {params : List (Pattern × Option Hint)}
      {result : Option Hint} : ts[i]? = some start → start.lexeme = .fixed .fun_ →
      ParamsAt ts (i + 1) j params → ResultAt ts j k result → TokenAt ts k .arrow →
      FunHead ts start params result

end Grammar

open Grammar in
/-- A function keeps what is written at it: its name, if it has one, is the first parameter,
which has no annotation; there are others, and these are its parameters. It has no annotation
if nothing is annotated, and else that of each parameter in front of an arrow, `_` where there
is none, and that of the result behind the arrows. -/
def Expr.Signed (ts : Array Token) : Expr → Prop
  | .lam n ps h _ _ m => ∃ start params result own, FunHead ts start params result ∧
      m.span.start = start.span.start ∧ params = n.toList.map (fun n => (.ident n, none)) ++ own ∧
      own ≠ [] ∧ ps = own.map Prod.fst ∧
      (h = none ↔ result = none ∧ ∀ x ∈ params, x.2 = none) ∧
      ∀ g ∈ h, g.split ps.length = (own.map (·.2.getD .wildcard), result.getD .wildcard)
  | _ => True

/-! ## Annotations of functions -/

namespace Hint

variable {xs : List (Option Hint)} {r : Option Hint} {g : Hint}

theorem ofFunction_eq_none : ofFunction xs r = none ↔ r = none ∧ ∀ x ∈ xs, x = none := by
  unfold ofFunction
  split
  next h => simpa using h
  next h => simpa using h

theorem eq_of_mem_ofFunction (hg : g ∈ ofFunction xs r) :
    g = xs.foldr (fun x acc => .fn (x.getD .wildcard) acc) (r.getD .wildcard) := by
  unfold ofFunction at hg
  split at hg
  · cases hg
  · exact (Option.some.inj hg).symm

theorem split_foldr (xs : List (Option Hint)) (r : Hint) :
    (xs.foldr (fun x acc => .fn (x.getD .wildcard) acc) r).split xs.length =
      (xs.map (·.getD .wildcard), r) := by
  induction xs with
  | nil => cases r <;> rfl
  | cons x xs ih =>
    rw [List.length_cons, List.foldr_cons, split, ih]
    rfl

theorem denotable_getD {x : Option Hint} (hx : ∀ h ∈ x, h.Denotable) :
    (x.getD .wildcard).Denotable := by
  cases x with
  | none => exact .wildcard
  | some h => exact hx h rfl

theorem denotable_foldr (hxs : ∀ x ∈ xs, ∀ h ∈ x, Denotable h) (hg : Denotable g) :
    Denotable (xs.foldr (fun x acc => .fn (x.getD .wildcard) acc) g) := by
  induction xs with
  | nil => exact hg
  | cons x xs ih =>
    have hrest := ih fun y hy => hxs y (.tail x hy)
    exact .fn (denotable_getD (hxs x List.mem_cons_self)) hrest

end Hint

namespace Grammar
open MiniML.Parser

variable {ts : Array Token} {params : List (Pattern × Option Hint)} {result : Option Hint}

/-- The annotation of a function is one that it may have. -/
theorem signature_ofFunction {own : List (Pattern × Option Hint)}
    (hown : ∀ x ∈ own, ∀ h ∈ x.2, h.Denotable) (hresult : ∀ h ∈ result, h.Denotable) :
    Signature (own.map Prod.fst) (Hint.ofFunction (own.map Prod.snd) result) := by
  intro g hg
  obtain rfl := Hint.eq_of_mem_ofFunction hg
  constructor
  · exact Hint.denotable_foldr (List.forall_mem_map.mpr hown) (Hint.denotable_getD hresult)
  · have hsplit := Hint.split_foldr (own.map Prod.snd) (result.getD .wildcard)
    rw [List.length_map] at hsplit ⊢
    rw [hsplit, List.length_map, List.length_map]

/-- What the name takes of the parameters, and what it leaves. -/
theorem splitName_eq (declaration : Bool) (hne : params ≠ []) :
    ∃ n own, (if declaration then splitName params else (none, params)) = (n, own) ∧
      params = n.toList.map (fun n => (.ident n, none)) ++ own ∧ own ≠ [] ∧
      (n.isSome → declaration) := by
  cases declaration with
  | false => exact ⟨none, params, rfl, rfl, hne, nofun⟩
  | true =>
    refine ⟨_, _, rfl, ?_, ?_, fun _ => rfl⟩
    · show params = (splitName params).1.toList.map (fun n => (.ident n, none)) ++
        (splitName params).2
      unfold splitName
      split <;> rfl
    · show (splitName params).2 ≠ []
      unfold splitName
      split
      · exact List.cons_ne_nil _ _
      · exact hne

/-- What is made of the head of a function keeps what is written there. -/
theorem signed_ofFunction {start : Token} {n : Option Name} {own : List (Pattern × Option Hint)}
    (hhead : FunHead ts start params result)
    (hparams : params = n.toList.map (fun n => (.ident n, none)) ++ own) (hown : own ≠ [])
    (b : Expr) (r : Option Expr) :
    Expr.Signed ts (.lam n (own.map Prod.fst) (Hint.ofFunction (own.map Prod.snd) result) b r
      { span := spanTo start b r }) := by
  refine ⟨start, params, result, own, hhead, rfl, hparams, hown, rfl, ?_, fun g hg => ?_⟩
  · rw [Hint.ofFunction_eq_none, hparams]
    simp only [List.forall_mem_append, List.forall_mem_map]
    exact and_congr_right fun _ => ⟨fun h => ⟨fun _ _ => trivial, h⟩, fun h => h.2⟩
  · obtain rfl := Hint.eq_of_mem_ofFunction hg
    have hsplit := Hint.split_foldr (own.map Prod.snd) (result.getD .wildcard)
    rw [List.length_map] at hsplit ⊢
    rw [hsplit, List.map_map]
    rfl

/-! ## Reading the head of a function -/

theorem reads_param (i : Nat) : Reads ts (· = i) (fun x j => ParamAt ts i j x) param := by
  have hplain : Reads ts (· = i) (fun x j => ParamAt ts i j x) (do return (← pattern, none)) :=
    (reads_at lays_pattern i).bind fun p => reads_pure fun j h => .plain h
  refine Reads.either ?_ hplain
  refine (reads_token .lparen i).bind fun t => (reads_from (reads_at lays_pattern)).bind fun p =>
    (reads_from (reads_behind_token .colon (reads_at lays_hint))).bind fun h =>
      (reads_from (reads_token .rparen)).bind fun u => reads_pure ?_
  rintro j ⟨k, ⟨l, ⟨_, ⟨ht, hopen, rfl⟩, hp⟩, hcolon, hh⟩, hu, hclose, rfl⟩
  exact .annotated ⟨t, ht, hopen⟩ hp hcolon hh ⟨u, hu, hclose⟩

theorem reads_params (n : Nat) (i : Nat) :
    Reads ts (· = i) (fun xs j => ParamsAt ts i j xs) (manyUpTo param n) := by
  induction n generalizing i with
  | zero =>
    refine reads_pure ?_
    rintro j rfl
    exact .nil
  | succ n ih =>
    refine (reads_param i).optional.bind fun o => ?_
    cases o with
    | none =>
      refine reads_pure ?_
      rintro j rfl
      exact .nil
    | some x =>
      refine (reads_from ih).bind fun xs => reads_pure ?_
      rintro j ⟨k, hx, hxs⟩
      exact .cons hx hxs

/-- The parameters of a function, of which there is one at least. -/
theorem reads_funParams (i : Nat) :
    Reads ts (· = i) (fun xs j => xs ≠ [] ∧ ParamsAt ts i j xs) (many1 param) := by
  have hmany (i : Nat) : Reads ts (· = i) (fun xs j => ParamsAt ts i j xs) (many param) :=
    fun c => reads_params (c.remaining + 1) i c
  refine (reads_param i).bind fun x => (reads_from hmany).bind fun xs => reads_pure ?_
  rintro j ⟨k, hx, hxs⟩
  exact ⟨List.cons_ne_nil x xs, .cons hx hxs⟩

theorem reads_result (i : Nat) :
    Reads ts (· = i) (fun o j => ResultAt ts i j o) (optional (token .colon *> resultHint)) := by
  refine (reads_behind_token .colon (reads_at lays_resultHint) i).optional.imp fun o j h => ?_
  cases o with
  | none =>
    obtain rfl : j = i := h
    exact .none
  | some r => exact .some h.1 h.2

end Grammar
end MiniML
