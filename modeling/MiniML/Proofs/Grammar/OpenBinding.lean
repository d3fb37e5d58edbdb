import MiniML.Proofs.Grammar.Shape

/-!
# Where a binding without a body stands

A `let` may lack its body, and a function may have a name, where a declaration may stand
only. That is not only at the root of a tree, but also behind `in`, so that a binding
without a body may stand below the root, as the last of the bindings in a row
(`open_below_root`). It stands nowhere else: not in a value, a condition, an argument or
whatever is inside a node otherwise, parentheses or not. This can be seen from the trees,
which have a text as declarations (`Expr.Denotable`): what is inside a node has a text as
a nested expression, and such a text does not end in a binding.

Results:
* `open_of_mem_parse`: a binding without a body is the declaration, or behind `in`.
-/
namespace MiniML

/-! ## Trees that have a text -/

namespace Expr.Denotable

variable {d : Bool} {e q x : Expr}

theorem inner (h : e.Denotable d) (hq : q ∈ e.inner) : q.Denotable false := by
  cases h with
  | const l m => cases hq
  | ident n => cases hq
  | tuple m hlen hes => exact hes q hq
  | unary op m he => exact List.forall_mem_singleton.mpr he q hq
  | binary op m hl hr =>
    exact List.forall_mem_cons.mpr ⟨hl, List.forall_mem_singleton.mpr hr⟩ q hq
  | app m hf hne hes => exact List.forall_mem_cons.mpr ⟨hf, hes⟩ q hq
  | cond m ht hy hn =>
    rcases List.mem_cons.mp hq with rfl | hq
    · exact ht
    · rcases List.mem_cons.mp hq with rfl | hq
      · exact hy
      · exact hn q (by simpa using hq)
  | cases m he hne hps hbs =>
    exact List.forall_mem_cons.mpr ⟨he, List.forall_mem_map.mpr hbs⟩ q hq
  | bind n m hh hv hb hd => exact List.forall_mem_singleton.mpr hv q hq
  | lam m hne hps hsig hb => exact List.forall_mem_singleton.mpr hb q hq
  | named n m hne hps hsig hb hr => exact List.forall_mem_singleton.mpr hb q hq

theorem behindIn (h : e.Denotable d) (hq : q ∈ e.behindIn?) : q.Denotable true := by
  cases h with
  | bind n m hh hv hb hd => exact hb q hq
  | named n m hne hps hsig hb hr => exact hr q hq
  | _ => cases hq

theorem parts (h : e.Denotable d) (hq : q ∈ e.parts) : ∃ d, q.Denotable d := by
  rcases List.mem_append.mp hq with hq | hq
  · exact ⟨false, h.inner hq⟩
  · exact ⟨true, h.behindIn (by simpa using hq)⟩

theorem nodes (h : e.Denotable d) (hx : x ∈ e.nodes) : ∃ d, x.Denotable d := by
  induction e using parts_induct generalizing d with
  | h e ih =>
    rw [nodes_eq] at hx
    rcases List.mem_cons.mp hx with rfl | hx
    · exact ⟨d, h⟩
    · obtain ⟨q, hq, hxq⟩ := List.mem_flatMap.mp hx
      obtain ⟨d', hq'⟩ := h.parts hq
      exact ih q hq hq' hxq

/-- An expression in a nested place declares nothing. -/
theorem declared? (h : e.Denotable false) : e.declared? = none := by
  cases h with
  | @bind _ n g v b m hh hv hb hd =>
    cases b with
    | none => cases hd rfl
    | some b => rfl
  | _ => rfl

end Expr.Denotable

namespace Grammar

variable {tokens : List Token} {d e : Expr}

/-- In a tree of a program, a `let` without a body and a function with a name but without a
rest are the tree itself or stand behind `in`; nothing else in the tree is one. -/
theorem open_of_mem_parse (hd : d ∈ (parse tokens).1) (he : e ∈ d.nodes) :
    (∀ x ∈ e.inner, x.declared? = none) ∧
      ∀ n, e.declared? = some n → e = d ∧ d.declared? = some n ∨
        ∃ p ∈ d.nodes, p.behindIn? = some e := by
  have hden := (formed_of_mem_parse hd).denotable
  have hinner {p x : Expr} (hp : p ∈ d.nodes) (hx : x ∈ p.inner) : x.declared? = none := by
    obtain ⟨_, hpden⟩ := hden.nodes hp
    exact (hpden.inner hx).declared?
  refine ⟨fun x hx => hinner he hx, fun n hn => ?_⟩
  rcases Expr.eq_or_exists_parent he with rfl | ⟨p, hp, hep⟩
  · exact .inl ⟨rfl, hn⟩
  · rcases List.mem_append.mp hep with hep | hep
    · rw [hinner hp hep] at hn
      cases hn
    · exact .inr ⟨p, hp, by simpa using hep⟩

/-- In `let x = 1 in let y = 2` the second binding is the body of the first one. -/
theorem parse_row :
    let tokens : List Token :=
      [.fixed .let_, .word .ident "x", .fixed .equals, .word .integer "1", .fixed .in_,
        .fixed .let_, .word .ident "y", .fixed .equals, .word .integer "2"].map fun l => ⟨l, {}⟩
    let e : Expr := .bind ⟨"y", {}⟩ none (.const (.int 2) {}) none {}
    let d : Expr := .bind ⟨"x", {}⟩ none (.const (.int 1) {}) (some e) {}
    d ∈ (parse tokens).1 ∧ e ∈ d.nodes := by
  intro tokens e d
  have hparse : (parse tokens).1 = [d] := by cbv
  have hbody : e ∈ d.parts := by simp [d, Expr.parts, Expr.behindIn?]
  refine ⟨hparse ▸ List.mem_singleton_self d, ?_⟩
  rw [Expr.nodes_eq]
  exact List.mem_cons_of_mem _ (List.mem_flatMap.mpr ⟨e, hbody, e.mem_nodes_self⟩)

/-- The second binding has no body, and stands behind `in`; nothing inside the first one
lacks a body. -/
theorem open_of_mem_parse_row :
    let tokens : List Token :=
      [.fixed .let_, .word .ident "x", .fixed .equals, .word .integer "1", .fixed .in_,
        .fixed .let_, .word .ident "y", .fixed .equals, .word .integer "2"].map fun l => ⟨l, {}⟩
    let e : Expr := .bind ⟨"y", {}⟩ none (.const (.int 2) {}) none {}
    let d : Expr := .bind ⟨"x", {}⟩ none (.const (.int 1) {}) (some e) {}
    d ∈ (parse tokens).1 ∧ e ∈ d.nodes ∧ (∀ x ∈ d.inner, x.declared? = none) ∧
      e.declared? = some ⟨"y", {}⟩ ∧ d.declared? = none ∧ ∃ p ∈ d.nodes, p.behindIn? = some e := by
  intro tokens e d
  obtain ⟨hd, he⟩ : d ∈ (parse tokens).1 ∧ e ∈ d.nodes := parse_row
  refine ⟨hd, he, (open_of_mem_parse hd d.mem_nodes_self).1, rfl, rfl, ?_⟩
  rcases (open_of_mem_parse hd he).2 _ rfl with ⟨-, hroot⟩ | hin
  · cases hroot
  · exact hin

/-- A binding without a body need not be the declaration. -/
theorem open_below_root : ¬ ∀ (tokens : List Token) (d e : Expr) (n : Name),
    d ∈ (parse tokens).1 → e ∈ d.nodes → e.declared? = some n → e = d := by
  intro h
  obtain ⟨hd, he⟩ := parse_row
  cases congrArg Expr.declared? (h _ _ _ _ hd he rfl)

end Grammar
end MiniML
