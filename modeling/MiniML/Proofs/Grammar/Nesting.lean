import MiniML.Proofs.Grammar.LayoutRules

/-!
# Spans nest

If the tokens follow one another in their source, then so do the parts of a tree that is
made of them. A node runs from the start of a token to the end of one, since it is laid
over tokens (`Laid`), and its parts are laid over tokens among these, each part behind
the one before. So the places of the tokens carry over to those of the nodes: a node ends
nowhere before it starts, it has its parts inside, and they follow one another.

Nothing is asked of the text of the source, nor of what the tokens are.

Results:
* `Laid.nests`: the nodes of a row over tokens in order.
* `Grammar.nests_of_mem_parse`: the nodes of the trees of a program.
-/
namespace MiniML

/-! ## Locations in order -/

/-- A location is not behind another one: it is on an earlier line, or on the same line and
not in a later column. -/
instance : LE Loc := ⟨fun a b => a.line < b.line ∨ a.line = b.line ∧ a.col ≤ b.col⟩

namespace Loc

variable {a b c : Loc}

theorem le_def : a ≤ b ↔ a.line < b.line ∨ a.line = b.line ∧ a.col ≤ b.col := Iff.rfl

instance (a b : Loc) : Decidable (a ≤ b) := decidable_of_iff _ le_def.symm

theorem le_refl (a : Loc) : a ≤ a := .inr ⟨rfl, Nat.le_refl _⟩

theorem le_trans (h : a ≤ b) (h' : b ≤ c) : a ≤ c := by
  rw [le_def] at *
  omega

end Loc

/-- Each token starts at or before its end, and ends at or before the start of the next
one. -/
structure InOrder (tokens : List Token) : Prop where
  within : ∀ t ∈ tokens, t.span.start ≤ t.span.stop
  between : tokens.IsChain fun t u => t.span.stop ≤ u.span.start

namespace InOrder

variable {tokens : List Token} {t u : Token} {p q : Nat}

/-- A token ends at or before the start of every later one. -/
theorem pairwise (h : InOrder tokens) :
    tokens.Pairwise fun t u => t.span.stop ≤ u.span.start := by
  obtain ⟨hwithin, hbetween⟩ := h
  induction tokens with
  | nil => exact .nil
  | cons t ts ih =>
    cases hbetween with
    | singleton => exact List.pairwise_singleton _ _
    | @cons_cons _ u us htu hbetween =>
      have hts := ih (fun v hv => hwithin v (.tail t hv)) hbetween
      have hu : u.span.start ≤ u.span.stop := hwithin u (by simp)
      refine List.pairwise_cons.mpr ⟨fun v hv => ?_, hts⟩
      rcases List.mem_cons.mp hv with rfl | hv
      · exact htu
      · exact Loc.le_trans htu (Loc.le_trans hu ((List.pairwise_cons.mp hts).1 v hv))

theorem stop_le_start (h : InOrder tokens) (ht : tokens[p]? = some t) (hu : tokens[q]? = some u)
    (hpq : p < q) : t.span.stop ≤ u.span.start := by
  obtain ⟨hp, rfl⟩ := List.getElem?_eq_some_iff.mp ht
  obtain ⟨hq, rfl⟩ := List.getElem?_eq_some_iff.mp hu
  exact List.pairwise_iff_getElem.mp h.pairwise p q hp hq hpq

theorem start_le_stop (h : InOrder tokens) (ht : tokens[p]? = some t) :
    t.span.start ≤ t.span.stop := h.within t (List.mem_of_getElem? ht)

theorem start_le (h : InOrder tokens) (ht : tokens[p]? = some t) (hu : tokens[q]? = some u)
    (hpq : p ≤ q) : t.span.start ≤ u.span.start := by
  rcases Nat.eq_or_lt_of_le hpq with rfl | hlt
  · obtain rfl : t = u := Option.some.inj (ht.symm.trans hu)
    exact Loc.le_refl _
  · exact Loc.le_trans (h.start_le_stop ht) (h.stop_le_start ht hu hlt)

theorem stop_le (h : InOrder tokens) (ht : tokens[p]? = some t) (hu : tokens[q]? = some u)
    (hpq : p ≤ q) : t.span.stop ≤ u.span.stop := by
  rcases Nat.eq_or_lt_of_le hpq with rfl | hlt
  · obtain rfl : t = u := Option.some.inj (ht.symm.trans hu)
    exact Loc.le_refl _
  · exact Loc.le_trans (h.stop_le_start ht hu hlt) (h.start_le_stop hu)

end InOrder

/-! ## Nodes -/

namespace Outline

/-- The parts right below the root. -/
def parts : Outline → List Outline
  | .node _ parts => parts

mutual
/-- All outlines inside, the whole one included. -/
def nodes : Outline → List Outline
  | .node s parts => .node s parts :: nodesAll parts
/-- All outlines inside a list of them. -/
def nodesAll : List Outline → List Outline
  | [] => []
  | o :: os => nodes o ++ nodesAll os
end

theorem nodesAll_eq (os : List Outline) : nodesAll os = os.flatMap nodes := by
  induction os <;> simp_all [nodesAll]

theorem nodes_node (s : Span) (parts : List Outline) :
    nodes (.node s parts) = .node s parts :: parts.flatMap nodes := by
  rw [nodes, nodesAll_eq]

theorem mem_nodes_self (o : Outline) : o ∈ o.nodes := by
  cases o with
  | node s parts => exact List.mem_cons_self

theorem mem_nodes_of_part {o p q : Outline} (hp : p ∈ o.parts) (hq : q ∈ p.nodes) :
    q ∈ o.nodes := by
  cases o with
  | node s parts =>
    rw [nodes_node]
    exact List.mem_cons_of_mem _ (List.mem_flatMap.mpr ⟨p, hp, hq⟩)

/-- A node does not end before it starts, it starts where a token does and ends where one
does, its parts are inside, and of two parts the former ends before the latter starts. -/
structure Nests (tokens : List Token) (o : Outline) : Prop where
  ordered : o.span.start ≤ o.span.stop
  starts : ∃ t ∈ tokens, o.span.start = t.span.start
  stops : ∃ t ∈ tokens, o.span.stop = t.span.stop
  inside : ∀ p ∈ o.parts, o.span.start ≤ p.span.start ∧ p.span.stop ≤ o.span.stop
  apart : o.parts.Pairwise fun p q => p.span.stop ≤ q.span.start

end Outline

namespace Laid

variable {tokens : List Token} {i j : Nat} {o : Outline} {os : List Outline}

/-- An outline of a row runs over some of the tokens under the row. -/
theorem mem_range (h : Laid tokens.toArray i j os) (ho : o ∈ os) :
    ∃ (p q : Nat) (t u : Token), i ≤ p ∧ p ≤ q ∧ q < j ∧ tokens[p]? = some t ∧
      tokens[q]? = some u ∧ o.span = t.span.merge u.span := by
  induction h with
  | nil => cases ho
  | @cons i j p q t u parts os hip hpq ht hu _ hos _ ih =>
    rcases List.mem_cons.mp ho with rfl | ho
    · exact ⟨p, q, t, u, hip, hpq, hos.le, by simpa using ht, by simpa using hu, rfl⟩
    · obtain ⟨p', q', t', u', hqp', hrange⟩ := ih ho
      exact ⟨p', q', t', u', by omega, hrange⟩

/-- The outlines of a row follow one another. -/
theorem apart (h : Laid tokens.toArray i j os) (hin : InOrder tokens) :
    os.Pairwise fun o o' => o.span.stop ≤ o'.span.start := by
  induction h with
  | nil => exact .nil
  | @cons i j p q t u parts os _ _ _ hu _ hos _ ih =>
    refine List.pairwise_cons.mpr ⟨fun o ho => ?_, ih⟩
    obtain ⟨p', q', t', u', hqp', -, -, ht', -, hspan⟩ := hos.mem_range ho
    rw [List.getElem?_toArray] at hu
    rw [hspan]
    exact hin.stop_le_start hu ht' hqp'

/-- Over tokens in order the nodes of a row nest. -/
theorem nests (h : Laid tokens.toArray i j os) (hin : InOrder tokens)
    (ho : o ∈ os.flatMap Outline.nodes) : o.Nests tokens := by
  induction h with
  | nil => cases ho
  | @cons i j p q t u parts os hip hpq ht hu hparts hos ihparts ihos =>
    rw [List.flatMap_cons, Outline.nodes_node, List.cons_append, List.mem_cons,
      List.mem_append] at ho
    rw [List.getElem?_toArray] at ht hu
    rcases ho with rfl | ho | ho
    · refine ⟨Loc.le_trans (hin.start_le ht hu hpq) (hin.start_le_stop hu),
        ⟨t, List.mem_of_getElem? ht, rfl⟩, ⟨u, List.mem_of_getElem? hu, rfl⟩, fun o ho => ?_,
        hparts.apart hin⟩
      obtain ⟨p', q', t', u', hpp', -, hqq', ht', hu', hspan⟩ := hparts.mem_range ho
      rw [hspan]
      exact ⟨hin.start_le ht ht' hpp', hin.stop_le hu' hu (Nat.le_of_lt_succ hqq')⟩
    · exact ihparts ho
    · exact ihos ho

end Laid

/-! ## The trees of a program -/

namespace Grammar

/-- In the trees of a program whose tokens are in order the spans nest: those of
expressions, arms, patterns and names. -/
theorem nests_of_mem_parse {tokens : List Token} {d : Expr} {o : Outline}
    (hin : InOrder tokens) (hd : d ∈ (parse tokens).1) (ho : o ∈ d.outline.nodes) :
    o.Nests tokens := by
  obtain ⟨i, j, hlaid⟩ := exists_laid_of_mem_parse hd
  exact hlaid.nests hin (by simpa using ho)

/-- In `let x = match y with` and `(a, _) -> f a` on the next line, both the binding and
its value end with the arm, which runs from its pattern to the end of the call. -/
theorem nests_of_mem_parse_let :
    let token (l : Lexeme) (line i j : Nat) : Token := ⟨l, ⟨⟨line, i⟩, ⟨line, j⟩, ""⟩⟩
    let tokens := [token (.fixed .let_) 0 0 3, token (.word .ident "x") 0 4 5,
      token (.fixed .equals) 0 6 7, token (.fixed .match_) 0 8 13, token (.word .ident "y") 0 14 15,
      token (.fixed .with_) 0 16 20, token (.fixed .lparen) 1 0 1, token (.word .ident "a") 1 1 2,
      token (.fixed .comma) 1 2 3, token (.fixed .underscore) 1 4 5, token (.fixed .rparen) 1 5 6,
      token (.fixed .arrow) 1 7 9, token (.word .ident "f") 1 10 11, token (.word .ident "a") 1 12 13]
    let mark (k i l j : Nat) : Mark := ⟨⟨⟨k, i⟩, ⟨l, j⟩, ""⟩, .error⟩
    let name (s : String) (line i j : Nat) : Name := ⟨s, mark line i line j⟩
    let pattern : Pattern := .tuple [.ident (name "a" 1 1 2), .wildcard (mark 1 4 1 5)] (mark 1 0 1 6)
    let call : Expr := .app (.ident (name "f" 1 10 11)) [.ident (name "a" 1 12 13)] (mark 1 10 1 13)
    let arm : Arm := .mk pattern call (mark 1 0 1 13).span
    let value : Expr := .cases (.ident (name "y" 0 14 15)) [arm] (mark 0 8 1 13)
    let d : Expr := .bind (name "x" 0 4 5) none value none (mark 0 0 1 13)
    InOrder tokens ∧ d ∈ (parse tokens).1 ∧
      ∀ o ∈ [d.outline, value.outline, arm.outline, pattern.outline, call.outline],
        o ∈ d.outline.nodes ∧ o.Nests tokens := by
  intro token tokens mark name pattern call arm value d
  have hin : InOrder tokens := ⟨by decide, by decide⟩
  have hparse : (parse tokens).1 = [d] := by cbv
  have hd : d ∈ (parse tokens).1 := hparse ▸ List.mem_singleton_self d
  have hvalue {o : Outline} : o ∈ value.outline.nodes → o ∈ d.outline.nodes :=
    Outline.mem_nodes_of_part (.tail _ (.head _))
  have harm {o : Outline} : o ∈ arm.outline.nodes → o ∈ value.outline.nodes :=
    Outline.mem_nodes_of_part (.tail _ (.head _))
  have hnodes : ∀ o ∈ [d.outline, value.outline, arm.outline, pattern.outline, call.outline],
      o ∈ d.outline.nodes := by
    simp only [List.forall_mem_cons]
    refine ⟨Outline.mem_nodes_self _, hvalue (Outline.mem_nodes_self _),
      hvalue (harm (Outline.mem_nodes_self _)), hvalue (harm ?_), hvalue (harm ?_),
      List.forall_mem_nil _⟩
    · exact Outline.mem_nodes_of_part (.head _) (Outline.mem_nodes_self _)
    · exact Outline.mem_nodes_of_part (.tail _ (.head _)) (Outline.mem_nodes_self _)
  exact ⟨hin, hd, fun o ho => ⟨hnodes o ho, nests_of_mem_parse hin hd (hnodes o ho)⟩⟩

end Grammar
end MiniML
