import MiniML.Tree

/-!
# How operators group

Operands with operators between them make a binary tree. In a tree that is `Grouped`,
what stands below an operator binds tighter than it does, or as tight on the side to
which the operator groups. Such a tree is determined by its operands and operators:
one operator more goes to the end of the right spine, below the operators that leave
it to their right operand (`OpTree.snoc`), and every grouped tree is made this way.
-/
namespace MiniML

namespace BinaryOp

/-- Operators that bind equally tight group to the same side. -/
theorem groupsRight_eq {p q : BinaryOp} (h : p.precedence = q.precedence) :
    p.groupsRight = q.groupsRight := by
  cases p <;> cases q <;> first | rfl | cases h

theorem one_le_precedence (o : BinaryOp) : 1 ≤ o.precedence := by cases o <;> decide

theorem precedence_le_rightLevel (o : BinaryOp) : o.precedence ≤ o.rightLevel := by
  unfold rightLevel
  split
  · exact Nat.le_refl _
  · exact Nat.le_succ _

/-- The operator may stand at the root of the left operand of another one. -/
def StandsLeft (q o : BinaryOp) : Prop :=
  o.precedence < q.precedence ∨ o.precedence = q.precedence ∧ o.groupsRight = false

/-- The operator may stand at the root of the right operand of another one. -/
def StandsRight (q o : BinaryOp) : Prop :=
  o.precedence < q.precedence ∨ o.precedence = q.precedence ∧ o.groupsRight = true

variable {o q : BinaryOp}

theorem standsRight_iff : q.StandsRight o ↔ o.rightLevel ≤ q.precedence := by
  unfold StandsRight rightLevel
  cases o.groupsRight with
  | false =>
    rw [if_neg Bool.false_ne_true]
    simp only [Bool.false_eq_true, and_false, or_false, Nat.succ_le_iff]
  | true =>
    rw [if_pos rfl]
    simp only [and_true]
    omega

/-- Of two operators in a row, either the first is in the left operand of the second,
or the second in the right operand of the first. -/
theorem standsLeft_iff : q.StandsLeft o ↔ o.precedence < q.rightLevel := by
  unfold StandsLeft rightLevel
  rcases Nat.lt_trichotomy o.precedence q.precedence with h | h | h
  · exact ⟨fun _ => by split <;> omega, fun _ => .inl h⟩
  · rw [groupsRight_eq h]
    cases q.groupsRight <;> simp [h]
  · exact ⟨fun _ => by omega, fun hlt => by split at hlt <;> omega⟩

theorem StandsRight.precedence_le (h : q.StandsRight o) : o.precedence ≤ q.precedence :=
  Nat.le_trans o.precedence_le_rightLevel (standsRight_iff.mp h)

theorem StandsLeft.precedence_le (h : q.StandsLeft o) : o.precedence ≤ q.precedence := by
  rcases h with h | ⟨h, -⟩
  · exact Nat.le_of_lt h
  · exact Nat.le_of_eq h

end BinaryOp

/-- Operands with operators between them. -/
inductive OpTree
  | leaf (e : Expr)
  | node (op : BinaryOp) (left right : OpTree)

namespace OpTree

/-- The expression of a tree. -/
def expr : OpTree → Expr
  | leaf e => e
  | node op l r => .binary op l.expr r.expr { span := l.expr.span.merge r.expr.span }

/-- The operands, from left to right. -/
def leaves : OpTree → List Expr
  | leaf e => [e]
  | node _ l r => l.leaves ++ r.leaves

/-- The operators, from left to right. -/
def ops : OpTree → List BinaryOp
  | leaf _ => []
  | node op l r => l.ops ++ op :: r.ops

/-- The operator at the root. -/
def root? : OpTree → Option BinaryOp
  | leaf _ => none
  | node op _ _ => some op

/-- The operators below each operator may stand there. -/
def Grouped : OpTree → Prop
  | leaf _ => True
  | node op l r =>
    (∀ q ∈ l.root?, q.StandsLeft op) ∧ (∀ q ∈ r.root?, q.StandsRight op) ∧
      l.Grouped ∧ r.Grouped

variable {t t' : OpTree} {o p q : BinaryOp} {e : Expr}

theorem mem_ops_of_root? (h : q ∈ t.root?) : q ∈ t.ops := by
  cases t with
  | leaf => cases h
  | node p l r =>
    obtain rfl := Option.some.inj h
    exact List.mem_append_right _ List.mem_cons_self

/-- The operator at the root is one of the least tight. -/
theorem Grouped.precedence_le (h : t.Grouped) (hp : p ∈ t.root?) (hq : q ∈ t.ops) :
    p.precedence ≤ q.precedence := by
  induction t generalizing p with
  | leaf => cases hp
  | node o l r ihl ihr =>
    obtain rfl := Option.some.inj hp
    obtain ⟨hl, hr, hgl, hgr⟩ := h
    rcases List.mem_append.mp hq with hq | hq
    · cases l with
      | leaf => cases hq
      | node p' l₁ l₂ => exact Nat.le_trans (hl p' rfl).precedence_le (ihl hgl rfl hq)
    · rcases List.mem_cons.mp hq with rfl | hq
      · exact Nat.le_refl _
      · cases r with
        | leaf => cases hq
        | node p' r₁ r₂ => exact Nat.le_trans (hr p' rfl).precedence_le (ihr hgr rfl hq)

/-- Every operator in the right operand may stand at its root. -/
theorem Grouped.standsRight {l r : OpTree} (h : (node o l r).Grouped) (hq : q ∈ r.ops) :
    q.StandsRight o := by
  obtain ⟨-, hr, -, hgr⟩ := h
  cases r with
  | leaf => cases hq
  | node p r₁ r₂ =>
    exact BinaryOp.standsRight_iff.mpr (Nat.le_trans (BinaryOp.standsRight_iff.mp (hr p rfl))
      (hgr.precedence_le rfl hq))

/-! ## One operator more -/

/-- Add an operator and its right operand behind a tree. -/
def snoc : OpTree → BinaryOp → Expr → OpTree
  | leaf a, o, e => node o (leaf a) (leaf e)
  | node p l r, o, e =>
    if p.rightLevel ≤ o.precedence then node p l (r.snoc o e) else node o (node p l r) (leaf e)

theorem leaves_snoc (t : OpTree) (o : BinaryOp) (e : Expr) :
    (t.snoc o e).leaves = t.leaves ++ [e] := by
  induction t with
  | leaf => rfl
  | node p l r _ ih =>
    rw [snoc]
    split
    · rw [leaves, ih, leaves, List.append_assoc]
    · rfl

theorem ops_snoc (t : OpTree) (o : BinaryOp) (e : Expr) : (t.snoc o e).ops = t.ops ++ [o] := by
  induction t with
  | leaf => rfl
  | node p l r _ ih =>
    rw [snoc]
    split
    · rw [ops, ih, ops, List.append_assoc, List.cons_append]
    · rfl

theorem root?_snoc (h : q ∈ (t.snoc o e).root?) : q = o ∨ q ∈ t.root? := by
  cases t with
  | leaf => exact .inl (Option.some.inj h).symm
  | node p l r =>
    rw [snoc] at h
    split at h
    · exact .inr h
    · exact .inl (Option.some.inj h).symm

theorem Grouped.snoc (h : t.Grouped) (o : BinaryOp) (e : Expr) : (t.snoc o e).Grouped := by
  induction t with
  | leaf => exact ⟨nofun, nofun, trivial, trivial⟩
  | node p l r _ ih =>
    obtain ⟨hl, hr, hgl, hgr⟩ := h
    rw [OpTree.snoc]
    split
    next hle =>
      refine ⟨hl, fun q hq => ?_, hgl, ih hgr⟩
      rcases root?_snoc hq with rfl | hq
      · exact BinaryOp.standsRight_iff.mpr hle
      · exact hr q hq
    next hlt =>
      refine ⟨?_, nofun, ⟨hl, hr, hgl, hgr⟩, trivial⟩
      rintro _ ⟨⟩
      exact BinaryOp.standsLeft_iff.mpr (Nat.lt_of_not_le hlt)

/-- A grouped tree with an operator has a last one. -/
theorem Grouped.eq_snoc (h : t.Grouped) :
    (∃ a, t = leaf a) ∨
      ∃ (t' : OpTree) (o : BinaryOp) (e : Expr), t'.Grouped ∧ t = t'.snoc o e := by
  induction t with
  | leaf a => exact .inl ⟨a, rfl⟩
  | node o l r _ ih =>
    obtain ⟨hl, hr, hgl, hgr⟩ := id h
    rcases ih hgr with ⟨e, rfl⟩ | ⟨r', o', e, hgr', rfl⟩
    · -- the root is the last operator
      refine .inr ⟨l, o, e, hgl, ?_⟩
      cases l with
      | leaf => rfl
      | node p l₁ l₂ =>
        rw [OpTree.snoc, if_neg (Nat.not_le_of_lt (BinaryOp.standsLeft_iff.mp (hl p rfl)))]
    · have hops (q : BinaryOp) (hq : q ∈ r'.ops ++ [o']) : q.StandsRight o :=
        h.standsRight (by rw [ops_snoc]; exact hq)
      refine .inr ⟨node o l r', o', e, ⟨hl, fun q hq => ?_, hgl, hgr'⟩, ?_⟩
      · exact hops q (List.mem_append_left _ (mem_ops_of_root? hq))
      · rw [OpTree.snoc, if_pos (BinaryOp.standsRight_iff.mp (hops o' (by simp)))]

/-- The grouping is determined by the operands and the operators. -/
theorem Grouped.unique (h : t.Grouped) (h' : t'.Grouped) (hleaves : t.leaves = t'.leaves)
    (hops : t.ops = t'.ops) : t = t' := by
  induction hn : t.ops.length generalizing t t' with
  | zero =>
    have hleaf {t : OpTree} (h : t.Grouped) (hn : t.ops.length = 0) : ∃ a, t = leaf a := by
      refine h.eq_snoc.resolve_right ?_
      rintro ⟨t', o, e, -, rfl⟩
      rw [ops_snoc, List.length_append] at hn
      cases hn
    obtain ⟨a, rfl⟩ := hleaf h hn
    obtain ⟨b, rfl⟩ := hleaf h' (hops ▸ hn)
    rw [(List.cons.inj hleaves).1]
  | succ n ih =>
    have hsnoc {t : OpTree} (h : t.Grouped) (hn : t.ops.length = n + 1) :
        ∃ (t' : OpTree) (o : BinaryOp) (e : Expr), t'.Grouped ∧ t = t'.snoc o e := by
      refine h.eq_snoc.resolve_left ?_
      rintro ⟨a, rfl⟩
      cases hn
    obtain ⟨s, o, e, hs, rfl⟩ := hsnoc h hn
    obtain ⟨s', o', e', hs', rfl⟩ := hsnoc h' (hops ▸ hn)
    rw [leaves_snoc, leaves_snoc] at hleaves
    rw [ops_snoc, ops_snoc] at hops
    obtain ⟨hinit, ⟨⟩⟩ := List.append_inj' hleaves rfl
    obtain ⟨hinit', ⟨⟩⟩ := List.append_inj' hops rfl
    rw [ops_snoc, List.length_append] at hn
    rw [ih hs hs' hinit hinit' (Nat.succ.inj hn)]

end OpTree
end MiniML
