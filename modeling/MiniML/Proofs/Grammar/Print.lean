import MiniML.Grammar.Expr
import Mathlib.Data.List.Forall2

/-!
# Printing trees

A tree is printed as a list of pieces, each of them one token: a fixed lexeme or
word, or any token that has the value of a constant. Every part of an expression
is put in parentheses, except the items of a tuple, which have commas around
them, and what follows `in`. A function without a name has parentheses around it
in the place of a declaration, where it could be read as one with a name.

The annotation of a function is printed in pieces too: its parameters have their
shares of it, and the rest stands behind them.

`Denotable` trees are those that the grammar has a text for.
-/
namespace MiniML

/-! ## Trees apart from their marks -/

/-- A mark without its place. -/
def Mark.unplaced (m : Mark) : Mark := { m with span := {} }

namespace Pattern

mutual
/-- Change all marks. -/
def mapMarks (f : Mark → Mark) : Pattern → Pattern
  | .ident n => .ident { n with mark := f n.mark }
  | .wildcard m => .wildcard (f m)
  | .literal l m => .literal l (f m)
  | .tuple ps m => .tuple (mapMarksItems f ps) (f m)
/-- Change all marks of the items. -/
def mapMarksItems (f : Mark → Mark) : List Pattern → List Pattern
  | [] => []
  | p :: ps => mapMarks f p :: mapMarksItems f ps
end

/-- The pattern without its places; the slots stay. -/
def unplaced (p : Pattern) : Pattern := p.mapMarks Mark.unplaced

/-- The pattern without its places, and with the error type in all slots. -/
def bare (p : Pattern) : Pattern := p.mapMarks fun _ => {}

end Pattern

namespace Expr

mutual
/-- Change all marks, and forget the places of alternatives. -/
def mapMarks (f : Mark → Mark) : Expr → Expr
  | .const l m => .const l (f m)
  | .ident n => .ident { n with mark := f n.mark }
  | .tuple es m => .tuple (mapMarksAll f es) (f m)
  | .unary op e m => .unary op (mapMarks f e) (f m)
  | .binary op l r m => .binary op (mapMarks f l) (mapMarks f r) (f m)
  | .app g es m => .app (mapMarks f g) (mapMarksAll f es) (f m)
  | .cond t y n m => .cond (mapMarks f t) (mapMarks f y) (mapMarksOption f n) (f m)
  | .cases e as m => .cases (mapMarks f e) (mapMarksArms f as) (f m)
  | .bind n h v b m =>
    .bind { n with mark := f n.mark } h (mapMarks f v) (mapMarksOption f b) (f m)
  | .lam n ps h b r m =>
    .lam (n.map fun n => { n with mark := f n.mark }) (Pattern.mapMarksItems f ps) h (mapMarks f b)
      (mapMarksOption f r) (f m)
/-- Change all marks of a list of expressions. -/
def mapMarksAll (f : Mark → Mark) : List Expr → List Expr
  | [] => []
  | e :: es => mapMarks f e :: mapMarksAll f es
/-- Change all marks of a part that may be missing. -/
def mapMarksOption (f : Mark → Mark) : Option Expr → Option Expr
  | none => none
  | some e => some (mapMarks f e)
/-- Change all marks of a list of alternatives. -/
def mapMarksArms (f : Mark → Mark) : List Arm → List Arm
  | [] => []
  | .mk p e _ :: as => .mk (Pattern.mapMarks f p) (mapMarks f e) {} :: mapMarksArms f as
end

/-- The tree without its places; the slots stay. -/
def unplaced (e : Expr) : Expr := e.mapMarks Mark.unplaced

/-- The tree without its places, and with the error type in all slots. -/
def bare (e : Expr) : Expr := e.mapMarks fun _ => {}

end Expr

/-- Change all marks of an alternative, and forget its place. -/
def Arm.mapMarks (f : Mark → Mark) (a : Arm) : Arm :=
  .mk (a.pattern.mapMarks f) (a.body.mapMarks f) {}

theorem Expr.mapMarksArms_eq (f : Mark → Mark) (as : List Arm) :
    mapMarksArms f as = as.map (Arm.mapMarks f) := by
  induction as with
  | nil => rfl
  | cons a as ih =>
    obtain ⟨p, e, s⟩ := a
    rw [mapMarksArms, ih]
    rfl

/-! ## Pieces -/

/-- What is printed as one token. -/
inductive Piece
  | lexeme (l : Lexeme)
  | constant (value : Literal)

namespace Piece

/-- A fixed lexeme. -/
abbrev fixed (f : Fixed) : Piece := .lexeme (.fixed f)

/-- A token that a piece may be printed as. -/
def Matches : Piece → Token → Prop
  | .lexeme l, t => t.lexeme = l
  | .constant v, t => Grammar.literal? t.lexeme = some (.ok v)

/-- Put parentheses around pieces. -/
def parens (ps : List Piece) : List Piece := .fixed .lparen :: (ps ++ [.fixed .rparen])

/-- Put parentheses around pieces if there is need. -/
def parensIf (b : Bool) (ps : List Piece) : List Piece := if b then parens ps else ps

/-- Put a separator between the items of a list. -/
def separated (f : Fixed) : List (List Piece) → List Piece
  | [] => []
  | ps :: qs => ps ++ qs.flatMap (.fixed f :: ·)

/-- Put a keyword in front of a part, if the part is there. -/
def behind (f : Fixed) : Option (List Piece) → List Piece
  | none => []
  | some ps => .fixed f :: ps

end Piece

open Piece

/-! ## Annotations -/

namespace Hint

mutual
/-- The pieces of an annotation. A function's parameter is in parentheses if it is a
function; so is a tuple's item that is a function or a tuple. -/
def pieces : Hint → List Piece
  | .prim p => [.lexeme (.word .ident p.name)]
  | .var x => [.lexeme (.word .typeVar x)]
  | .wildcard => [.fixed .underscore]
  | .fn a b => parensIf a.isFn (pieces a) ++ .fixed .arrow :: pieces b
  | .tuple hs => separated .star (itemPieces hs)
/-- The pieces of the items of a tuple. -/
def itemPieces : List Hint → List (List Piece)
  | [] => []
  | h :: hs => parensIf (h.isFn || h.isTuple) (pieces h) :: itemPieces hs
end

theorem itemPieces_eq (hs : List Hint) :
    itemPieces hs = hs.map fun h => parensIf (h.isFn || h.isTuple) h.pieces := by
  induction hs <;> simp_all [itemPieces]

/-- Annotations that have a text: each tuple has at least two items. -/
inductive Denotable : Hint → Prop
  | prim (p : Prim) : Denotable (.prim p)
  | var (x : String) : Denotable (.var x)
  | wildcard : Denotable .wildcard
  | fn {a b : Hint} : Denotable a → Denotable b → Denotable (.fn a b)
  | tuple {hs : List Hint} : 2 ≤ hs.length → (∀ h ∈ hs, Denotable h) → Denotable (.tuple hs)

/-- Take the annotations of `n` parameters off that of a function. -/
def split : Nat → Hint → List Hint × Hint
  | n + 1, .fn a b => (a :: (split n b).1, (split n b).2)
  | _, h => ([], h)

end Hint

/-! ## Patterns and parameters -/

/-- The pieces of a constant. -/
def Literal.pieces : Literal → List Piece
  | .unit => parens []
  | v => [.constant v]

/-- The pieces of a name. -/
def Name.pieces (n : Name) : List Piece := [.lexeme (.word .ident n.text)]

namespace Pattern

mutual
/-- The pieces of a pattern. -/
def pieces : Pattern → List Piece
  | .ident n => n.pieces
  | .wildcard _ => [.fixed .underscore]
  | .literal l _ => l.pieces
  | .tuple ps _ => parens (separated .comma (piecesItems ps))
/-- The pieces of the items. -/
def piecesItems : List Pattern → List (List Piece)
  | [] => []
  | p :: ps => pieces p :: piecesItems ps
end

theorem piecesItems_eq (ps : List Pattern) : piecesItems ps = ps.map pieces := by
  induction ps <;> simp_all [piecesItems]

/-- Patterns that have a text: each tuple has at least two items. -/
inductive Denotable : Pattern → Prop
  | ident (n : Name) : Denotable (.ident n)
  | wildcard (m : Mark) : Denotable (.wildcard m)
  | literal (l : Literal) (m : Mark) : Denotable (.literal l m)
  | tuple {ps : List Pattern} (m : Mark) : 2 ≤ ps.length → (∀ p ∈ ps, Denotable p) →
      Denotable (.tuple ps m)

end Pattern

/-- Parameters with their shares of the function's annotation. -/
def paramShares (ps : List Pattern) : Option Hint → List (Pattern × Option Hint)
  | none => ps.map fun p => (p, none)
  | some h => ps.zip ((h.split ps.length).1.map some)

/-- The share of the result. -/
def resultShare (ps : List Pattern) (h : Option Hint) : Option Hint :=
  h.map fun h => (h.split ps.length).2

/-- The pieces of a parameter. -/
def paramPieces : Pattern × Option Hint → List Piece
  | (p, none) => p.pieces
  | (p, some h) => parens (p.pieces ++ .fixed .colon :: h.pieces)

/-- The pieces of the result's annotation, where an arrow starts the body. -/
def resultPieces (o : Option Hint) : List Piece :=
  behind .colon (o.map fun h => parensIf h.isFn h.pieces)

/-- An annotation that a function may have: none, or one with an arrow for each
parameter. -/
def Signature (ps : List Pattern) (h : Option Hint) : Prop :=
  ∀ g ∈ h, g.Denotable ∧ (g.split ps.length).1.length = ps.length

/-! ## Expressions -/

/-- How an operator in front of an operand is spelled. -/
def UnaryOp.fixed : UnaryOp → Fixed
  | .neg => .minus
  | .floatNeg => .minusDot
  | .not => .not_

/-- How an operator between operands is spelled. -/
def BinaryOp.fixed : BinaryOp → Fixed
  | .add => .plus
  | .sub => .minus
  | .mul => .star
  | .div => .slash
  | .rem => .percent
  | .floatAdd => .plusDot
  | .floatSub => .minusDot
  | .floatMul => .starDot
  | .floatDiv => .slashDot
  | .concat => .caret
  | .eq => .equals
  | .notEq => .notEquals
  | .lt => .less
  | .gt => .greater
  | .ltEq => .lessEquals
  | .gtEq => .greaterEquals
  | .and => .and_
  | .or => .or_

namespace Expr

mutual
/-- The pieces of an expression, in the place of a declaration or in a nested one. -/
def pieces (declaration : Bool) : Expr → List Piece
  | .const l _ => l.pieces
  | .ident n => n.pieces
  | .tuple es _ => parens (separated .comma (piecesAll es))
  | .unary op e _ => .fixed op.fixed :: parens (pieces false e)
  | .binary op l r _ => parens (pieces false l) ++ .fixed op.fixed :: parens (pieces false r)
  | .app f es _ => parens (pieces false f) ++ (piecesAll es).flatMap parens
  | .cond t y n _ =>
    .fixed .if_ :: (parens (pieces false t) ++ .fixed .then_ :: (parens (pieces false y) ++
      behind .else_ ((piecesOption false n).map parens)))
  | .cases e as _ =>
    .fixed .match_ :: (parens (pieces false e) ++ .fixed .with_ :: separated .pipe (piecesArms as))
  | .bind n h v b _ =>
    .fixed .let_ :: (n.pieces ++ (behind .colon (h.map Hint.pieces) ++ .fixed .equals ::
      (parens (pieces false v) ++ behind .in_ (piecesOption true b))))
  | .lam none ps h b _ _ =>
    parensIf declaration (.fixed .fun_ :: ((paramShares ps h).flatMap paramPieces ++
      (resultPieces (resultShare ps h) ++ .fixed .arrow :: parens (pieces false b))))
  | .lam (some n) ps h b r _ =>
    .fixed .fun_ :: (n.pieces ++ ((paramShares ps h).flatMap paramPieces ++
      (resultPieces (resultShare ps h) ++ .fixed .arrow ::
        (parens (pieces false b) ++ behind .in_ (piecesOption true r)))))
/-- The pieces of a list of expressions. -/
def piecesAll : List Expr → List (List Piece)
  | [] => []
  | e :: es => pieces false e :: piecesAll es
/-- The pieces of a part that may be missing. -/
def piecesOption (declaration : Bool) : Option Expr → Option (List Piece)
  | none => none
  | some e => some (pieces declaration e)
/-- The pieces of alternatives. -/
def piecesArms : List Arm → List (List Piece)
  | [] => []
  | .mk p e _ :: as => (p.pieces ++ .fixed .arrow :: parens (pieces false e)) :: piecesArms as
end

theorem piecesAll_eq (es : List Expr) : piecesAll es = es.map (pieces false) := by
  induction es <;> simp_all [piecesAll]

/-- The pieces of an alternative. -/
def armPieces (a : Arm) : List Piece :=
  a.pattern.pieces ++ .fixed .arrow :: parens (pieces false a.body)

theorem piecesArms_eq (as : List Arm) : piecesArms as = as.map armPieces := by
  induction as with
  | nil => rfl
  | cons a as ih =>
    obtain ⟨p, e, s⟩ := a
    rw [piecesArms, ih]
    rfl

/-- Expressions that have a text in the place of a declaration or in a nested one:
tuples have at least two items, an application, a function and a case distinction have
something to apply to, to bind and to choose from, and only a declaration may
lack what follows `in` or be a function with a name. -/
inductive Denotable : Bool → Expr → Prop
  | const {d : Bool} (l : Literal) (m : Mark) : Denotable d (.const l m)
  | ident {d : Bool} (n : Name) : Denotable d (.ident n)
  | tuple {d : Bool} {es : List Expr} (m : Mark) : 2 ≤ es.length → (∀ e ∈ es, Denotable false e) →
      Denotable d (.tuple es m)
  | unary {d : Bool} (op : UnaryOp) {e : Expr} (m : Mark) : Denotable false e →
      Denotable d (.unary op e m)
  | binary {d : Bool} (op : BinaryOp) {l r : Expr} (m : Mark) : Denotable false l →
      Denotable false r → Denotable d (.binary op l r m)
  | app {d : Bool} {f : Expr} {es : List Expr} (m : Mark) : Denotable false f → es ≠ [] →
      (∀ e ∈ es, Denotable false e) → Denotable d (.app f es m)
  | cond {d : Bool} {t y : Expr} {n : Option Expr} (m : Mark) : Denotable false t →
      Denotable false y → (∀ e ∈ n, Denotable false e) → Denotable d (.cond t y n m)
  | cases {d : Bool} {e : Expr} {as : List Arm} (m : Mark) : Denotable false e → as ≠ [] →
      (∀ a ∈ as, a.pattern.Denotable) → (∀ a ∈ as, Denotable false a.body) →
      Denotable d (.cases e as m)
  | bind {d : Bool} (n : Name) {h : Option Hint} {v : Expr} {b : Option Expr} (m : Mark) :
      (∀ g ∈ h, g.Denotable) → Denotable false v → (∀ e ∈ b, Denotable true e) →
      (b = none → d = true) → Denotable d (.bind n h v b m)
  | lam {d : Bool} {ps : List Pattern} {h : Option Hint} {b : Expr} (m : Mark) : ps ≠ [] →
      (∀ p ∈ ps, p.Denotable) → Signature ps h → Denotable false b →
      Denotable d (.lam none ps h b none m)
  | named (n : Name) {ps : List Pattern} {h : Option Hint} {b : Expr} {r : Option Expr} (m : Mark) :
      ps ≠ [] → (∀ p ∈ ps, p.Denotable) → Signature ps h → Denotable false b →
      (∀ e ∈ r, Denotable true e) → Denotable true (.lam (some n) ps h b r m)

end Expr

/-- The pieces of a program. -/
def Program.pieces (es : Program) : List Piece := separated .separator (es.map (Expr.pieces true))

/-- Tokens that say what the pieces ask for. -/
def Prints (ps : List Piece) (ts : List Token) : Prop := List.Forall₂ Piece.Matches ps ts

end MiniML
