/-!
# Operators

An operator's type is looked up under its builtin name. Binary operators
are spelled by their builtin names; the two negations share their spelling
with the subtractions and have names of their own.

Each binary operator has a precedence, from 1 to 6, and higher ones bind
tighter. The two logical operators and concatenation group to the right,
the others to the left.
-/
namespace MiniML

/-- Operators in front of their operand. -/
inductive UnaryOp
  | neg | floatNeg | not
deriving DecidableEq, Repr, Inhabited

/-- The name under which the type of an operator is found. -/
def UnaryOp.builtin : UnaryOp → String
  | .neg => "~-"
  | .floatNeg => "~-."
  | .not => "not"

/-- How an operator is written. -/
def UnaryOp.symbol : UnaryOp → String
  | .neg => "-"
  | .floatNeg => "-."
  | .not => "not"

/-- Operators between their operands. -/
inductive BinaryOp
  | add | sub | mul | div | rem
  | floatAdd | floatSub | floatMul | floatDiv
  | concat | eq | notEq | lt | gt | ltEq | gtEq | and | or
deriving DecidableEq, Repr, Inhabited

namespace BinaryOp

/-- The name under which the type of an operator is found, which is also
how it is written. -/
def symbol : BinaryOp → String
  | .add => "+"
  | .sub => "-"
  | .mul => "*"
  | .div => "/"
  | .rem => "%"
  | .floatAdd => "+."
  | .floatSub => "-."
  | .floatMul => "*."
  | .floatDiv => "/."
  | .concat => "^"
  | .eq => "="
  | .notEq => "<>"
  | .lt => "<"
  | .gt => ">"
  | .ltEq => "<="
  | .gtEq => ">="
  | .and => "&&"
  | .or => "||"

/-- How tight an operator binds. -/
def precedence : BinaryOp → Nat
  | .or => 1
  | .and => 2
  | .eq | .notEq | .lt | .gt | .ltEq | .gtEq => 3
  | .concat => 4
  | .add | .sub | .floatAdd | .floatSub => 5
  | .mul | .div | .rem | .floatMul | .floatDiv => 6

/-- Whether `a ∘ b ∘ c` means `a ∘ (b ∘ c)`. -/
def groupsRight : BinaryOp → Bool
  | .or | .and | .concat => true
  | _ => false

/-- The least precedence of an operator in the right operand without
parentheses. -/
def rightLevel (op : BinaryOp) : Nat :=
  if op.groupsRight then op.precedence else op.precedence + 1

end BinaryOp
end MiniML
