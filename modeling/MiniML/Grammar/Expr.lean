import MiniML.Grammar.Pattern
/-!
# The grammar of expressions

    expression  := let | fun | if | match | binary
    binary      := unary (operator binary)*
    unary       := ("-" | "-." | "not") unary | application
    application := atom atom*
    atom        := identifier | "(" ")" | "(" expression ("," expression)* ")" | constant

The first four forms reach as far to the right as possible, also as the
right operand of an operator. Precedence is observed by a lower bound on the
operators that a level may take.

A declaration is an expression at the start of a program, after a separator
or after `in`. Only there `fun` names a function, and a `let` may lack its
body.
-/
namespace MiniML.Grammar
open MiniML.Parser

/-- What the recursive rule reads: an expression or declaration, operators
of at least a precedence, or an operand of a binary operator. -/
inductive Goal
  | expr (declaration : Bool)
  | binary (least : Nat)
  | operand
deriving DecidableEq, Repr

/-- The parsers that a rule may call once it has taken a token. -/
abbrev Self := Goal → Parser Expr

/-! ## Bindings -/

/-- The part after the value of a `let`: optional in a declaration. -/
def letBody (self : Self) (declaration : Bool) : Parser (Option Expr) := do
  if declaration && !(← nextIs .in_) then
    return none
  let _ ← token .in_
  return some (← self (.expr true))

/-- The span from a token to the last of its parts. -/
def spanTo (start : Token) (last : Expr) (further : Option Expr) : Span :=
  start.span.merge (further.getD last).span

/-- `let name : hint = value in body` -/
def letRule (self : Self) (declaration : Bool) : Parser Expr := do
  let start ← token .let_
  let name ← label "binding name" ident
  let hint ← optional (token .colon *> hint)
  let _ ← token .equals
  let value ← self (.expr false)
  let body ← letBody self declaration
  return .bind name hint value body { span := spanTo start value body }

/-- A first parameter that is a name without an annotation names the
function, if another parameter follows. -/
def splitName : List (Pattern × Option Hint) → Option Name × List (Pattern × Option Hint)
  | (.ident n, none) :: p :: ps => (some n, p :: ps)
  | ps => (none, ps)

/-- The part after the body of a named function. -/
def funRest (self : Self) (named : Bool) : Parser (Option Expr) := do
  if named && (← nextIs .in_) then
    skip
    return some (← self (.expr true))
  return none

/-- `fun name params : hint -> body in rest` -/
def funRule (self : Self) (declaration : Bool) : Parser Expr := do
  let start ← token .fun_
  let params ← label "parameter" (many1 param)
  let result ← optional (token .colon *> resultHint)
  let _ ← token .arrow
  let body ← self (.expr false)
  let (name, params) := if declaration then splitName params else (none, params)
  let rest ← funRest self name.isSome
  return .lam name (params.map Prod.fst) (Hint.ofFunction (params.map Prod.snd) result) body rest
    { span := spanTo start body rest }

/-! ## Choices -/

/-- `if test then yes else no` -/
def ifRule (self : Self) : Parser Expr := do
  let start ← token .if_
  let test ← self (.expr false)
  let _ ← token .then_
  let yes ← self (.expr false)
  let no ← if ← nextIs .else_ then
      let _ ← token .else_
      pure (some (← self (.expr false)))
    else pure none
  return .cond test yes no { span := spanTo start yes no }

/-- `pattern -> body` -/
def arm (self : Self) : Parser Arm := do
  let p ← pattern
  let body ← token .arrow *> self (.expr false)
  return .mk p body (p.span.merge body.span)

/-- `match scrutinee with arms` -/
def matchRule (self : Self) : Parser Expr := do
  let start ← token .match_
  let scrutinee ← self (.expr false)
  let _ ← token .with_
  let _ ← optional (token .pipe)
  let arms ← sepBy1 (arm self) (token .pipe)
  let stop := (arms.getLast?.map Arm.span).getD start.span
  return .cases scrutinee arms { span := start.span.merge stop }

/-! ## Operands -/

/-- Expressions in parentheses; a single one stands for itself, and none
for the unit value. -/
def parenthesized (self : Self) : Parser Expr := do
  let start ← token .lparen
  if ← nextIs .rparen then
    let stop ← token .rparen
    return .const .unit { span := start.span.merge stop.span }
  let items ← sepBy1 (self (.expr false)) (token .comma)
  let stop ← token .rparen
  match items with
  | [e] => return e
  | es => return .tuple es { span := start.span.merge stop.span }

/-- An expression that needs no parentheses as an argument. -/
def atom (self : Self) : Parser Expr :=
  label "expression" (either (either
    (do return .ident (← ident))
    (parenthesized self))
    (do let (value, span) ← constant; return .const value { span }))

/-- Whether a lexeme starts an atom. -/
def startsAtom : Lexeme → Bool
  | .word .typeVar _ => false
  | .word _ _ => true
  | .fixed f => f = .true_ || f = .false_ || f = .lparen

/-- Atoms for as long as one starts, at most `n`. -/
def atoms (self : Self) : Nat → Parser (List Expr)
  | 0 => pure []
  | n + 1 => do
    match ← peek with
    | none => pure []
    | some t =>
      if startsAtom t.lexeme then
        let e ← atom self
        return e :: (← atoms self n)
      else pure []

/-- Atoms in a row apply the first to the others. -/
def application (self : Self) : Parser Expr := do
  let callee ← atom self
  let args ← fun c => atoms self c.remaining c
  match args.getLast? with
  | none => return callee
  | some last => return .app callee args { span := callee.span.merge last.span }

/-- The operator of a lexeme in front of an operand. -/
def unaryOp? : Lexeme → Option UnaryOp
  | .fixed .minus => some .neg
  | .fixed .minusDot => some .floatNeg
  | .fixed .not_ => some .not
  | _ => none

/-- An application with operators in front. -/
def operandRule (self : Self) : Parser Expr := do
  match ← peek with
  | none => application self
  | some t =>
    match unaryOp? t.lexeme with
    | none => application self
    | some op =>
      skip
      let e ← self .operand
      return .unary op e { span := t.span.merge e.span }

/-! ## Operators -/

/-- The operator of a lexeme between operands. -/
def binaryOp? : Lexeme → Option BinaryOp
  | .fixed .plus => some .add
  | .fixed .minus => some .sub
  | .fixed .star => some .mul
  | .fixed .slash => some .div
  | .fixed .percent => some .rem
  | .fixed .plusDot => some .floatAdd
  | .fixed .minusDot => some .floatSub
  | .fixed .starDot => some .floatMul
  | .fixed .slashDot => some .floatDiv
  | .fixed .caret => some .concat
  | .fixed .equals => some .eq
  | .fixed .notEquals => some .notEq
  | .fixed .less => some .lt
  | .fixed .greater => some .gt
  | .fixed .lessEquals => some .ltEq
  | .fixed .greaterEquals => some .gtEq
  | .fixed .and_ => some .and
  | .fixed .or_ => some .or
  | _ => none

/-- Whether a lexeme starts one of the forms that reach to the right. -/
def startsForm (l : Lexeme) : Bool :=
  l = .fixed .let_ || l = .fixed .fun_ || l = .fixed .if_ || l = .fixed .match_

/-- The right operand of an operator. -/
def rightOperand (self : Self) (op : BinaryOp) : Parser Expr := do
  match ← peek with
  | some t => if startsForm t.lexeme then self (.expr false) else self (.binary op.rightLevel)
  | none => self (.binary op.rightLevel)

/-- Add operators of at least a precedence to a left operand, at most `n`. -/
def operators (self : Self) (least : Nat) : Nat → Expr → Parser Expr
  | 0, left => pure left
  | n + 1, left => do
    match ← peek with
    | none => pure left
    | some t =>
      match binaryOp? t.lexeme with
      | none => pure left
      | some op =>
        if op.precedence < least then pure left
        else
          skip
          let right ← rightOperand self op
          operators self least n
            (.binary op left right { span := left.span.merge right.span })

/-- Operands with operators of at least a precedence between them. -/
def binaryRule (self : Self) (least : Nat) : Parser Expr := do
  let left ← operandRule self
  fun c => operators self least c.remaining left c

/-! ## Expressions -/

/-- The rule of each goal. -/
def exprRule (self : Self) : Goal → Parser Expr
  | .operand => operandRule self
  | .binary least => binaryRule self least
  | .expr declaration => do
    match (← peek).map Token.lexeme with
    | some (.fixed .let_) => letRule self declaration
    | some (.fixed .fun_) => funRule self declaration
    | some (.fixed .if_) => ifRule self
    | some (.fixed .match_) => matchRule self
    | _ => binaryRule self 1

/-- An expression in a nested place. -/
def expression : Parser Expr := recursive exprRule (.expr false)

/-- An expression in the place of a declaration. -/
def declaration : Parser Expr := recursive exprRule (.expr true)

end MiniML.Grammar
