import MiniML.Grammar.Expr
/-!
# The grammar of programs

    program := (declaration ";;"?)*

Reading goes on after a fault. A declaration that cannot be read reports
its furthest fault, and reading resumes at the first separator, `let` or
`fun` behind that fault, so that bindings nested in the broken declaration
are passed over. A declaration with something unreadable behind it is kept.
-/
namespace MiniML.Grammar

/-- Whether a token may stand behind a declaration. -/
def isBoundary (t : Token) : Bool :=
  t.lexeme = .fixed .separator || t.lexeme = .fixed .let_ || t.lexeme = .fixed .fun_

/-- Whether a declaration may end here. -/
def atBoundary (c : Cursor) : Bool := c.peek.all isBoundary

/-- Go behind the separators here. -/
def skipSeparators (c : Cursor) : Cursor :=
  c.skipWhile (fun t => t.lexeme = .fixed .separator) c.remaining

/-- Go to the next place where a declaration may start, behind `start`. -/
def skipToBoundary (start : Nat) (c : Cursor) : Cursor :=
  let c := if c.index ≤ start then c.advance else c
  c.skipWhile (fun t => !isBoundary t) c.remaining

/-- After a declaration that began at `start`: report what stands behind it
if that cannot start another one, and pass it over. -/
def endDeclaration (start : Nat) (c : Cursor) : Cursor :=
  if atBoundary c then c
  else
    let f := (c.faultHere .unexpectedToken).expecting (Lexeme.fixed .separator).describe
    skipToBoundary start (c.record f).commit

/-- After a fault in a declaration that began at `start`: report the
furthest fault, and resume behind it. -/
def recover (start : Nat) (f : Fault) (c : Cursor) : Cursor :=
  let c := if c.furthest.isNone then c.record f else c
  let failedAt := max ((c.furthest.map Prod.fst).getD start) start
  skipToBoundary start (c.commit.restore failedAt)

/-- The declarations from here on, at most `n`, and where reading ended. -/
def declarations : Nat → Cursor → Program × Cursor
  | 0, c => ([], c)
  | n + 1, c =>
    let c := skipSeparators c
    if c.hasNext then
      match declaration c.clear with
      | .ok d c' =>
        let (ds, c') := declarations n (endDeclaration c.index c')
        (d :: ds, c')
      | .error f c' => declarations n (recover c.index f c')
    else ([], c)

/-- All declarations from here on. -/
def program (c : Cursor) : Program × Cursor := declarations (c.remaining + 1) c

/-- The program of a list of tokens, with the faults in it. -/
def parse (tokens : List Token) : Program × List Fault :=
  let (p, c) := program (.ofTokens tokens)
  (p, c.faults)

end MiniML.Grammar
