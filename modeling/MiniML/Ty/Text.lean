import MiniML.Ty
/-!
# The text of a type

A function's parameter is in parentheses if it is a function itself; so is
a tuple's item that is a function or a tuple. The text is parametric in how
variables are named: by number (`pretty`), or by letters in the order of
their first appearance (`normalized`), so that types that differ only in
their variables read the same.
-/
namespace MiniML.Ty

/-- Text in parentheses. -/
def parens (s : String) : String := "(" ++ s ++ ")"

mutual
/-- The text of a type, with the given names for its variables. -/
def text (name : TyVar → String) : Ty → String
  | .var v => name v
  | .prim p => p.name
  | .error => "<error>"
  | .fn a b => (if a.isFn then parens (text name a) else text name a) ++ " -> " ++ text name b
  | .tuple ts => if ts.isEmpty then "()" else " * ".intercalate (itemTexts name ts)
/-- The texts of the items of a tuple. -/
def itemTexts (name : TyVar → String) : List Ty → List String
  | [] => []
  | t :: ts =>
    (if t.isFn || t.isTuple then parens (text name t) else text name t) :: itemTexts name ts
end

/-- A variable by its number. -/
def varText (v : TyVar) : String := "'t" ++ toString v

/-- The name of the variable that appears at position `i`: `'a` to `'z`,
then `'a1` to `'z1`, and so on. -/
def letterName (i : Nat) : String :=
  let letter := String.singleton (Char.ofNat ('a'.toNat + i % 26))
  if i < 26 then "'" ++ letter else "'" ++ letter ++ toString (i / 26)

/-- The text of a type with the numbers of its variables. -/
def pretty (t : Ty) : String := t.text varText

/-- The text of a type with its variables named in order of appearance. -/
def normalized (t : Ty) : String := t.text fun v => letterName (t.vars.idxOf v)

example : (fn (fn (var 7) (var 2)) (tuple [var 7, fn (var 2) unit])).normalized =
    "('a -> 'b) -> 'a * ('b -> unit)" := by decide

end MiniML.Ty
