import MiniML.Typing.Context
/-!
# The names that are always there

Operators are typed by this table alone. Its other names are identifiers
like any other, and a program may bind them anew.
-/
namespace MiniML.Builtins
open Ty

/-- A function of two arguments of one type. -/
def binary (operand result : Prim) : Scheme :=
  .mono (curried [.prim operand, .prim operand] (.prim result))

/-- A function of one argument. -/
def unary (operand result : Prim) : Scheme := .mono (.fn (.prim operand) (.prim result))

/-- `forall a. a -> a -> bool` -/
def comparison : Scheme := ⟨[0], curried [.var 0, .var 0] (.prim .bool)⟩

/-- The names with their schemes. -/
def table : List (String × Scheme) :=
  [("+", binary .int .int), ("-", binary .int .int), ("*", binary .int .int),
   ("/", binary .int .int), ("%", binary .int .int),
   ("+.", binary .float .float), ("-.", binary .float .float),
   ("*.", binary .float .float), ("/.", binary .float .float),
   ("^", binary .string .string),
   ("=", comparison), ("<>", comparison), ("<", comparison), (">", comparison),
   ("<=", comparison), (">=", comparison),
   ("&&", binary .bool .bool), ("||", binary .bool .bool),
   ("~-", unary .int .int), ("~-.", unary .float .float), ("not", unary .bool .bool),
   ("panic", ⟨[0], .fn (.prim .string) (.var 0)⟩),
   ("print", unary .string .unit),
   ("string_of_int", unary .int .string), ("float_of_int", unary .int .float)]

/-- The context of a program that has bound nothing yet. -/
def context : Context := .ofList table

end MiniML.Builtins
