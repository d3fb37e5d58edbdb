import MiniML.Ty
/-!
# Literals

The values that a program can write down. Integers are those of 64 bits with
a sign, written without one; floats are kept as the bits of the IEEE 754
double next to what is written.
-/
namespace MiniML

/-- A written value. -/
inductive Literal
  | unit
  | int (value : Nat)
  | float (bits : UInt64)
  | string (value : String)
  | char (value : Char)
  | bool (value : Bool)
deriving DecidableEq, Repr, Inhabited

namespace Literal

/-- The type of a literal. -/
def prim : Literal → Prim
  | .unit => .unit
  | .int _ => .int
  | .float _ => .float
  | .string _ => .string
  | .char _ => .char
  | .bool _ => .bool

/-! ## Reading text -/

/-- What the character after a backslash stands for. -/
def escaped : Char → Char
  | 'n' => '\n'
  | 't' => '\t'
  | 'r' => '\r'
  | '0' => '\x00'
  | c => c

/-- Resolve the backslashes of a text; one at the end stays. -/
def unescape : List Char → List Char
  | '\\' :: c :: cs => escaped c :: unescape cs
  | c :: cs => c :: unescape cs
  | [] => []

/-- What is between the first and the last character. -/
def inner (s : String) : List Char := (s.toList.drop 1).dropLast

/-- The value of a string with its quotes. -/
def ofString (s : String) : Literal := .string (String.ofList (unescape (inner s)))

/-- The value of a character with its apostrophes. -/
def ofChar? (s : String) : Option Literal := (unescape (inner s)).head?.map .char

/-! ## Reading numbers -/

/-- The number that decimal digits stand for. -/
def ofDigits (ds : List Char) : Nat := ds.foldl (fun n d => 10 * n + (d.toNat - '0'.toNat)) 0

/-- The largest integer, `2 ^ 63 - 1`. -/
def maxInt : Nat := 9223372036854775807

/-- The value of digits; `none` above the largest integer. -/
def ofInteger? (s : String) : Option Literal :=
  if ofDigits s.toList ≤ maxInt then some (.int (ofDigits s.toList)) else none

/-! ## Reading floats

The doubles next to a positive number are the multiples of a power of two,
`2 ^ (e - 1074)` with `e` at least 0. Unless `e` is 0 the multiplier has 53
bits, so that the bits of the double are those of `e * 2 ^ 52` plus the
multiplier. -/

/-- A quotient rounded to the nearest number, a half to the even one. -/
def roundDiv (num den : Nat) : Nat :=
  let q := num / den
  let r := num % den
  if 2 * r < den ∨ (2 * r = den ∧ q % 2 = 0) then q else q + 1

/-- The exponent of two, plus 1074, that `num / den` reaches; 0 if it does
not reach the least one. -/
def magnitude (num den : Nat) : Nat :=
  let l := (num.log2 + 1074) - den.log2
  if num <<< 1074 < den <<< l then l - 1 else l

/-- The bits of the double nearest to `num / den`; those of infinity beyond
the largest double. -/
def double (num den : Nat) : UInt64 :=
  if num = 0 then 0
  else
    let e := magnitude num den - 52
    let m := roundDiv (num <<< 1074) (den <<< e)
    UInt64.ofNat (min (e <<< 52 + m) (2047 <<< 52))

/-- The value of digits with a point. -/
def ofFloat (s : String) : Literal :=
  let whole := s.toList.takeWhile (· ≠ '.')
  let places := s.toList.drop (whole.length + 1)
  .float (double (ofDigits (whole ++ places)) (Nat.pow 10 places.length))

example : ofFloat "1.5" = .float 0x3ff8000000000000 := by decide +kernel

example : ofFloat "0.1" = .float 0x3fb999999999999a := by decide +kernel

end Literal
end MiniML
