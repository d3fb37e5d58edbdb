/-!
# White space

Blank characters are those with the Unicode property `White_Space`: tab to
carriage return, the space, the next-line control, the no-break space and
the space separators, the line and the paragraph separator.
-/
namespace MiniML

/-- The characters with the property `White_Space`. -/
def blanks : List Char :=
  ['\t', '\n', '\x0b', '\x0c', '\r', ' ', '\u0085', '\u00a0', '\u1680',
   '\u2000', '\u2001', '\u2002', '\u2003', '\u2004', '\u2005', '\u2006', '\u2007',
   '\u2008', '\u2009', '\u200a', '\u2028', '\u2029', '\u202f', '\u205f', '\u3000']

/-- Whether a character is white space. -/
def isBlank (c : Char) : Bool := blanks.contains c

example : blanks.length = 25 := rfl

/-- Drop the white space in front. -/
def trimStart (cs : List Char) : List Char := cs.dropWhile isBlank

/-- Drop the white space behind. -/
def trimEnd (cs : List Char) : List Char := (cs.reverse.dropWhile isBlank).reverse

/-- Drop the white space on both sides. -/
def trim (cs : List Char) : List Char := trimEnd (trimStart cs)

/-- The characters after the last white space. -/
def lastWord (cs : List Char) : List Char := (cs.reverse.takeWhile (!isBlank ·)).reverse

end MiniML
