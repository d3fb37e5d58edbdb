import MiniML.Source.Span
import MiniML.Source.Cluster
/-!
# Entered lines

A line is entered as text with backspaces in it, and a backspace takes back
the cluster in front of it. At the start of the line it does nothing.

What is taken back is counted in bytes, and of the length of a cluster eight
bits are kept. So a backspace takes back less than a cluster of 256 bytes or
more, and there is no telling what it leaves when that would cut a character
apart.

Results:
* `entered?_eq_self`: without backspaces a line is what was entered.
-/
namespace MiniML

/-- A line under way: its characters and the lengths of its clusters, the
last ones first. -/
structure Entry where
  chars : List Char := []
  lengths : List Nat := []
deriving DecidableEq, Repr, Inhabited

namespace Entry

/-- The character that takes back a cluster. -/
def backspace : Char := '\x08'

/-- Add a cluster. -/
def put (e : Entry) (cluster : List Char) : Entry where
  chars := cluster.reverse ++ e.chars
  lengths := byteLength cluster % 256 :: e.lengths

/-- Take back the last cluster; `none` if that cuts a character apart. -/
def takeBack? (e : Entry) : Option Entry :=
  match e.lengths with
  | [] => some e
  | n :: ns => (splitAtByte? e.chars n).map fun (_, kept) => ⟨kept, ns⟩

/-- Enter a cluster or a backspace. -/
def enter? (e : Entry) (cluster : List Char) : Option Entry :=
  if cluster = [backspace] then e.takeBack? else some (e.put cluster)

/-- Enter clusters and backspaces from left to right. -/
def enterAll? (e : Entry) : List (List Char) → Option Entry
  | [] => some e
  | g :: gs => (e.enter? g).bind (enterAll? · gs)

theorem chars_of_enterAll? {e : Entry} {gs : List (List Char)} (h : [backspace] ∉ gs) :
    (e.enterAll? gs).map Entry.chars = some (gs.flatten.reverse ++ e.chars) := by
  induction gs generalizing e with
  | nil => simp [enterAll?]
  | cons g gs ih =>
    have hg : g ≠ [backspace] := fun he => h (he ▸ List.mem_cons_self)
    have hgs := ih (e := e.put g) fun hm => h (List.mem_cons_of_mem g hm)
    simpa [enterAll?, enter?, hg, put] using hgs

end Entry

/-- The line that is entered by a text with backspaces; `none` if a backspace
cuts a character apart. -/
def entered? (keys : List Char) : Option (List Char) :=
  (Entry.enterAll? {} (clusters keys)).map fun e => e.chars.reverse

theorem entered?_eq_self {keys : List Char} (h : Entry.backspace ∉ keys) :
    entered? keys = some keys := by
  have hb : [Entry.backspace] ∉ clusters keys := fun hm => h <| by
    rw [← flatten_clusters keys]
    exact List.mem_flatten.mpr ⟨_, hm, List.mem_singleton_self _⟩
  have hc := congrArg (Option.map List.reverse) (Entry.chars_of_enterAll? (e := {}) hb)
  simpa [entered?, Function.comp_def, flatten_clusters] using hc

end MiniML
