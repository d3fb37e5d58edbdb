import MiniML.Source.Cluster.Table
/-!
# Clusters

A text is cut into clusters, the characters that a reader takes for one. Two
neighbours are in one cluster if the second extends the first, if both are
letters of one syllable block, or if they end and go on with

* a pictograph, extenders and a joiner, and another pictograph;
* a consonant with linkers behind it, and another consonant;
* the first and the second of a pair of regional indicators.

The clusters of a text make up the text (`flatten_clusters`).
-/
namespace MiniML

/-- What the end of a text may be continued to, apart from its last
character: a pictograph, that with a joiner, a consonant, that with a
linker, or a regional indicator without a partner. -/
inductive Chain
  | nothing | pictograph | joined | consonant | linked | unpaired
deriving DecidableEq, Repr, Inhabited

namespace Chain

/-- The chain behind one more character. -/
def next : Chain → BreakClass → Chain
  | _, .pictograph => .pictograph
  | _, .consonant => .consonant
  | .unpaired, .regional => .nothing
  | _, .regional => .unpaired
  | .pictograph, .extender | .pictograph, .linker | .pictograph, .nonJoiner => .pictograph
  | .pictograph, .joiner => .joined
  | .consonant, .extender | .consonant, .joiner => .consonant
  | .consonant, .linker => .linked
  | .linked, .extender | .linked, .joiner | .linked, .linker => .linked
  | _, _ => .nothing

end Chain

/-- Whether a class is that of a control or a line end. -/
def BreakClass.isControl (k : BreakClass) : Bool := k = .control || k = .cr || k = .lf

/-- Whether no cluster ends between two characters, the first of which ends
a chain. -/
def joins (last : BreakClass) (chain : Chain) (next : BreakClass) : Bool :=
  if last = .cr ∧ next = .lf then true
  else if last.isControl || next.isControl then false
  else
    match last, next with
    | .leading, .leading | .leading, .vowel | .leading, .openSyllable
    | .leading, .closedSyllable | .openSyllable, .vowel | .openSyllable, .trailing
    | .vowel, .vowel | .vowel, .trailing | .closedSyllable, .trailing
    | .trailing, .trailing => true
    | _, .extender | _, .linker | _, .nonJoiner | _, .joiner | _, .spacing => true
    | .prepended, _ => true
    | _, .pictograph => chain = .joined
    | _, .consonant => chain = .linked
    | _, .regional => chain = .unpaired
    | _, _ => false

/-- The rest of the cluster that a text goes on with, and the clusters
behind it. -/
def clustersFrom (last : BreakClass) (chain : Chain) : List Char → List Char × List (List Char)
  | [] => ([], [])
  | c :: cs =>
    let k := BreakClass.ofChar c
    let (g, gs) := clustersFrom k (chain.next k) cs
    if joins last chain k then (c :: g, gs) else ([], (c :: g) :: gs)

/-- The clusters of a text. A control stands in front of it, since no
cluster goes on behind one. -/
def clusters (cs : List Char) : List (List Char) := (clustersFrom .control .nothing cs).2

theorem append_flatten_clustersFrom (last : BreakClass) (chain : Chain) (cs : List Char) :
    (clustersFrom last chain cs).1 ++ (clustersFrom last chain cs).2.flatten = cs := by
  induction cs generalizing last chain with
  | nil => rfl
  | cons c cs ih =>
    have h := ih (.ofChar c) (chain.next (.ofChar c))
    simp only [clustersFrom]
    split <;> simpa using h

theorem fst_clustersFrom_control (chain : Chain) (cs : List Char) :
    (clustersFrom .control chain cs).1 = [] := by
  cases cs with
  | nil => rfl
  | cons c cs => simp [clustersFrom, joins, BreakClass.isControl]

theorem flatten_clusters (cs : List Char) : (clusters cs).flatten = cs := by
  have h := append_flatten_clustersFrom .control .nothing cs
  rwa [fst_clustersFrom_control, List.nil_append] at h

example : clusters "ae\u0301\r\n\u1112\u1161\u11ab".toList =
    [['a'], ['e', '\u0301'], ['\r', '\n'], ['\u1112', '\u1161', '\u11ab']] := by decide +kernel

end MiniML
