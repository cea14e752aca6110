/-
  Sets of code points.

  A code set is an array of spans in normal form, so each set of code points that is a finite union of spans
  has exactly one representation, and `=` decides whether two sets hold the same code points.

  * `ofSpans` makes a set of any list of spans, `single`, `all` and `empty` are the simple sets;
  * `union`, `inter`, `diff` and `compl` are the operations, `includes` the test for a subset; a complement is
    taken within the Unicode range, whatever the set holds above it;
  * `contains` finds a code point by binary search.
-/
import RegexNotation.Spans.Lemmas

namespace RegexNotation

/-- A set of code points: spans in normal form. -/
structure CodeSet where
  spans : Array Span
  normal : Spans.Normal spans.toList
deriving DecidableEq

namespace CodeSet

instance : Membership UInt32 CodeSet := ⟨fun s c => Spans.Holds s.spans.toList c⟩

instance (c : UInt32) (s : CodeSet) : Decidable (c ∈ s) :=
  inferInstanceAs (Decidable (Spans.Holds s.spans.toList c))

/-- The set with the given spans, which are in normal form. -/
def ofNormal (l : List Span) (h : Spans.Normal l) : CodeSet := ⟨l.toArray, by simpa using h⟩

/-- The set of the code points of any spans. -/
def ofSpans (l : List Span) : CodeSet := ofNormal (Spans.normalize l) (Spans.normal_normalize l)

/-- The empty set. -/
def empty : CodeSet := ofNormal [] Spans.normal_nil

/-- Every Unicode code point. -/
def all : CodeSet := ofNormal [⟨0, maxCodePoint⟩] (by decide)

/-- The set of one code point. -/
def single (c : UInt32) : CodeSet := ofNormal [.single c] (by simp [Spans.Normal, Span.single])

/-- Whether the set has no code point. -/
def isEmpty (s : CodeSet) : Bool := s.spans.isEmpty

/-- The code points of either set. -/
def union (s t : CodeSet) : CodeSet :=
  ofNormal (Spans.union s.spans.toList t.spans.toList) (Spans.normal_union s.normal t.normal)

/-- The code points of any of the sets. -/
def unions (l : List CodeSet) : CodeSet := ofSpans (l.flatMap (·.spans.toList))

/-- The code points of both sets. -/
def inter (s t : CodeSet) : CodeSet :=
  ofNormal (Spans.inter s.spans.toList t.spans.toList) (Spans.normal_inter s.normal t.normal)

/-- The code points of `s` that are not in `t`. -/
def diff (s t : CodeSet) : CodeSet :=
  ofNormal (Spans.diff s.spans.toList t.spans.toList) (Spans.normal_diff s.normal t.normal)

/-- The Unicode code points that are not in `s`. -/
def compl (s : CodeSet) : CodeSet := all.diff s

/-- Whether every code point of `t` is in `s`. -/
def includes (s t : CodeSet) : Bool := Spans.includes s.spans.toList t.spans.toList

/-- The text of a set: its spans between brackets. -/
def text (s : CodeSet) : String :=
  "[" ++ ", ".intercalate (s.spans.toList.map Span.text) ++ "]"

/-! ## Binary search -/

/-- Whether one of the spans at the positions from `lo` up to, not including, `hi` holds `c`. -/
def search (spans : Array Span) (c : UInt32) (lo hi : Nat) (h : hi ≤ spans.size) : Bool :=
  if hlt : lo < hi then
    let mid := lo + (hi - lo) / 2
    have : mid < spans.size := by omega
    if spans[mid].last < c then search spans c (mid + 1) hi h
    else if c < spans[mid].first then search spans c lo mid (by omega)
    else true
  else false
termination_by hi - lo

/-- Whether `c` is in the set. -/
def contains (s : CodeSet) (c : UInt32) : Bool := search s.spans c 0 s.spans.size (Nat.le_refl _)

end CodeSet
end RegexNotation
