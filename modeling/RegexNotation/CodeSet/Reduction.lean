/-
  A code set as a list of names and spans.

  `CodeSet.parts` takes, in the order of `NamedSet.ordered`, each named set that the whole set includes and
  that still adds a code point to the names taken before it.  The spans that no name has covered follow.
-/
import RegexNotation.CodeSet.Named

namespace RegexNotation

/-- A part of a set: a named set, or a span. -/
inductive Part where
  | named (letter : Char)
  | span (s : Span)
deriving DecidableEq

namespace CodeSet

/-- The named sets of a list that `whole` includes and that meet what is left of it, with what is left in
    the end. -/
def takeNamed (whole : CodeSet) : List NamedSet → CodeSet → List Char × CodeSet
  | [], left => ([], left)
  | n :: ns, left =>
    if whole.includes n.codes && !(left.inter n.codes).isEmpty then
      let (letters, left) := takeNamed whole ns (left.diff n.codes)
      (n.letter :: letters, left)
    else takeNamed whole ns left

/-- The names that fit into a set, then the spans that they leave over. -/
def parts (s : CodeSet) : List Part :=
  let (letters, left) := s.takeNamed NamedSet.ordered s
  letters.map .named ++ left.spans.toList.map .span

end CodeSet
end RegexNotation
