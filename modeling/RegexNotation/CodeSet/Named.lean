/-
  The named sets.

  Six letters name a set behind a backslash: `s` (space, tab, line feed and carriage return), `w` (letters,
  digits and `_`, all of ASCII), `d` (the ASCII digits), and for each of them the capital letter, which names
  the complement.

  `byInclusion` puts sets in an order in which a set stands before every set that it includes.  Inclusion
  leaves many pairs unordered, so ties go to the set that was listed first.
-/
import RegexNotation.CodeSet.Basic

namespace RegexNotation

/-- A set and the letter that names it. -/
structure NamedSet where
  letter : Char
  codes : CodeSet
deriving DecidableEq

namespace NamedSet

/-- The code points of the characters from `a` to `b`. -/
def charSpan (a b : Char) : Span := ⟨a.val, b.val⟩

def space : CodeSet :=
  .ofSpans [charSpan ' ' ' ', charSpan '\n' '\n', charSpan '\t' '\t', charSpan '\r' '\r']

def word : CodeSet :=
  .ofSpans [charSpan 'a' 'z', charSpan 'A' 'Z', charSpan '0' '9', charSpan '_' '_']

def digit : CodeSet := .ofSpans [charSpan '0' '9']

/-- The named sets, in the order in which they are declared. -/
def registry : List NamedSet :=
  [⟨'s', space⟩, ⟨'S', space.compl⟩, ⟨'w', word⟩, ⟨'W', word.compl⟩, ⟨'d', digit⟩, ⟨'D', digit.compl⟩]

/-- The set that a letter names. -/
def find? (letter : Char) : Option CodeSet :=
  (registry.find? (·.letter = letter)).map (·.codes)

/-- Whether a letter names a set. -/
def isName (letter : Char) : Bool := (find? letter).isSome

/-! ## The order of inclusion -/

/-- Whether no other set of the list includes `n`. -/
def isMaximal (l : List NamedSet) (n : NamedSet) : Bool :=
  l.all fun m => m.codes = n.codes || !m.codes.includes n.codes

/-- Takes the first maximal set, again and again. -/
def byInclusion (l : List NamedSet) : List NamedSet :=
  match l.findFinIdx? (isMaximal l) with
  | some i => l[i] :: byInclusion (l.eraseIdx i)
  | none => l
termination_by l.length
decreasing_by
  have := i.isLt
  rw [List.length_eraseIdx_of_lt this]
  omega

/-- The named sets in the order in which they are tried on a set. -/
def ordered : List NamedSet := byInclusion registry

end NamedSet
end RegexNotation
