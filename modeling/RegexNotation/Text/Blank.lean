/-
  Blank characters: those with the Unicode property `White_Space`.
-/

namespace RegexNotation.Text

/-- The first and last character of each run of blanks. -/
def blanks : List (Char × Char) :=
  [('\t', '\r'), (' ', ' '), ('\u0085', '\u0085'), ('\u00a0', '\u00a0'), ('\u1680', '\u1680'),
    ('\u2000', '\u200a'), ('\u2028', '\u2029'), ('\u202f', '\u202f'), ('\u205f', '\u205f'),
    ('\u3000', '\u3000')]

/-- Whether a character has the property `White_Space`. -/
def isBlank (c : Char) : Bool := blanks.any fun (a, b) => a ≤ c && c ≤ b

end RegexNotation.Text
