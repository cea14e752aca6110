/-
  Reading patterns.

      alternation    concatenation ('|' concatenation)*
      concatenation  repetition*
      repetition     atom quantifier?
      atom           '(?:' alternation ')' | '(' alternation ')' | '.' | '$0' | '$e' | set | named | literal

  Both lists lean to the left in the tree: `abc` is `(ab)c`, and `a|b|c` is `(a|b)|c`.  Groups nest up to
  `maxNesting` deep: the parser of a group's inside is built from that of the groups within it, `maxNesting`
  times over.
-/
import RegexNotation.Parser.Quantifier
import RegexNotation.Parser.Set

namespace RegexNotation

/-- How deep groups may nest. -/
def maxNesting : Nat := 256

/-- The concatenation of a list of expressions. -/
def Regex.concat : List Regex → Regex
  | [] => .blank
  | e :: es => es.foldl .cat e

/-- The choice between an expression and those of a list. -/
def Regex.choice (e : Regex) (es : List Regex) : Regex := es.foldl .alt e

namespace Parser

/-! Each of these takes the parser for the inside of a group. -/

/-- A group of one kind. -/
def group (inside : Parser Regex) (kind : GroupKind) : Parser Regex := do
  token (.ofList kind.opening)
  let e ← inside
  token ")"
  return .group kind e

/-- An expression that a quantifier can follow. -/
def atom (inside : Parser Regex) : Parser Regex :=
  group inside .plain
  <|> group inside .capture
  <|> (do token "."; return .any)
  <|> (do token "$0"; return .never)
  <|> (do token "$e"; return .empty)
  <|> set
  <|> Regex.named <$> setLetter
  <|> Regex.literal <$> literal

/-- An atom with at most one quantifier. -/
def repetition (inside : Parser Regex) : Parser Regex := do
  let e ← atom inside
  Regex.quantified e <$> quantifier <|> pure e

/-- Any number of repetitions. -/
def concatenation (inside : Parser Regex) : Parser Regex := do
  return .concat (← many (repetition inside))

/-- Concatenations between bars. -/
def alternation (inside : Parser Regex) : Parser Regex := do
  let e ← concatenation inside
  let es ← many (do token "|"; concatenation inside)
  return .choice e es

/-- The inside of a group in which `room - 1` more groups may nest. -/
def inside : Nat → Parser Regex
  | 0 => miss (.shallowGroup maxNesting)
  | room + 1 => alternation (inside room)

/-- A pattern. -/
def pattern : Parser Regex := alternation (inside maxNesting)

end Parser
end RegexNotation
