/-
  Reading sets.

  An item is a named set, a range or a single character.  A character followed by `-` begins a range if
  another character follows; otherwise the `-` is an item of its own.
-/
import RegexNotation.Parser.Literal

namespace RegexNotation.Parser

/-- The second bound of a range whose first bound is `a`, or else `a` alone. -/
def rangeFrom (a : Literal) : Parser SetItem :=
  SetItem.range a <$> (do token "-"; literal) <|> pure (.single a)

/-- An item between the brackets of a set. -/
def setItem : Parser SetItem :=
  SetItem.named <$> setLetter <|> (do rangeFrom (← literal))

/-- A set in brackets. -/
def set : Parser Regex := do
  token "["
  let negated ← (do token "^"; return true) <|> pure false
  let items ← many setItem
  token "]"
  return .set negated items

end RegexNotation.Parser
