/-
  Reading characters.

  A character stands for itself unless it is reserved.  Behind a backslash come, in the order of the attempts,
  a character that is merely quoted, the letter of a control character, `u` with four hexadecimal digits, `x`
  with two, or up to six of them in braces behind `u`.
-/
import RegexNotation.Parser.Basic
import RegexNotation.Regex.Basic
import RegexNotation.Regex.Alphabet
import RegexNotation.Text.Hex

namespace RegexNotation.Parser

/-- From `lo` to `hi` hexadecimal digits, as many as there are. -/
def hexDigits (lo hi : Nat) : Parser String := do
  let ds ← upTo (charWhere Hex.isDigit .hexDigit) hi
  guard (lo ≤ ds.length)
  return .ofList ds

/-- What may follow a backslash to spell one character. -/
def escape : Parser Literal :=
  Literal.escaped <$> charWhere Alphabet.isEscapable .escapable
  <|> Literal.control <$> charWhere Alphabet.isControlLetter .controlLetter
  <|> Literal.hex4 <$> (do token "u"; hexDigits 4 4)
  <|> Literal.hex2 <$> (do token "x"; hexDigits 2 2)
  <|> Literal.hexBraced <$> (do token "u\x7b"; let ds ← hexDigits 1 6; token "\x7d"; return ds)

/-- One character. -/
def literal : Parser Literal :=
  Literal.plain <$> charWhere (!Alphabet.isReserved ·) .literal
  <|> (do token "\\"; escape)

/-- A backslash and the letter of a named set. -/
def setLetter : Parser Char := do
  token "\\"
  charWhere NamedSet.isName .setLetter

end RegexNotation.Parser
