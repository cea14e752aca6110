/-
  Reading quantifiers.

  A bound is a run of decimal digits whose value fits into 32 bits, with any number of leading zeros.  Blanks
  may stand between the parts of a quantifier in braces, and nowhere else in the notation.
-/
import RegexNotation.Parser.Basic
import RegexNotation.Regex.Basic
import RegexNotation.Text.Blank

namespace RegexNotation.Parser

/-- The value of a run of decimal digits, if it fits into 32 bits. -/
def boundOfDigits (ds : List Char) : Option UInt32 :=
  let n := Nat.ofDigitChars 10 ds 0
  if n < UInt32.size then some (.ofNat n) else none

/-- A decimal digit. -/
def digit : Parser Char := charWhere Char.isDigit .digit

/-- One or more decimal digits. -/
def digits : Parser (List Char) := do
  let d ← digit
  let ds ← many digit
  return d :: ds

/-- A bound of a repetition. -/
def bound : Parser UInt32 := digits.accept boundOfDigits .number

/-- Any number of blanks. -/
def blanks : Parser Unit := skipWhile Text.isBlank

/-- What may follow the first bound `n`. -/
def boundsFrom (n : UInt32) : Parser Quantifier :=
  (do
    token ","
    blanks
    Quantifier.between n <$> bound <|> pure (.atLeast n))
  <|> pure (.exactly n)

/-- The bounds of a repetition, in braces. -/
def bounds : Parser Quantifier := do
  token "\x7b"
  blanks
  let n ← bound
  blanks
  let q ← boundsFrom n
  blanks
  token "\x7d"
  return q

/-- A quantifier. -/
def quantifier : Parser Quantifier :=
  (do token "*"; return .star)
  <|> (do token "+"; return .plus)
  <|> (do token "?"; return .opt)
  <|> bounds

end RegexNotation.Parser
