/-
  Hexadecimal numerals.

  Writing uses the digits of `Nat.toDigits`: lower case behind `0x`, or upper case padded with zeros to a
  given width.  Reading takes digits of either case, any number of leading zeros and one optional sign `+`.

  * `Hex.digit?` is the value of a digit, `Hex.value` that of a run of digits;
  * `Hex.read?` reads a whole text.
-/

namespace RegexNotation.Hex

/-- The value of a hexadecimal digit of either case. -/
def digit? (c : Char) : Option Nat :=
  if '0' ≤ c ∧ c ≤ '9' then some (c.toNat - 48)
  else if 'a' ≤ c ∧ c ≤ 'f' then some (c.toNat - 87)
  else if 'A' ≤ c ∧ c ≤ 'F' then some (c.toNat - 55)
  else none

/-- Whether a character is a hexadecimal digit. -/
def isDigit (c : Char) : Bool := (digit? c).isSome

/-- The positional value of a run of digits, after digits of the value `n`. -/
def valueFrom (n : Nat) : List Char → Option Nat
  | [] => some n
  | c :: cs => (digit? c).bind fun d => valueFrom (16 * n + d) cs

/-- The positional value of one or more digits. -/
def value? : List Char → Option Nat
  | [] => none
  | c :: cs => valueFrom 0 (c :: cs)

/-- Reads a hexadecimal numeral, which may begin with one `+`. -/
def read? : List Char → Option Nat
  | '+' :: cs => value? cs
  | cs => value? cs

/-- The numeral with the fewest lower-case digits, behind `0x`. -/
def lower (n : Nat) : String := "0x" ++ String.ofList (Nat.toDigits 16 n)

/-- The upper-case digits of `n`, padded with zeros to `width` of them. -/
def upper (width n : Nat) : String :=
  String.ofList (((Nat.toDigits 16 n).map Char.toUpper).leftpad width '0')

end RegexNotation.Hex
