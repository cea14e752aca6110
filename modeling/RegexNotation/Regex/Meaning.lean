/-
  The set of code points that an expression stands for.

  Expressions that match exactly one character have a set: `.`, a character, a named set and a set in
  brackets.  A set in brackets holds what its items hold, or, if it is negated, the other Unicode code points.
  The first item without a meaning decides the error, negated or not; within a range, the first bound comes
  before the last, and both before their order.
-/
import RegexNotation.Regex.Alphabet
import RegexNotation.Regex.Basic

namespace RegexNotation

/-- Why an expression stands for no set. -/
inductive MeaningError where
  /-- The spelling of a character names no Unicode code point. -/
  | invalidCodePoint (spelling : String)
  | reversedRange (first last : UInt32)
  | unknownName (letter : Char)
  /-- The expression is not one that matches exactly one character. -/
  | notASet
deriving DecidableEq

/-- The error in words. -/
def MeaningError.message : MeaningError → String
  | invalidCodePoint spelling => "'" ++ spelling ++ "' is not a valid code point"
  | reversedRange first last =>
    "range " ++ Hex.lower first.toNat ++ "-" ++ Hex.lower last.toNat ++ " is out of order"
  | unknownName letter => "unknown named class '\\" ++ letter.toString ++ "'"
  | notASet => "node does not describe a character class"

/-- The code point of a hexadecimal numeral, which must be a Unicode code point. -/
def codePointOfHex (digits : String) : Except MeaningError UInt32 :=
  match Hex.read? digits.toList with
  | some n =>
    if n ≤ maxCodePoint.toNat then .ok (.ofNat n) else .error (.invalidCodePoint digits)
  | none => .error (.invalidCodePoint digits)

/-- The code point of a character. -/
def Literal.codePoint : Literal → Except MeaningError UInt32
  | plain c | escaped c => .ok c.val
  | control letter =>
    match Alphabet.control? letter with
    | some c => .ok c.val
    | none => .error (.invalidCodePoint (.ofList ['\\', letter]))
  | hex2 digits | hex4 digits | hexBraced digits => codePointOfHex digits

/-- The set of a letter. -/
def codesOfName (letter : Char) : Except MeaningError CodeSet :=
  match NamedSet.find? letter with
  | some s => .ok s
  | none => .error (.unknownName letter)

/-- The code points of an item. -/
def SetItem.codes : SetItem → Except MeaningError CodeSet
  | named letter => codesOfName letter
  | range a b => do
    let first ← a.codePoint
    let last ← b.codePoint
    if last < first then throw (.reversedRange first last)
    return .ofSpans [⟨first, last⟩]
  | single c => do return .single (← c.codePoint)

/-- The code points of all items. -/
def codesOfItems (items : List SetItem) : Except MeaningError CodeSet := do
  return .unions (← items.mapM SetItem.codes)

/-- The set that an expression stands for. -/
def Regex.codes : Regex → Except MeaningError CodeSet
  | any => .ok .all
  | literal c => do return .single (← c.codePoint)
  | named letter => codesOfName letter
  | set negated items => do
    let s ← codesOfItems items
    return if negated then s.compl else s
  | _ => .error .notASet

end RegexNotation
