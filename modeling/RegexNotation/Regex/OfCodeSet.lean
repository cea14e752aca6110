/-
  An expression for a given set.

  `Regex.ofCodeSet` is a set in brackets with the parts of the given one.  A code point is spelled by the
  letter of its control character, behind a backslash if it is reserved or `-`, as itself if it is a space or
  another visible character of ASCII, and otherwise by its shortest hexadecimal escape.  A number above the
  Unicode range is spelled all the same, though not every such spelling can be read.
-/
import RegexNotation.CodeSet.Reduction
import RegexNotation.Regex.Alphabet
import RegexNotation.Regex.Basic

namespace RegexNotation

/-- Whether a code point must be quoted in a set. -/
def isQuoted (code : UInt32) : Bool :=
  code = '-'.val || Alphabet.reserved.any (·.val = code)

/-- The spelling of a code point in a set. -/
def Literal.ofCodePoint (code : UInt32) : Literal :=
  match Alphabet.controlLetter? code with
  | some letter => .control letter
  | none =>
    if isQuoted code then .escaped (.ofNat code.toNat)
    else if ' '.val ≤ code ∧ code ≤ '~'.val then .plain (.ofNat code.toNat)
    else if code ≤ 0xFF then .hex2 (Hex.upper 2 code.toNat)
    else if code ≤ 0xFFFF then .hex4 (Hex.upper 4 code.toNat)
    else .hexBraced (Hex.upper 1 code.toNat)

/-- The item for a part of a set. -/
def SetItem.ofPart : Part → SetItem
  | .named letter => .named letter
  | .span s =>
    if s.first = s.last then .single (.ofCodePoint s.first)
    else .range (.ofCodePoint s.first) (.ofCodePoint s.last)

/-- The set in brackets that stands for `s`. -/
def Regex.ofCodeSet (s : CodeSet) : Regex := .set false (s.parts.map SetItem.ofPart)

end RegexNotation
