/-
  The characters of the notation that have a role of their own.

  * `reserved` characters stand for themselves only behind a backslash;
  * `controls` are the letters that name a control character behind a backslash;
  * a character is `isEscapable` if a backslash before it does nothing but quote it.
-/
import RegexNotation.CodeSet.Named

namespace RegexNotation.Alphabet

/-- The reserved characters. -/
def reserved : List Char := ['|', '*', '+', '?', '^', '$', '.', '\\', '{', '}', '(', ')', '[', ']']

/-- The letters of control characters and what they name: line feed, form feed, tab, vertical tab and
    carriage return. -/
def controls : List (Char × Char) :=
  [('n', '\n'), ('f', '\x0c'), ('t', '\t'), ('v', '\x0b'), ('r', '\r')]

def isReserved (c : Char) : Bool := reserved.contains c

/-- The control character that a letter names. -/
def control? (letter : Char) : Option Char := controls.lookup letter

/-- The letter of a control character, by its code point. -/
def controlLetter? (code : UInt32) : Option Char :=
  (controls.find? (·.2.val = code)).map (·.1)

def isControlLetter (c : Char) : Bool := (control? c).isSome

/-- Whether `\c` stands for `c`: the letters of hexadecimal escapes, of control characters and of named sets
    do not. -/
def isEscapable (c : Char) : Bool :=
  c != 'x' && c != 'u' && !isControlLetter c && !NamedSet.isName c

end RegexNotation.Alphabet
