/-
  Why a text is no pattern.

  A pattern always has a longest beginning that reads as one, possibly empty.  If something was missed further
  on, that is where the error is; otherwise the error is that the text goes on.
-/
import RegexNotation.Parser.Pattern

namespace RegexNotation

/-- The two kinds of errors. -/
inductive ParseError.Kind where
  /-- Something was missing behind the place where reading stopped. -/
  | noAlternative
  /-- The text goes on where reading stopped, and nothing further on was looked at. -/
  | trailingInput
deriving DecidableEq

/-- Why a text is no pattern: the place in bytes, and what would have been accepted there, sorted by text. -/
structure ParseError where
  kind : ParseError.Kind
  offset : Nat
  expected : List Expected
deriving DecidableEq

namespace ParseError

/-- The error of a run that stopped at the byte `stop`, before the end of the text. -/
def ofMisses (stop : Nat) (m : Misses) : ParseError :=
  let m := m.join ⟨stop, [.endOfInput]⟩
  ⟨if stop < m.offset then .noAlternative else .trailingInput, m.offset,
    m.wanted.foldr Expected.insert []⟩

/-- The error in words. -/
def message (e : ParseError) : String :=
  (match e.kind with
    | .noAlternative => "no alternative matched at offset "
    | .trailingInput => "unconsumed input at offset ")
  ++ toString e.offset ++ ", expected one of: " ++ ", ".intercalate (e.expected.map Expected.text)

end ParseError

/-- Reads a whole text as a pattern. -/
def Regex.parse (text : String) : Except ParseError Regex :=
  let r := Parser.pattern.run (.start text)
  match r.outcome with
  | some (e, ⟨_, []⟩) => .ok e
  | some (_, stop) => .error (.ofMisses stop.offset r.misses)
  | none => .error (.ofMisses 0 r.misses)

end RegexNotation
