/-
  Reading again what was written.
-/
import RegexNotation.Parser.Error
import RegexNotation.Regex.Printer

namespace RegexNotation

/-- What comes of reading the text of an expression. -/
inductive Reread where
  | same
  | different
  | failed
deriving DecidableEq

/-- Whether the text of an expression reads as that expression. -/
def Regex.reread (e : Regex) : Reread :=
  match Regex.parse e.print with
  | .ok e' => if e' = e then .same else .different
  | .error _ => .failed

end RegexNotation
