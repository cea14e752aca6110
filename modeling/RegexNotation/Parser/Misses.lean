/-
  What a parser looked for in vain.

  A parser that fails, or that stops where more could have followed, remembers what it wanted there.  Of all
  these `Misses` only those at the furthest place are kept: a miss further on makes the earlier ones
  irrelevant, and misses at the same place add up (`offset_join`, `mem_wanted_join`).
-/

namespace RegexNotation

/-- What can be wanted at a place. -/
inductive Expected where
  /-- The given characters. -/
  | token (text : String)
  /-- A character that stands for itself. -/
  | literal
  | hexDigit
  | digit
  /-- A number that is small enough. -/
  | number
  /-- The letter of a named set. -/
  | setLetter
  /-- A character that a backslash quotes. -/
  | escapable
  /-- The letter of a control character. -/
  | controlLetter
  | endOfInput
  /-- Groups that are not nested too deep. -/
  | shallowGroup (limit : Nat)
deriving DecidableEq

/-- How a want is described to the user. -/
def Expected.text : Expected → String
  | token text => "'" ++ text ++ "'"
  | literal => "literal"
  | hexDigit => "hex digit"
  | digit => "digit"
  | number => "number"
  | setLetter => "named class"
  | escapable => "escapable char"
  | controlLetter => "special char"
  | endOfInput => "end of input"
  | shallowGroup limit => "at most " ++ toString limit ++ " nested groups"

/-- Adds a want to a list that is sorted by text and has no text twice, unless it has this one. -/
def Expected.insert (e : Expected) : List Expected → List Expected
  | [] => [e]
  | x :: xs =>
    if e.text < x.text then e :: x :: xs
    else if e.text = x.text then x :: xs
    else x :: e.insert xs

/-- What was wanted at the furthest place where something was missing. -/
structure Misses where
  offset : Nat
  wanted : List Expected
deriving DecidableEq

namespace Misses

/-- Nothing was missing. -/
def none : Misses := ⟨0, []⟩

/-- The misses of two runs together. -/
def join (a b : Misses) : Misses :=
  if a.offset < b.offset then b
  else if b.offset < a.offset then a
  else ⟨a.offset, a.wanted ++ b.wanted⟩

theorem offset_join (a b : Misses) : (a.join b).offset = max a.offset b.offset := by
  unfold join
  split
  · omega
  · split
    · omega
    · show a.offset = _
      omega

theorem mem_wanted_join {a b : Misses} {e : Expected} :
    e ∈ (a.join b).wanted ↔
      (b.offset ≤ a.offset ∧ e ∈ a.wanted) ∨ (a.offset ≤ b.offset ∧ e ∈ b.wanted) := by
  unfold join
  split
  · next h => simp [Nat.not_le.2 h, Nat.le_of_lt h]
  · next h =>
    split
    · next h' => simp [Nat.not_le.2 h', Nat.le_of_lt h']
    · next h' => simp [Nat.not_lt.1 h, Nat.not_lt.1 h']

theorem join_none (a : Misses) : a.join none = a := by
  obtain ⟨o, w⟩ := a
  unfold join none
  cases o with
  | zero => simp
  | succ o => simp

theorem none_join (a : Misses) : none.join a = a := by
  obtain ⟨o, w⟩ := a
  unfold join none
  cases o with
  | zero => simp
  | succ o => simp

theorem join_assoc (a b c : Misses) : (a.join b).join c = a.join (b.join c) := by
  simp only [join]
  rcases Nat.lt_trichotomy a.offset b.offset with h | h | h <;>
    rcases Nat.lt_trichotomy b.offset c.offset with h' | h' | h' <;>
    grind

end Misses
end RegexNotation
