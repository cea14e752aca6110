/-
  Regular expressions as written.

  A `Regex` is a text of the notation as a tree: it keeps how each character was spelled and where each group
  stood, so that a text can be given back from it.  Trees need not come from a text: any tree is allowed, also
  one that no text is read as.
-/

namespace RegexNotation

/-- One character, by its spelling. -/
inductive Literal where
  /-- The character itself. -/
  | plain (c : Char)
  /-- `\c`, which stands for `c`. -/
  | escaped (c : Char)
  /-- `\n` and the like: a letter that names a control character. -/
  | control (letter : Char)
  /-- `\xHH` -/
  | hex2 (digits : String)
  /-- `\uHHHH` -/
  | hex4 (digits : String)
  /-- `\u{H..}` -/
  | hexBraced (digits : String)
deriving DecidableEq

/-- An item between the brackets of a set. -/
inductive SetItem where
  /-- `\w` and the like. -/
  | named (letter : Char)
  /-- `a-z` -/
  | range (first last : Literal)
  | single (c : Literal)
deriving DecidableEq

/-- How often the expression before it may occur. -/
inductive Quantifier where
  /-- `*` -/
  | star
  /-- `+` -/
  | plus
  /-- `?` -/
  | opt
  /-- `{n}` -/
  | exactly (n : UInt32)
  /-- `{n,}` -/
  | atLeast (n : UInt32)
  /-- `{n,m}`, in any order of the bounds. -/
  | between (n m : UInt32)
deriving DecidableEq

/-- The two kinds of groups. -/
inductive GroupKind where
  /-- `(?:e)` -/
  | plain
  /-- `(e)` -/
  | capture
deriving DecidableEq

/-- What opens a group. -/
def GroupKind.opening : GroupKind → List Char
  | plain => ['(', '?', ':']
  | capture => ['(']

inductive Regex where
  /-- `.` -/
  | any
  /-- `$e`, the empty text. -/
  | empty
  /-- The empty text, written as nothing. -/
  | blank
  /-- `$0`, which matches nothing. -/
  | never
  /-- `[ ]`, or `[^ ]` if `negated`. -/
  | set (negated : Bool) (items : List SetItem)
  /-- `\w` and the like. -/
  | named (letter : Char)
  | literal (c : Literal)
  /-- `l|r` -/
  | alt (l r : Regex)
  /-- `l` followed by `r`. -/
  | cat (l r : Regex)
  | quantified (e : Regex) (q : Quantifier)
  | group (kind : GroupKind) (e : Regex)
deriving DecidableEq

end RegexNotation
