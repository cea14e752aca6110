/-
  The text of a regular expression.

  * `Regex.render` is the text, piece by piece: what each kind of node writes around the texts of its parts;
  * `Regex.renderOnto` writes the same text in front of a given one.  It takes the right part of a node first
    and ends in a call on the left part, so it needs no stack for the left spines that long texts give
    (`renderOnto_eq`);
  * `Regex.print` is the text as a string.

  No group is ever added: the text reads back as the same tree only if the tree has the groups that it needs.
-/
import RegexNotation.Regex.Basic

namespace RegexNotation

/-- The text of a character. -/
def Literal.render : Literal → List Char
  | plain c => [c]
  | escaped c | control c => ['\\', c]
  | hex2 ds => '\\' :: 'x' :: ds.toList
  | hex4 ds => '\\' :: 'u' :: ds.toList
  | hexBraced ds => '\\' :: 'u' :: '{' :: (ds.toList ++ ['}'])

/-- The text of an item of a set. -/
def SetItem.render : SetItem → List Char
  | named letter => ['\\', letter]
  | range a b => a.render ++ '-' :: b.render
  | single c => c.render

/-- The decimal digits of a bound. -/
def boundDigits (n : UInt32) : List Char := Nat.toDigits 10 n.toNat

/-- The text of a quantifier. -/
def Quantifier.render : Quantifier → List Char
  | star => ['*']
  | plus => ['+']
  | opt => ['?']
  | exactly n => '{' :: (boundDigits n ++ ['}'])
  | atLeast n => '{' :: (boundDigits n ++ [',', '}'])
  | between n m => '{' :: (boundDigits n ++ ',' :: (boundDigits m ++ ['}']))

namespace Regex

/-- The text of a set. -/
def renderSet (negated : Bool) (items : List SetItem) : List Char :=
  '[' :: ((if negated then ['^'] else []) ++ (items.flatMap SetItem.render ++ [']']))

/-- The text of an expression. -/
def render : Regex → List Char
  | any => ['.']
  | empty => ['$', 'e']
  | blank => []
  | never => ['$', '0']
  | set negated items => renderSet negated items
  | named letter => ['\\', letter]
  | literal c => c.render
  | alt l r => l.render ++ '|' :: r.render
  | cat l r => l.render ++ r.render
  | quantified e q => e.render ++ q.render
  | group kind e => kind.opening ++ (e.render ++ [')'])

/-- The text of an expression in front of `rest`. -/
def renderOnto : Regex → List Char → List Char
  | any, rest => '.' :: rest
  | empty, rest => '$' :: 'e' :: rest
  | blank, rest => rest
  | never, rest => '$' :: '0' :: rest
  | set negated items, rest => renderSet negated items ++ rest
  | named letter, rest => '\\' :: letter :: rest
  | literal c, rest => c.render ++ rest
  | alt l r, rest => l.renderOnto ('|' :: r.renderOnto rest)
  | cat l r, rest => l.renderOnto (r.renderOnto rest)
  | quantified e q, rest => e.renderOnto (q.render ++ rest)
  | group kind e, rest => kind.opening ++ e.renderOnto (')' :: rest)

theorem renderOnto_eq (e : Regex) : ∀ rest, e.renderOnto rest = e.render ++ rest := by
  induction e with
  | alt l r ihl ihr => intro rest; rw [renderOnto, render, ihl, ihr]; simp
  | cat l r ihl ihr => intro rest; rw [renderOnto, render, ihl, ihr]; simp
  | quantified e q ih => intro rest; rw [renderOnto, render, ih]; simp
  | group kind e ih => intro rest; rw [renderOnto, render, ih]; simp
  | _ => intro rest; rfl

/-- The text of an expression. -/
def print (e : Regex) : String := String.ofList (e.renderOnto [])

theorem toList_print (e : Regex) : e.print.toList = e.render := by
  rw [print, renderOnto_eq, List.append_nil, String.toList_ofList]

end Regex
end RegexNotation
