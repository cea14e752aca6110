/-
  Expressions as the notation has them, and the texts that spell them.

  * `Regex.Fits ℓ e`: the tree `e` has the shape of the grammar's level `ℓ`.  `Regex.WellFormed` is the shape
    of a whole pattern, with groups that nest no deeper than `maxNesting`;
  * `Regex.SpelledBy e s`: the text `s` is that of `e`, except that the braces of a quantifier may hold blanks
    and leading zeros.  Any tree has such a text, `render` gives one (`spelledBy_render`);
  * `SetItem.Unmerged`: no character of a set is followed by what would make a range of it.
-/
import RegexNotation.Parser.Pattern
import RegexNotation.Regex.Printer

namespace RegexNotation

/-! ## Characters and items of sets -/

/-- The spelling is one of the notation. -/
def Literal.Valid : Literal → Prop
  | plain c => Alphabet.isReserved c = false
  | escaped c => Alphabet.isEscapable c
  | control letter => Alphabet.isControlLetter letter
  | hex2 ds => ds.toList.length = 2 ∧ ∀ c ∈ ds.toList, Hex.isDigit c
  | hex4 ds => ds.toList.length = 4 ∧ ∀ c ∈ ds.toList, Hex.isDigit c
  | hexBraced ds =>
    1 ≤ ds.toList.length ∧ ds.toList.length ≤ 6 ∧ ∀ c ∈ ds.toList, Hex.isDigit c

instance : DecidablePred Literal.Valid
  | .plain c => inferInstanceAs (Decidable (Alphabet.isReserved c = false))
  | .escaped c => inferInstanceAs (Decidable (Alphabet.isEscapable c = true))
  | .control l => inferInstanceAs (Decidable (Alphabet.isControlLetter l = true))
  | .hex2 ds => inferInstanceAs
    (Decidable (ds.toList.length = 2 ∧ ∀ c ∈ ds.toList, Hex.isDigit c = true))
  | .hex4 ds => inferInstanceAs
    (Decidable (ds.toList.length = 4 ∧ ∀ c ∈ ds.toList, Hex.isDigit c = true))
  | .hexBraced ds => inferInstanceAs (Decidable
    (1 ≤ ds.toList.length ∧ ds.toList.length ≤ 6 ∧ ∀ c ∈ ds.toList, Hex.isDigit c = true))

namespace SetItem

/-- The item is made of spellings of the notation. -/
def Valid : SetItem → Prop
  | named letter => NamedSet.isName letter
  | range a b => a.Valid ∧ b.Valid
  | single a => a.Valid

/-- Whether the items begin with a character. -/
def beginWithChar : List SetItem → Bool
  | range _ _ :: _ | single _ :: _ => true
  | _ => false

/-- Whether the items begin with a plain `-` and go on with a character. -/
def beginWithDash : List SetItem → Bool
  | range (.plain c) _ :: _ => c = '-'
  | single (.plain c) :: items => c = '-' && beginWithChar items
  | _ => false

/-- No single character is followed by a plain `-` and another character. -/
def Unmerged : List SetItem → Prop
  | [] => True
  | single _ :: items => beginWithDash items = false ∧ Unmerged items
  | _ :: items => Unmerged items

end SetItem

/-! ## Quantifiers -/

/-- The digits are a decimal numeral of `n`, with any number of leading zeros. -/
def IsNumeral (n : UInt32) (ds : List Char) : Prop :=
  ds ≠ [] ∧ (∀ c ∈ ds, c.isDigit) ∧ Nat.ofDigitChars 10 ds 0 = n.toNat

/-- The text is made of blanks. -/
def AllBlank (w : List Char) : Prop := ∀ c ∈ w, Text.isBlank c

theorem AllBlank.nil : AllBlank [] := by
  rintro c ⟨⟩

theorem AllBlank.append {w u : List Char} (hw : AllBlank w) (hu : AllBlank u) : AllBlank (w ++ u) := by
  intro c hc
  rcases List.mem_append.1 hc with h | h
  · exact hw c h
  · exact hu c h

/-- The texts of a quantifier. -/
inductive Quantifier.SpelledBy : Quantifier → List Char → Prop
  | star : SpelledBy star ['*']
  | plus : SpelledBy plus ['+']
  | opt : SpelledBy opt ['?']
  | exactly {n w ds w'} : AllBlank w → IsNumeral n ds → AllBlank w' →
      SpelledBy (exactly n) ('{' :: (w ++ (ds ++ (w' ++ ['}']))))
  | atLeast {n w ds w' u} : AllBlank w → IsNumeral n ds → AllBlank w' → AllBlank u →
      SpelledBy (atLeast n) ('{' :: (w ++ (ds ++ (w' ++ ',' :: (u ++ ['}'])))))
  | between {n m w ds w' u es u'} : AllBlank w → IsNumeral n ds → AllBlank w' → AllBlank u →
      IsNumeral m es → AllBlank u' →
      SpelledBy (between n m) ('{' :: (w ++ (ds ++ (w' ++ ',' :: (u ++ (es ++ (u' ++ ['}'])))))))

/-- The texts between the first bound `n` of a quantifier in braces and its end. -/
inductive Quantifier.TailOf (n : UInt32) : Quantifier → List Char → Prop
  | exactly {w} : AllBlank w → TailOf n (exactly n) (w ++ ['}'])
  | atLeast {w u} : AllBlank w → AllBlank u → TailOf n (atLeast n) (w ++ ',' :: (u ++ ['}']))
  | between {m w u es u'} : AllBlank w → AllBlank u → IsNumeral m es → AllBlank u' →
      TailOf n (between n m) (w ++ ',' :: (u ++ (es ++ (u' ++ ['}']))))

theorem Quantifier.spelledBy_braces_iff {q : Quantifier} {s : List Char} :
    q.SpelledBy s ∧ s.head? = some '{' ↔ ∃ n w ds t, s = '{' :: (w ++ (ds ++ t)) ∧ AllBlank w ∧
      IsNumeral n ds ∧ q.TailOf n t := by
  constructor
  · rintro ⟨hq, hs⟩
    cases hq with
    | star | plus | opt => cases hs
    | exactly hw hn hw' => exact ⟨_, _, _, _, rfl, hw, hn, .exactly hw'⟩
    | atLeast hw hn hw' hu => exact ⟨_, _, _, _, rfl, hw, hn, .atLeast hw' hu⟩
    | between hw hn hw' hu hm hu' => exact ⟨_, _, _, _, rfl, hw, hn, .between hw' hu hm hu'⟩
  · rintro ⟨n, w, ds, t, rfl, hw, hn, ht⟩
    refine ⟨?_, rfl⟩
    cases ht with
    | exactly hw' => exact .exactly hw hn hw'
    | atLeast hw' hu => exact .atLeast hw hn hw' hu
    | between hw' hu hm hu' => exact .between hw hn hw' hu hm hu'

theorem isNumeral_boundDigits (n : UInt32) : IsNumeral n (boundDigits n) :=
  ⟨Nat.toDigits_ne_nil, fun _ hc => Nat.isDigit_of_mem_toDigits (by decide) (by decide) hc,
    Nat.ofDigitChars_ten_toDigits⟩

theorem Quantifier.spelledBy_render (q : Quantifier) : q.SpelledBy q.render := by
  cases q with
  | star => exact .star
  | plus => exact .plus
  | opt => exact .opt
  | exactly n => exact .exactly .nil (isNumeral_boundDigits n) .nil
  | atLeast n => exact .atLeast .nil (isNumeral_boundDigits n) .nil .nil
  | between n m => exact .between .nil (isNumeral_boundDigits n) .nil .nil (isNumeral_boundDigits m) .nil

/-! ## Expressions -/

/-- The levels of the grammar, from the one that binds most loosely.  A `sequence` is a concatenation of at
    least one repetition. -/
inductive Level where
  | alternation
  | concatenation
  | sequence
  | repetition
  | atom
deriving DecidableEq

namespace Regex

/-- **The shape of the grammar's levels.**  Concatenations and alternatives lean to the left. -/
inductive Fits : Level → Regex → Prop
  | concatenation {e} : Fits .concatenation e → Fits .alternation e
  | alt {l r} : Fits .alternation l → Fits .concatenation r → Fits .alternation (.alt l r)
  | blank : Fits .concatenation .blank
  | sequence {e} : Fits .sequence e → Fits .concatenation e
  | repetition {e} : Fits .repetition e → Fits .sequence e
  | cat {l r} : Fits .sequence l → Fits .repetition r → Fits .sequence (.cat l r)
  | atom {e} : Fits .atom e → Fits .repetition e
  | quantified {e q} : Fits .atom e → Fits .repetition (.quantified e q)
  | any : Fits .atom .any
  | empty : Fits .atom .empty
  | never : Fits .atom .never
  | set {negated items} : (∀ i ∈ items, i.Valid) → SetItem.Unmerged items →
      Fits .atom (.set negated items)
  | named {letter} : NamedSet.isName letter → Fits .atom (.named letter)
  | literal {c} : c.Valid → Fits .atom (.literal c)
  | group {kind e} : Fits .alternation e → Fits .atom (.group kind e)

/-- How deep groups nest. -/
def nesting : Regex → Nat
  | alt l r | cat l r => max l.nesting r.nesting
  | quantified e _ => e.nesting
  | group _ e => e.nesting + 1
  | _ => 0

/-- The tree is one that a pattern can have. -/
def WellFormed (e : Regex) : Prop := e.Fits .alternation ∧ e.nesting ≤ maxNesting

/-- The texts of an expression. -/
def SpelledBy : Regex → List Char → Prop
  | alt l r, s => ∃ u v, l.SpelledBy u ∧ r.SpelledBy v ∧ s = u ++ '|' :: v
  | cat l r, s => ∃ u v, l.SpelledBy u ∧ r.SpelledBy v ∧ s = u ++ v
  | quantified e q, s => ∃ u v, e.SpelledBy u ∧ q.SpelledBy v ∧ s = u ++ v
  | group kind e, s => ∃ u, e.SpelledBy u ∧ s = kind.opening ++ (u ++ [')'])
  | e, s => s = e.render

theorem spelledBy_render (e : Regex) : e.SpelledBy e.render := by
  induction e with
  | alt l r ihl ihr => exact ⟨_, _, ihl, ihr, rfl⟩
  | cat l r ihl ihr => exact ⟨_, _, ihl, ihr, rfl⟩
  | quantified e q ih => exact ⟨_, _, ih, q.spelledBy_render, rfl⟩
  | group kind e ih => exact ⟨_, ih, rfl⟩
  | _ => exact rfl

end Regex
end RegexNotation
