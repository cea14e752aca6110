/-
  Every part of a pattern takes at least one character.

  What `many` repeats must move forward.  This module shows it of digits, of the items of a set, of
  repetitions and of the alternatives behind a bar, whatever the inside of a group reads, as long as it does
  not move back (`advances_digit`, `advances_setItem`, `advances_repetition`, `advances_bar`).  The inside of a
  group does not, however deep groups may nest in it (`consumes_inside`).
-/
import RegexNotation.Parser.Lemmas
import RegexNotation.Parser.Pattern

namespace RegexNotation.Parser

/-! ## Characters and sets -/

theorem consumes_hexDigits (lo hi : Nat) : (hexDigits lo hi).Consumes :=
  ((advances_charWhere _ _).upTo hi).bind fun _ =>
    (consumes_guard _).bind fun _ => consumes_pure _

theorem advances_escape : escape.Advances :=
  ((advances_charWhere _ _).map _).orElse <|
  ((advances_charWhere _ _).map _).orElse <|
  (((advances_token (by decide)).bind fun _ => consumes_hexDigits 4 4).map _).orElse <|
  (((advances_token (by decide)).bind fun _ => consumes_hexDigits 2 2).map _).orElse <|
  ((advances_token (by decide)).bind fun _ => (consumes_hexDigits 1 6).bind fun _ =>
    (advances_token (by decide)).consumes.bind fun _ => consumes_pure _).map _

theorem advances_literal : literal.Advances :=
  ((advances_charWhere _ _).map _).orElse <|
  (advances_token (by decide)).bind fun _ => advances_escape.consumes

theorem advances_setLetter : setLetter.Advances :=
  (advances_token (by decide)).bind fun _ => (advances_charWhere _ _).consumes

theorem consumes_rangeFrom (a : Literal) : (rangeFrom a).Consumes :=
  .orElse
    (((advances_token (by decide)).bind fun _ => advances_literal.consumes).map _).consumes
    (consumes_pure _)

theorem advances_setItem : setItem.Advances :=
  (advances_setLetter.map _).orElse (advances_literal.bind consumes_rangeFrom)

theorem advances_set : set.Advances :=
  (advances_token (by decide)).bind fun _ =>
    (Consumes.orElse ((advances_token (by decide)).bind fun _ => consumes_pure _).consumes
      (consumes_pure _)).bind fun _ =>
    advances_setItem.many.bind fun _ =>
    (advances_token (by decide)).consumes.bind fun _ => consumes_pure _

/-! ## Quantifiers -/

theorem advances_digit : digit.Advances := advances_charWhere _ _

theorem advances_digits : digits.Advances :=
  advances_digit.bind fun _ => advances_digit.many.bind fun _ => consumes_pure _

theorem advances_bound : bound.Advances := advances_digits.accept _ _

theorem consumes_boundsFrom (n : UInt32) : (boundsFrom n).Consumes :=
  .orElse
    ((advances_token (by decide)).bind fun _ => (consumes_skipWhile _).bind fun _ =>
      .orElse (advances_bound.map _).consumes (consumes_pure _)).consumes
    (consumes_pure _)

theorem advances_bounds : bounds.Advances :=
  (advances_token (by decide)).bind fun _ =>
    (consumes_skipWhile _).bind fun _ =>
    advances_bound.consumes.bind fun n =>
    (consumes_skipWhile _).bind fun _ =>
    (consumes_boundsFrom n).bind fun _ =>
    (consumes_skipWhile _).bind fun _ =>
    (advances_token (by decide)).consumes.bind fun _ => consumes_pure _

theorem advances_quantifier : quantifier.Advances :=
  ((advances_token (by decide)).bind fun _ => consumes_pure _).orElse <|
  ((advances_token (by decide)).bind fun _ => consumes_pure _).orElse <|
  ((advances_token (by decide)).bind fun _ => consumes_pure _).orElse advances_bounds

/-! ## Patterns -/

variable {inside : Parser Regex}

theorem advances_group (hi : inside.Consumes) (kind : GroupKind) : (group inside kind).Advances :=
  (advances_token (by cases kind <;> decide)).bind fun _ => hi.bind fun _ =>
    (advances_token (by decide)).consumes.bind fun _ => consumes_pure _

theorem advances_atom (hi : inside.Consumes) : (atom inside).Advances :=
  (advances_group hi .plain).orElse <|
  (advances_group hi .capture).orElse <|
  ((advances_token (by decide)).bind fun _ => consumes_pure _).orElse <|
  ((advances_token (by decide)).bind fun _ => consumes_pure _).orElse <|
  ((advances_token (by decide)).bind fun _ => consumes_pure _).orElse <|
  advances_set.orElse <|
  (advances_setLetter.map _).orElse (advances_literal.map _)

theorem advances_repetition (hi : inside.Consumes) : (repetition inside).Advances :=
  (advances_atom hi).bind fun _ =>
    .orElse (advances_quantifier.map _).consumes (consumes_pure _)

theorem consumes_concatenation (hi : inside.Consumes) : (concatenation inside).Consumes :=
  (advances_repetition hi).many.bind fun _ => consumes_pure _

theorem advances_bar (hi : inside.Consumes) : (do token "|"; concatenation inside : Parser Regex).Advances :=
  (advances_token (by decide)).bind fun _ => consumes_concatenation hi

theorem consumes_alternation (hi : inside.Consumes) : (alternation inside).Consumes :=
  (consumes_concatenation hi).bind fun _ => (advances_bar hi).many.bind fun _ => consumes_pure _

theorem consumes_inside : ∀ room, (Parser.inside room).Consumes
  | 0 => (advances_miss _).consumes
  | room + 1 => consumes_alternation (consumes_inside room)

end RegexNotation.Parser
