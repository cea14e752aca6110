/-
  Parsers with ordered choice that remember what they missed.

  A parser is run at a place in a text.  It gives a value and the place where it stopped, or nothing, and in
  both cases its `Misses`.  Running on from a place (`>>=`) and trying again at the same place (`<|>`) join
  the misses of both runs, so those of an attempt that was given up are not forgotten.

  A failed run has no place to go on from: whoever tries something else does so at the place where the
  attempt began.
-/
import RegexNotation.Parser.Misses

namespace RegexNotation

/-- A place in a text: the number of bytes in front of it, in UTF-8, and the characters behind it. -/
structure Cursor where
  offset : Nat
  rest : List Char
deriving DecidableEq

namespace Cursor

/-- The place before the first character. -/
def start (text : String) : Cursor := ⟨0, text.toList⟩

/-- The place behind the given characters, if they come next. -/
def strip? : List Char → Cursor → Option Cursor
  | [], c => some c
  | _ :: _, ⟨_, []⟩ => none
  | t :: ts, ⟨o, x :: xs⟩ => if t = x then strip? ts ⟨o + x.utf8Size, xs⟩ else none

/-- The place behind the longest run of characters that satisfy `p`. -/
def skipWhile (p : Char → Bool) (o : Nat) : List Char → Cursor
  | [] => ⟨o, []⟩
  | x :: xs => if p x then skipWhile p (o + x.utf8Size) xs else ⟨o, x :: xs⟩

end Cursor

/-- What comes of running a parser. -/
structure Reading (α : Type) where
  outcome : Option (α × Cursor)
  misses : Misses

/-- A parser for values of type `α`. -/
structure Parser (α : Type) where
  run : Cursor → Reading α

namespace Parser

variable {α β : Type}

/-! ## Sequence and choice -/

/-- Gives `a` and stays. -/
protected def pure (a : α) : Parser α := ⟨fun c => ⟨some (a, c), .none⟩⟩

/-- Runs `p`, then what its value asks for. -/
protected def bind (p : Parser α) (f : α → Parser β) : Parser β := ⟨fun c =>
  let r := p.run c
  match r.outcome with
  | none => ⟨none, r.misses⟩
  | some (a, c') =>
    let r' := (f a).run c'
    ⟨r'.outcome, r.misses.join r'.misses⟩⟩

instance : Monad Parser where
  pure := Parser.pure
  bind := Parser.bind

/-- Runs `p`, and `q` at the same place if `p` fails. -/
protected def orElse (p : Parser α) (q : Unit → Parser α) : Parser α := ⟨fun c =>
  let r := p.run c
  match r.outcome with
  | some _ => r
  | none =>
    let r' := (q ()).run c
    ⟨r'.outcome, r.misses.join r'.misses⟩⟩

/-- Fails without wanting anything. -/
protected def failure : Parser α := ⟨fun _ => ⟨none, .none⟩⟩

instance : Alternative Parser where
  failure := Parser.failure
  orElse := Parser.orElse

/-- Fails and wants `e`. -/
def miss (e : Expected) : Parser α := ⟨fun c => ⟨none, ⟨c.offset, [e]⟩⟩⟩

/-- Takes the value of `p` as far as `f` accepts it; otherwise wants `e` at the place where `p` began. -/
def accept (p : Parser α) (f : α → Option β) (e : Expected) : Parser β := ⟨fun c =>
  let r := p.run c
  match r.outcome with
  | none => ⟨none, r.misses⟩
  | some (a, c') =>
    match f a with
    | some b => ⟨some (b, c'), r.misses⟩
    | none => ⟨none, r.misses.join ⟨c.offset, [e]⟩⟩⟩

/-! ## Characters -/

/-- Reads the given characters. -/
def token (text : String) : Parser Unit := ⟨fun c =>
  match c.strip? text.toList with
  | some c' => ⟨some ((), c'), .none⟩
  | none => (miss (.token text)).run c⟩

/-- Reads a character that satisfies `p`, described by `e`. -/
def charWhere (p : Char → Bool) (e : Expected) : Parser Char := ⟨fun c =>
  match c.rest with
  | x :: xs => if p x then ⟨some (x, ⟨c.offset + x.utf8Size, xs⟩), .none⟩ else (miss e).run c
  | [] => (miss e).run c⟩

/-- Skips all characters that satisfy `p`, and wants none of them. -/
def skipWhile (p : Char → Bool) : Parser Unit := ⟨fun c =>
  ⟨some ((), .skipWhile p c.offset c.rest), .none⟩⟩

/-! ## Repetition -/

/-- Runs `p` up to `n` times, until it fails. -/
def upTo (p : Parser α) : Nat → Parser (List α)
  | 0 => pure []
  | n + 1 => (do
      let a ← p
      let as ← upTo p n
      pure (a :: as)) <|> pure []

/-- Goes on with `many`, after the values `done`, last first, with the misses `m`.  Each round but the last
    moves forward, so there are no more of them than characters in `room`, the text in the beginning. -/
def manyFrom (p : Parser α) (done : List α) (m : Misses) (room : List Char) (c : Cursor) :
    Reading (List α) :=
  let r := p.run c
  match r.outcome with
  | none => ⟨some (done.reverse, c), m.join r.misses⟩
  | some (a, c') =>
    match room with
    | [] => ⟨some ((a :: done).reverse, c'), m.join r.misses⟩
    | _ :: room => manyFrom p (a :: done) (m.join r.misses) room c'

/-- Runs `p` until it fails.  It must move forward when it succeeds. -/
def many (p : Parser α) : Parser (List α) := ⟨fun c => manyFrom p [] .none c.rest c⟩

end Parser
end RegexNotation
