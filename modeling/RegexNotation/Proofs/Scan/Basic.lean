/-
  Reading a pattern with one position that moves.

  A `Scan` is a program on a `State`: the position in the text, the number of groups that are open there, and the
  furthest place where something was missed, with what was wanted there.  A production that fails may have moved the
  position, and moves it back; `bounds`, `numbered`, `braced` and `rangeEnd` do not, and leave that to whoever calls
  them.

  A program gives nothing if it reads at a byte where no character begins, or if a loop or the nesting of groups does
  not end within the rounds that it is given.  For the record only, a state also holds each position so far and where
  the furthest miss was by then.
-/
import RegexNotation.Parser.Error
import RegexNotation.Parser.Lemmas

namespace RegexNotation

open Cursor (utf8Length)

/-- The state of a run. -/
structure Scan.State where
  pos : Nat
  depth : Nat
  /-- The furthest place where something was missed. -/
  furthest : Nat
  /-- What was wanted there, sorted by text. -/
  expected : List Expected
  /-- All values of `pos` and `furthest` so far, the last ones first. -/
  trail : List (Nat × Nat)

/-- A program that reads a text and moves through it. -/
abbrev Scan := ReaderT (List Char) (StateT Scan.State Option)

/-- The text behind the byte `n`, if a character begins or the text ends there. -/
def tailAt? : Nat → List Char → Option (List Char)
  | 0, l => some l
  | _ + 1, [] => none
  | n + 1, c :: l => if c.utf8Size ≤ n + 1 then tailAt? (n + 1 - c.utf8Size) l else none

namespace Scan

variable {α β : Type}

/-! ## Moving and missing -/

namespace State

/-- The state in the beginning. -/
def start : State := ⟨0, 0, 0, [], [(0, 0)]⟩

/-- Records where the state is. -/
def mark (s : State) : State := { s with trail := (s.pos, s.furthest) :: s.trail }

/-- Remembers that `e` was wanted, unless something was missed further on. -/
def miss (e : Expected) (s : State) : State :=
  let s := if s.furthest < s.pos then { s with furthest := s.pos, expected := [] }.mark else s
  if s.pos = s.furthest then { s with expected := e.insert s.expected } else s

/-- The error, at a state that does not go on. -/
def error (s : State) : ParseError :=
  if s.pos < s.furthest then ⟨.noAlternative, s.furthest, s.expected⟩ else ⟨.trailingInput, s.pos, s.expected⟩

end State

/-- Gives nothing. -/
def stuck : Scan α := fun _ _ => none

def position : Scan Nat := fun _ s => some (s.pos, s)

def depth : Scan Nat := fun _ s => some (s.depth, s)

/-- The text from the position on. -/
def rest : Scan (List Char) := fun text s => (tailAt? s.pos text).map fun l => (l, s)

def moveTo (n : Nat) : Scan Unit := fun _ s => some ((), { s with pos := n }.mark)

/-- Moves over `n` bytes. -/
def advance (n : Nat) : Scan Unit := do moveTo ((← position) + n)

def fail (e : Expected) : Scan Unit := fun _ s => some ((), s.miss e)

/-- Runs `p` one group deeper. -/
def deeper (p : Scan α) : Scan α := fun text s => do
  let (a, s) ← p text { s with depth := s.depth + 1 }
  return (a, { s with depth := s.depth - 1 })

/-- The next character. -/
def peek : Scan (Option Char) := do return (← rest).head?

/-- Reads the given characters, and says whether they come next. -/
def eat (text : String) : Scan Bool := do
  if text.toList.isPrefixOf (← rest) then
    advance (utf8Length text.toList)
    return true
  else
    fail (.token text)
    return false

/-- Reads a character that satisfies `f`, described by `e`. -/
def eatIf (f : Char → Bool) (e : Expected) : Scan (Option Char) := do
  match (← peek).filter f with
  | some c =>
    advance c.utf8Size
    return some c
  | none =>
    fail e
    return none

/-- Runs `p` until it gives nothing, and collects its values with `f`, in at most `n` rounds. -/
def loop (p : Scan (Option α)) (f : β → α → β) : Nat → β → Scan β
  | 0, _ => stuck
  | n + 1, b => do
    match ← p with
    | some a => loop p f n (f b a)
    | none => return b

/-- Runs `p` until it gives nothing: one round for each character of the text, and one more. -/
def collect (p : Scan (Option α)) (f : β → α → β) (b : β) : Scan β := fun text => loop p f (text.length + 1) b text

/-- All values of `p` until it gives nothing. -/
def list (p : Scan (Option α)) : Scan (List α) := collect p (fun as a => as ++ [a]) []

/-- Moves over one blank. -/
def blank : Scan (Option Unit) := do
  match (← peek).filter Text.isBlank with
  | some c =>
    advance c.utf8Size
    return some ()
  | none => return none

def blanks : Scan Unit := collect blank (fun _ _ => ()) ()

/-! ## Characters and sets -/

/-- Up to `n` hexadecimal digits, behind `ds`. -/
def hexRun : Nat → List Char → Scan (List Char)
  | 0, ds => return ds
  | n + 1, ds => do
    match ← eatIf Hex.isDigit .hexDigit with
    | some d => hexRun n (ds ++ [d])
    | none => return ds

/-- From `lo` to `hi` hexadecimal digits. -/
def hexDigits (lo hi : Nat) : Scan (Option String) := do
  let ds ← hexRun hi []
  if ds.length < lo then return none else return some (.ofList ds)

/-- `lead` and `n` hexadecimal digits. -/
def numbered (lead : String) (n : Nat) : Scan (Option String) := do
  if ← eat lead then hexDigits n n else return none

/-- Up to six hexadecimal digits in braces behind `u`. -/
def braced : Scan (Option String) := do
  if ← eat "u\x7b" then
    match ← hexDigits 1 6 with
    | some ds => if ← eat "\x7d" then return some ds else return none
    | none => return none
  else return none

/-- One character. -/
def literal : Scan (Option Literal) := do
  match ← eatIf (!Alphabet.isReserved ·) .literal with
  | some c => return some (.plain c)
  | none =>
    let start ← position
    if ← eat "\\" then
      match ← eatIf Alphabet.isEscapable .escapable with
      | some c => return some (.escaped c)
      | none =>
        match ← eatIf Alphabet.isControlLetter .controlLetter with
        | some c => return some (.control c)
        | none =>
          let escape ← position
          match ← numbered "u" 4 with
          | some ds => return some (.hex4 ds)
          | none =>
            moveTo escape
            match ← numbered "x" 2 with
            | some ds => return some (.hex2 ds)
            | none =>
              moveTo escape
              match ← braced with
              | some ds => return some (.hexBraced ds)
              | none =>
                moveTo start
                return none
    else return none

/-- A backslash and the letter of a named set. -/
def setLetter : Scan (Option Char) := do
  let start ← position
  if ← eat "\\" then
    match ← eatIf NamedSet.isName .setLetter with
    | some l => return some l
    | none =>
      moveTo start
      return none
  else return none

/-- The second bound of a range. -/
def rangeEnd : Scan (Option Literal) := do
  if ← eat "-" then literal else return none

/-- An item between the brackets of a set. -/
def setItem : Scan (Option SetItem) := do
  match ← setLetter with
  | some l => return some (.named l)
  | none =>
    match ← literal with
    | some a =>
      let behind ← position
      match ← rangeEnd with
      | some b => return some (.range a b)
      | none =>
        moveTo behind
        return some (.single a)
    | none => return none

/-- A set in brackets. -/
def set : Scan (Option Regex) := do
  let start ← position
  if ← eat "[" then
    let negated ← eat "^"
    let items ← list setItem
    if ← eat "]" then return some (.set negated items)
    else
      moveTo start
      return none
  else return none

/-! ## Quantifiers -/

/-- A number that fits into 32 bits. -/
def number : Scan (Option UInt32) := do
  let start ← position
  let ds ← list (eatIf Char.isDigit .digit)
  if ds = [] then return none
  else
    match Parser.boundOfDigits ds with
    | some n => return some n
    | none =>
      moveTo start
      fail .number
      return none

/-- What may follow the first bound `n`, a comma and blanks. -/
def secondBound (n : UInt32) : Scan (Option Quantifier) := do
  match (← peek).filter Char.isDigit with
  | some _ =>
    match ← number with
    | some m => return some (.between n m)
    | none => return none
  | none =>
    fail .digit
    return some (.atLeast n)

/-- What may follow the first bound `n`. -/
def boundsFrom (n : UInt32) : Scan (Option Quantifier) := do
  if ← eat "," then
    blanks
    secondBound n
  else return some (.exactly n)

/-- Bounds in braces. -/
def bounds : Scan (Option Quantifier) := do
  if ← eat "\x7b" then
    blanks
    match ← number with
    | some n =>
      blanks
      match ← boundsFrom n with
      | some q =>
        blanks
        if ← eat "\x7d" then return some q else return none
      | none => return none
    | none => return none
  else return none

/-- A quantifier in braces. -/
def braces : Scan (Option Quantifier) := do
  let start ← position
  match ← bounds with
  | some q => return some q
  | none =>
    moveTo start
    return none

/-! ## Patterns -/

section
variable (inside : Scan Regex)

/-- A group of one kind. -/
def group (kind : GroupKind) : Scan (Option Regex) := do
  let start ← position
  if ← eat (.ofList kind.opening) then
    if (← depth) = maxNesting then
      fail (.shallowGroup maxNesting)
      moveTo start
      return none
    else
      let e ← deeper inside
      if ← eat ")" then return some (.group kind e)
      else
        moveTo start
        return none
  else return none

/-- An expression that a quantifier can follow. -/
def atom : Scan (Option Regex) := do
  match ← group inside .plain with
  | some e => return some e
  | none =>
    match ← group inside .capture with
    | some e => return some e
    | none =>
      if ← eat "." then return some .any
      else if ← eat "$0" then return some .never
      else if ← eat "$e" then return some .empty
      else
        match ← set with
        | some e => return some e
        | none =>
          match ← setLetter with
          | some l => return some (.named l)
          | none =>
            match ← literal with
            | some c => return some (.literal c)
            | none => return none

/-- An atom with at most one quantifier. -/
def repetition : Scan (Option Regex) := do
  match ← atom inside with
  | some e =>
    if ← eat "*" then return some (.quantified e .star)
    else if ← eat "+" then return some (.quantified e .plus)
    else if ← eat "?" then return some (.quantified e .opt)
    else
      match ← braces with
      | some q => return some (.quantified e q)
      | none => return some e
  | none => return none

/-- Any number of repetitions. -/
def concatenation : Scan Regex := do
  match ← repetition inside with
  | some e => collect (repetition inside) .cat e
  | none => return .blank

/-- A concatenation behind a bar. -/
def bar : Scan (Option Regex) := do
  if ← eat "|" then return some (← concatenation inside) else return none

/-- Concatenations between bars. -/
def alternation : Scan Regex := do
  let e ← concatenation inside
  collect (bar inside) .alt e

end

/-- The inside of a group, with at most `n - 1` more groups within each other. -/
def nested : Nat → Scan Regex
  | 0 => stuck
  | n + 1 => alternation (nested n)

/-- A pattern. -/
def pattern : Scan Regex := alternation (nested maxNesting)

/-- Reads a whole text as a pattern. -/
def parse : Scan (Except ParseError Regex) := fun text s => do
  let (e, s) ← pattern text s
  if s.pos = utf8Length text then return (.ok e, s)
  else
    let s := s.miss .endOfInput
    return (.error s.error, s)

end Scan
end RegexNotation
