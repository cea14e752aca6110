/-
  Commands over named registers that hold code sets.

  A command stores the value of a source in a register, or asks a question.  A register that was never set
  holds the empty set.  A source that fails stores nothing, and the reply says why (`Session.run`).
-/
import RegexNotation.Regex.Meaning
import RegexNotation.Regex.OfCodeSet
import RegexNotation.Regex.Reread

namespace RegexNotation

/-- Why a pattern gives no set: it cannot be read, or it stands for no set. -/
inductive PatternError where
  | parse (e : ParseError)
  | meaning (e : MeaningError)
deriving DecidableEq

/-- The set that a pattern stands for. -/
def CodeSet.ofPattern (text : String) : Except PatternError CodeSet :=
  match Regex.parse text with
  | .error e => .error (.parse e)
  | .ok e => e.codes.mapError .meaning

namespace Session

/-- Registers by name, the one set last in front. -/
abbrev Registers : Type := List (String × CodeSet)

/-- The set in a register. -/
def Registers.get (r : Registers) (name : String) : CodeSet := (r.lookup name).getD .empty

/-- Puts a set into a register. -/
def Registers.put (r : Registers) (name : String) (s : CodeSet) : Registers :=
  (name, s) :: r.filter (·.1 ≠ name)

/-- Where a stored set comes from.  Sets are read from the registers that are named. -/
inductive Source where
  | spans (l : List Span)
  | char (c : Char)
  | all
  | empty
  | named (letter : Char)
  | pattern (text : String)
  | union (a b : String)
  | inter (a b : String)
  | diff (a b : String)
  | compl (a : String)
  /-- The set that the text of the set in a register stands for. -/
  | reload (a : String)

/-- What can be asked about registers. -/
inductive Question where
  | includes (a b : String)
  | equal (a b : String)
  | contains (a : String) (code : UInt32)
  | parts (a : String)
  /-- The text of a pattern for the set. -/
  | text (a : String)

inductive Command where
  | store (source : Source) (target : String)
  | ask (q : Question)

inductive Reply where
  | stored (s : CodeSet)
  /-- No set has the name. -/
  | unknownName
  | failed (e : PatternError)
  | truth (b : Bool)
  | parts (l : List Part)
  | text (t : String)

/-- The set of a source, or the reply that says why there is none. -/
def Source.value (r : Registers) : Source → Except Reply CodeSet
  | spans l => .ok (.ofSpans l)
  | char c => .ok (.single c.val)
  | all => .ok .all
  | empty => .ok .empty
  | named letter =>
    match NamedSet.find? letter with
    | some s => .ok s
    | none => .error .unknownName
  | pattern text => (CodeSet.ofPattern text).mapError .failed
  | union a b => .ok ((r.get a).union (r.get b))
  | inter a b => .ok ((r.get a).inter (r.get b))
  | diff a b => .ok ((r.get a).diff (r.get b))
  | compl a => .ok (r.get a).compl
  | reload a => (CodeSet.ofPattern (Regex.ofCodeSet (r.get a)).print).mapError .failed

/-- The answer to a question. -/
def Question.answer (r : Registers) : Question → Reply
  | includes a b => .truth ((r.get a).includes (r.get b))
  | equal a b => .truth (r.get a = r.get b)
  | contains a code => .truth ((r.get a).contains code)
  | parts a => .parts (r.get a).parts
  | text a => .text (Regex.ofCodeSet (r.get a)).print

/-- Carries out one command. -/
def step (r : Registers) : Command → Registers × Reply
  | .store source target =>
    match source.value r with
    | .ok s => (r.put target s, .stored s)
    | .error reply => (r, reply)
  | .ask q => (r, q.answer r)

/-- The replies to commands that are carried out one after the other, starting with the given registers. -/
def runFrom (r : Registers) : List Command → List Reply
  | [] => []
  | c :: cs =>
    let (r, reply) := step r c
    reply :: runFrom r cs

/-- The replies to commands on empty registers. -/
def run (cs : List Command) : List Reply := runFrom [] cs

end Session
end RegexNotation
