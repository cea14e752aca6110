/-
  Lists of spans and their normal form.

  A list of spans holds the code points of all its spans.  It is in normal form (`Normal`) when no span is
  reversed and each span ends with a true gap before the next one, so that the list is the only normal list
  that holds its code points.

  * `normalize` brings any list into normal form: it drops reversed spans, sorts the others and joins those
    between which no gap is left;
  * `union`, `inter` and `diff` walk two normal lists side by side, and so does the test `includes`.

  None of the walks wraps around the ends of the 32-bit range: gaps are measured in natural numbers, and
  spans are cut by `Span.before?` and `Span.after?`.
-/
import RegexNotation.Span

namespace RegexNotation.Spans

/-- The list holds `c`: one of its spans does. -/
def Holds (l : List Span) (c : UInt32) : Prop := ∃ s ∈ l, c ∈ s

instance (l : List Span) (c : UInt32) : Decidable (Holds l c) :=
  inferInstanceAs (Decidable (∃ s ∈ l, c ∈ s))

/-- At least one number lies strictly between `a` and `b`. -/
def Apart (a b : Span) : Prop := a.last.toNat + 1 < b.first.toNat

instance : DecidableRel Apart := fun a b =>
  inferInstanceAs (Decidable (a.last.toNat + 1 < b.first.toNat))

/-- No span is reversed, and each one ends with a gap before those behind it. -/
def Normal (l : List Span) : Prop := (∀ s ∈ l, s.first ≤ s.last) ∧ l.Pairwise Apart

instance (l : List Span) : Decidable (Normal l) :=
  inferInstanceAs (Decidable ((∀ s ∈ l, s.first ≤ s.last) ∧ l.Pairwise Apart))

/-! ## Joining sorted spans -/

/-- The order in which spans are swept: by their first bound. -/
def startsBefore (a b : Span) : Bool := a.first ≤ b.first

/-- Sweeps over sorted spans, growing `reach` by each span that leaves no gap behind it. -/
def sweep (reach : Span) : List Span → List Span
  | [] => [reach]
  | s :: l =>
    if s.first.toNat ≤ reach.last.toNat + 1 then sweep ⟨reach.first, max reach.last s.last⟩ l
    else reach :: sweep s l

/-- Joins the neighbours of a sorted list between which there is no gap. -/
def coalesce : List Span → List Span
  | [] => []
  | s :: l => sweep s l

/-- The normal form of any list of spans. -/
def normalize (l : List Span) : List Span :=
  coalesce ((l.filter fun s => s.first ≤ s.last).mergeSort startsBefore)

/-! ## Walks over two normal lists -/

/-- The code points of either list. -/
def union (as bs : List Span) : List Span := coalesce (as.merge bs startsBefore)

/-- The code points of both lists. -/
def inter : List Span → List Span → List Span
  | [], _ => []
  | _ :: _, [] => []
  | a :: as, b :: bs =>
    if a.last < b.first then inter as (b :: bs)
    else if b.last < a.first then inter (a :: as) bs
    else
      ⟨max a.first b.first, min a.last b.last⟩ ::
        (if a.last < b.last then inter as (b :: bs)
        else if b.last < a.last then inter (a :: as) bs
        else inter as bs)
termination_by as bs => as.length + bs.length

/-- The code points of the first list that are not in the second. -/
def diff : List Span → List Span → List Span
  | [], _ => []
  | a :: as, [] => a :: as
  | a :: as, b :: bs =>
    if b.last < a.first then diff (a :: as) bs
    else if a.last < b.first then a :: diff as (b :: bs)
    else
      (a.before? b).toList ++
        match a.after? b with
        | some rest => diff (rest :: as) bs
        | none => diff as (b :: bs)
termination_by as bs => as.length + bs.length

/-- Whether the first list holds every code point of the second. -/
def includes : List Span → List Span → Bool
  | _, [] => true
  | [], _ :: _ => false
  | a :: as, b :: bs =>
    if a.last < b.first then includes as (b :: bs)
    else if b.first < a.first then false
    else
      match b.after? a with
      | some rest => includes as (rest :: bs)
      | none => includes (a :: as) bs
termination_by as bs => as.length + bs.length

end RegexNotation.Spans
