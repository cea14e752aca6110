/-
  Backtracking.

  Whatever has been read before, and wherever it stands:

  * `productions_backtrack`: each production ends with what its parser reads.  If this is nothing, the position is
    where it was; otherwise it is further on.  The depth is what it was, and the furthest miss stays or moves on;
  * the loops of sets, concatenations and alternations end.  They need no more rounds than there are characters, and
    one more.
-/
import RegexNotation.Proofs.Scan.Productions

namespace RegexNotation.Scan

variable {α β : Type} {text : List Char} {s : State}

/-- Where a character begins or the text ends there is a place of the text. -/
theorem exists_at (hs : Boundary text s.pos) : ∃ l, s.At text s.depth ⟨s.pos, l⟩ := by
  obtain ⟨l, hl⟩ := hs
  obtain ⟨x, hx, ho⟩ := tailAt?_eq_some_iff.1 hl
  exact ⟨l, ⟨x, hx, by rw [Nat.zero_add]; exact ho⟩, rfl, rfl⟩

/-- What is left when a production began at `s` and gave `r`: with a value the position has moved on, and without
    one it is where it was.  The depth is the same, and the furthest miss has not moved back. -/
structure Leaves (text : List Char) (s : State) (r : Option α) (s' : State) : Prop where
  depth : s'.depth = s.depth
  furthest : s.furthest ≤ s'.furthest
  boundary : Boundary text s'.pos
  pos_eq : r = none → s'.pos = s.pos
  pos_lt : r ≠ none → s.pos < s'.pos

/-- Begun at `s`, the program ends: with what the parser reads there, and where the parser stops, or with nothing. -/
def Backtracks (text : List Char) (s : State) (p : Scan (Option α)) (q : Parser α) : Prop :=
  ∃ l r s', tailAt? s.pos text = some l ∧ p text s = some (r, s') ∧ Leaves text s r s' ∧
    r.map (·, s'.pos) = (q.run ⟨s.pos, l⟩).outcome.map fun x => (x.1, x.2.offset)

/-- Begun at `s`, the loop ends, and has not moved back.  It takes as many rounds as there are characters left, and
    one more, or less. -/
def Ends (text : List Char) (s : State) (p : Scan (Option α)) (f : β → α → β) : Prop :=
  ∃ l, tailAt? s.pos text = some l ∧ ∀ n b, l.length < n → ∃ b' s', loop p f n b text s = some (b', s') ∧
    s'.depth = s.depth ∧ s.furthest ≤ s'.furthest ∧ s.pos ≤ s'.pos

theorem State.Adds.furthest_le {m : Misses} {s' : State} (h : s.Adds text m s') : s.furthest ≤ s'.furthest := by
  rw [h.furthest]
  exact Nat.le_max_left ..

theorem Follows.backtracks {p : Scan (Option α)} {q : Parser α} (h : Follows text s.depth p q) (hq : q.Advances)
    (hs : Boundary text s.pos) : Backtracks text s p q := by
  obtain ⟨l, hat⟩ := exists_at hs
  obtain ⟨s', hrun, hat', hadds⟩ := h _ hat.on s hat
  have hboundary : Boundary text s'.pos := by
    rw [hat'.pos]
    exact hat'.on.boundary
  refine ⟨l, _, s', hat.on.tailAt?, hrun, ?_⟩
  rcases ho : (q.run ⟨s.pos, l⟩).outcome with _ | ⟨a, c'⟩
  · have hpos : s'.pos = s.pos := by
      rw [hat'.pos, ho]
      rfl
    exact ⟨⟨hat'.depth, hadds.furthest_le, hboundary, fun _ => hpos, fun hne => absurd rfl hne⟩, rfl⟩
  · have hpos : s'.pos = c'.offset := by
      rw [hat'.pos, ho]
      rfl
    have hlt : s.pos < s'.pos := by
      obtain ⟨x, t, ht⟩ := hq _ a c' ho
      rw [hpos]
      exact ht.lt
    refine ⟨⟨hat'.depth, hadds.furthest_le, hboundary, ?_, fun _ => hlt⟩, ?_⟩
    · rintro ⟨⟩
    · simp [hpos]

theorem Follows.ends {p : Scan (Option α)} {q : Parser α} (h : Follows text s.depth p q) (hq : q.Advances)
    (hs : Boundary text s.pos) (f : β → α → β) : Ends text s p f := by
  obtain ⟨l, hat⟩ := exists_at hs
  refine ⟨l, hat.on.tailAt?, fun n b hn => ?_⟩
  obtain ⟨as, c', m, hmany, hloop⟩ := h.exists_gives_loop hq f hat.on hn b
  obtain ⟨s', hrun, hat', hadds⟩ := hloop s hat
  refine ⟨_, s', hrun, hat'.depth, hadds.furthest_le, ?_⟩
  obtain ⟨t, ht⟩ := hq.many _ as c' (by rw [hmany])
  rw [hat'.pos]
  exact ht.le

/-- **Backtracking leaves no trace, and success makes progress.** -/
theorem productions_backtrack (hs : Boundary text s.pos) (hd : s.depth ≤ maxNesting) :
    (Backtracks text s (repetition (nested maxNesting)) (Parser.repetition (Parser.inside (maxNesting - s.depth))) ∧
      Backtracks text s braces Parser.bounds ∧
      Backtracks text s (atom (nested maxNesting)) (Parser.atom (Parser.inside (maxNesting - s.depth))) ∧
      (∀ kind, Backtracks text s (group (nested maxNesting) kind)
        (Parser.group (Parser.inside (maxNesting - s.depth)) kind)) ∧
      Backtracks text s set Parser.set ∧ Backtracks text s setItem Parser.setItem ∧
      Backtracks text s setLetter Parser.setLetter ∧ Backtracks text s literal Parser.literal ∧
      Backtracks text s number Parser.bound) ∧
    Ends text s (bar (nested maxNesting)) Regex.alt ∧ Ends text s (repetition (nested maxNesting)) Regex.cat ∧
      Ends text s setItem fun items item => items ++ [item] := by
  have hi : ReadsGroups text s.depth (nested maxNesting) := readsGroups_nested hd (Nat.le_add_left ..)
  have hc := Parser.consumes_inside (maxNesting - s.depth)
  refine ⟨⟨?_, ?_, ?_, ?_, ?_, ?_, ?_, ?_, ?_⟩, ?_, ?_, ?_⟩
  · exact (follows_repetition hi).backtracks (Parser.advances_repetition hc) hs
  · exact follows_braces.backtracks Parser.advances_bounds hs
  · exact (follows_atom hi).backtracks (Parser.advances_atom hc) hs
  · exact fun kind => (follows_group hi kind).backtracks (Parser.advances_group hc kind) hs
  · exact follows_set.backtracks Parser.advances_set hs
  · exact follows_setItem.backtracks Parser.advances_setItem hs
  · exact follows_setLetter.backtracks Parser.advances_setLetter hs
  · exact follows_literal.backtracks Parser.advances_literal hs
  · exact follows_number.backtracks Parser.advances_bound hs
  · exact (follows_bar hi).ends (Parser.advances_bar hc) hs _
  · exact (follows_repetition hi).ends (Parser.advances_repetition hc) hs _
  · exact follows_setItem.ends Parser.advances_setItem hs _

theorem productions_backtrack_at :
    Boundary "é(a)".toList 2 ∧ 256 ≤ maxNesting ∧
      ∃ s', group (nested maxNesting) .capture "é(a)".toList ⟨2, 256, 7, [.digit], []⟩ = some (none, s') ∧
        s'.pos = 2 ∧ s'.depth = 256 ∧ 7 ≤ s'.furthest := by
  have hs : Boundary "é(a)".toList 2 := ⟨"(a)".toList, by decide⟩
  have hd : 256 ≤ maxNesting := by decide
  obtain ⟨⟨-, -, -, hgroup, -⟩, -⟩ := productions_backtrack (s := ⟨2, 256, 7, [.digit], []⟩) hs hd
  obtain ⟨l, r, s', hl, hrun, hleaves, hr⟩ := hgroup .capture
  obtain rfl : "(a)".toList = l := Option.some.inj ((by decide : _ = some "(a)".toList).symm.trans hl)
  have hnone : ((Parser.group (Parser.inside (maxNesting - 256)) .capture).run ⟨2, "(a)".toList⟩).outcome = none := by
    decide
  rw [hnone] at hr
  obtain rfl : r = none := Option.map_eq_none_iff.1 hr
  exact ⟨hs, hd, s', hrun, hleaves.pos_eq rfl, hleaves.depth, hleaves.furthest⟩

end RegexNotation.Scan
