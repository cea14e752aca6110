/-
  Positions and errors.

  * `exists_parse`: on every text the program ends, and gives what `Regex.parse` gives;
  * `Regex.positions_valid`: all positions of this run, and all places where something was furthest missed, are recorded,
    and are places between the characters of the text; and if the text is rejected, the error is behind the place where
    reading stopped, and describes something, in the order of the bytes.
-/
import RegexNotation.Proofs.ByteOrder
import RegexNotation.Proofs.Scan.Productions

namespace RegexNotation

open Cursor (utf8Length)

theorem Boundary.le {text : List Char} {n : Nat} (h : Boundary text n) : n ≤ utf8Length text := by
  obtain ⟨r, hr⟩ := h
  obtain ⟨x, rfl, rfl⟩ := tailAt?_eq_some_iff.1 hr
  rw [Cursor.utf8Length_append]
  exact Nat.le_add_right ..

namespace Scan

variable {text : List Char} {s : State} {m : Misses}

/-! ## Whole runs -/

theorem State.start_at (text : List Char) : State.start.At text 0 ⟨0, text⟩ := ⟨⟨[], .refl _⟩, rfl, rfl⟩

theorem State.misses_start : State.start.misses = .none := rfl

/-- Whatever is remembered in the end has been missed on the way. -/
theorem State.Adds.mem_expected (h : State.start.Adds text m s) (e : Expected) : e ∈ s.expected ↔ e ∈ m.wanted := by
  rw [h.expected, State.misses_start, Misses.none_join]

theorem State.Adds.sorted_expected (h : State.start.Adds text m s) : Expected.Sorted s.expected := h.sorted .nil

theorem State.Adds.furthest_eq (h : State.start.Adds text m s) : s.furthest = m.offset := by
  rw [h.furthest]
  exact Nat.max_eq_right (Nat.zero_le _)

/-- Wherever the run has been is a place of the text. -/
theorem State.Adds.boundary_of_mem (h : State.start.Adds text m s) :
    ∀ k ∈ s.trail, Boundary text k.1 ∧ Boundary text k.2 := by
  have hstart : Boundary text 0 := (State.start_at text).on.boundary
  intro k hk
  rcases h.trail k hk with hk | ⟨h1, h2 | h2⟩
  · obtain rfl := List.mem_singleton.1 hk
    exact ⟨hstart, hstart⟩
  · rw [h2]
    exact ⟨h1, hstart⟩
  · exact ⟨h1, h2⟩

/-- The error that the state has in the end is the error of what has been missed. -/
theorem error_eq_ofMisses {c : Cursor} (hs : s.At text 0 c) (h : State.start.Adds text m s) :
    (s.miss .endOfInput).error = .ofMisses c.offset m := by
  have hadds := h.trans (hs.adds_miss .endOfInput)
  have hpos : (s.miss .endOfInput).pos = c.offset := (s.pos_miss _).trans hs.pos
  -- sorted texts without repetition are determined by which ones they are
  have hexpected : (s.miss .endOfInput).expected =
      (m.join ⟨c.offset, [.endOfInput]⟩).wanted.foldr Expected.insert [] :=
    hadds.sorted_expected.eq_of_mem_iff (Expected.sorted_foldr_insert _) fun e => by
      rw [hadds.mem_expected, Expected.mem_foldr_insert]
  have hle : c.offset ≤ (m.join ⟨c.offset, [.endOfInput]⟩).offset := by
    rw [Misses.offset_join]
    exact Nat.le_max_right ..
  rw [State.error, hpos, hadds.furthest_eq, hexpected]
  simp only [ParseError.ofMisses]
  split
  · rfl
  · next hlt => exact congrArg (ParseError.mk _ · _) (Nat.le_antisymm hle (Nat.not_lt.1 hlt))

/-- **On every text the program ends, and gives what the text is read as.** -/
theorem exists_parse (text : String) : ∃ s e l m m', parse text.toList .start = some (Regex.parse text, s) ∧
    Parser.pattern.run (.start text) = ⟨some (e, ⟨s.pos, l⟩), m⟩ ∧ State.start.Adds text.toList m' s := by
  have hstart := State.start_at text.toList
  obtain ⟨e, ⟨o, l⟩, m, hrun, hgives⟩ := always_pattern _ hstart.on
  obtain ⟨s, hpattern, hat, hadds⟩ := hgives _ hstart
  obtain rfl : s.pos = o := hat.pos
  have hread : Parser.pattern.run (.start text) = ⟨some (e, ⟨s.pos, l⟩), m⟩ := hrun
  obtain ⟨x, hx, ho⟩ := hat.on
  rw [Nat.zero_add] at ho
  have hend : s.pos = utf8Length text.toList ↔ l = [] := by
    rw [show text.toList = x ++ l from hx, Cursor.utf8Length_append, show s.pos = utf8Length x from ho]
    constructor
    · exact fun h => Cursor.utf8Length_eq_zero (by omega)
    · rintro rfl
      rfl
  have hparse : parse text.toList .start = if s.pos = utf8Length text.toList then some (.ok e, s)
      else some (.error (s.miss .endOfInput).error, s.miss .endOfInput) := by
    show (pattern text.toList .start).bind _ = _
    rw [hpattern]
    rfl
  rcases l with _ | ⟨y, l⟩
  · refine ⟨s, e, [], m, m, ?_, hread, hadds⟩
    rw [hparse, if_pos (hend.2 rfl), Regex.parse, hread]
  · refine ⟨s.miss .endOfInput, e, y :: l, m, _, ?_, by rwa [s.pos_miss], hadds.trans (hat.adds_miss _)⟩
    rw [hparse, if_neg (mt hend.1 (List.cons_ne_nil y l)), error_eq_ofMisses hat hadds, Regex.parse, hread]

end Scan

/-! ## Errors -/

namespace Regex

variable {x w : List Char} {e : Regex} {stop : Cursor} {m : Misses}

/-- That the text ends is never missed within a pattern. -/
theorem Rejected.endOfInput_mem_iff (h : Rejected x w e stop m) :
    .endOfInput ∈ (ParseError.ofMisses stop.offset m).expected ↔
      (ParseError.ofMisses stop.offset m).kind = .trailingInput := by
  have hwanted : .endOfInput ∉ m.wanted := by
    intro hm
    rcases (h.resumes _ hm).1 with ⟨t, u, ht, -⟩ | hx
    · exact ht
    · exact hx .plain (.inr rfl)
  rw [ParseError.mem_expected_ofMisses h.stop_le, ParseError.kind_ofMisses h.stop_le]
  split
  · next heq => exact iff_of_true (.inr ⟨rfl, heq⟩) rfl
  · next hne => exact iff_of_false (fun hm => hm.elim hwanted fun hm => hne hm.2) (by simp)

/-- **Positions are always valid, and errors are well formed.**  Each state on the way is recorded. -/
theorem positions_valid (text : String) : ∃ s, Scan.parse text.toList .start = some (parse text, s) ∧
    (Scan.State.start.Steps s ∧
      ∀ t, Scan.State.start.Steps t → t.Steps s → (t.pos, t.furthest) ∈ s.trail) ∧
    (∀ k ∈ s.trail, (k.1 ≤ utf8Length text.toList ∧ Boundary text.toList k.1) ∧
      k.2 ≤ utf8Length text.toList ∧ Boundary text.toList k.2) ∧
    ∀ err, parse text = .error err →
      (∃ x w, text.toList = x ++ w ∧ err.offset = utf8Length x) ∧
      (∃ e l, (Parser.pattern.run (.start text)).outcome = some (e, ⟨s.pos, l⟩)) ∧ s.pos ≤ err.offset ∧
      err.expected ≠ [] ∧ err.expected.Pairwise (Text.bytes ·.text < Text.bytes ·.text) ∧
      (.endOfInput ∈ err.expected ↔ err.kind = .trailingInput) := by
  obtain ⟨s, e, l, m, m', hparse, hrun, hadds⟩ := Scan.exists_parse text
  refine ⟨s, hparse, ⟨hadds.steps, fun t ht hs => ht.mem_trail hs Scan.State.recorded_start⟩, fun k hk => ?_,
    fun err herr => ?_⟩
  · obtain ⟨h1, h2⟩ := hadds.boundary_of_mem k hk
    exact ⟨⟨h1.le, h1⟩, h2.le, h2⟩
  · obtain ⟨x, w, e', stop, m'', ht, hr, rfl⟩ := exists_rejected herr
    have hstop : stop = ⟨s.pos, l⟩ := by
      have hrun' := hr.run
      rw [← ht, show Parser.pattern.run ⟨0, text.toList⟩ = _ from hrun] at hrun'
      exact (Prod.mk.inj (Option.some.inj (Reading.mk.inj hrun').1)).2.symm
    have hoffset := ParseError.offset_ofMisses hr.stop_le
    have hle := hr.stop_le
    refine ⟨⟨x, w, ht, hoffset.trans hr.offset⟩, ⟨e, l, by rw [hrun]⟩, ?_, hr.expected_ne_nil, ?_,
      hr.endOfInput_mem_iff⟩
    · rw [hoffset]
      rwa [hstop] at hle
    · exact (Expected.sorted_foldr_insert _).imp Text.bytes_lt

end Regex
end RegexNotation
