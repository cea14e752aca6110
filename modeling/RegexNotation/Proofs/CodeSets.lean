/-
  What code sets hold.

  * `CodeSet.eq_of_mem_iff`: a set is determined by its members;
  * `NamedSet.le_maxCodePoint_of_mem`: the named sets lie in the Unicode range;
  * `CodeSet.Takes` is what can be said of the names that reduction takes and of what they leave over
    (`exists_takes`).  So the parts of a set hold its members (`mem_iff_mem_parts`), and put together they give the set
    again.
-/
import Mathlib.Data.List.Perm.Basic
import RegexNotation.CodeSet.Lemmas
import RegexNotation.CodeSet.Reduction

namespace RegexNotation

/-! ## Sets and their members -/

namespace Spans

variable {a b : Span} {as bs : List Span} {c : UInt32}

theorem first_le_of_holds (h : Normal (a :: as)) (hc : Holds (a :: as) c) : a.first ≤ c := by
  rcases holds_cons.1 hc with hc | hc
  · exact hc.1
  · have hlt := lt_of_holds h hc
    have hle := (normal_cons.1 h).1
    rw [UInt32.le_iff_toNat_le] at hle ⊢
    omega

theorem holds_first (h : Normal (a :: as)) : Holds (a :: as) a.first :=
  holds_cons.2 (.inl ⟨UInt32.le_refl _, (normal_cons.1 h).1⟩)

/-- The first span goes as far as the numbers are held. -/
theorem last_le_of_holds (ha : Normal (a :: as)) (hf : a.first = b.first)
    (h : ∀ c, Holds (b :: bs) c → Holds (a :: as) c) : b.last ≤ a.last := by
  rw [← UInt32.not_lt]
  intro hlt
  -- the number behind `a` is held by `b`, but lies in the gap behind `a`
  have hn : (a.last + 1).toNat = a.last.toNat + 1 := toNat_add_one_of_lt hlt
  rw [UInt32.lt_iff_toNat_lt] at hlt
  have hle := (normal_cons.1 ha).1
  rw [UInt32.le_iff_toNat_le] at hle
  have hmem : Holds (b :: bs) (a.last + 1) := by
    refine holds_cons.2 (.inl ?_)
    rw [Span.mem_iff_toNat, hn, ← hf]
    omega
  rcases holds_cons.1 (h _ hmem) with hc | hc
  · rw [Span.mem_iff_toNat, hn] at hc
    omega
  · have := lt_of_holds ha hc
    omega

theorem eq_head (ha : Normal (a :: as)) (hb : Normal (b :: bs))
    (h : ∀ c, Holds (a :: as) c ↔ Holds (b :: bs) c) : a = b := by
  have hf : a.first = b.first := UInt32.le_antisymm
    (first_le_of_holds ha ((h _).2 (holds_first hb))) (first_le_of_holds hb ((h _).1 (holds_first ha)))
  have hl : a.last = b.last := UInt32.le_antisymm
    (last_le_of_holds hb hf.symm fun c => (h c).1) (last_le_of_holds ha hf fun c => (h c).2)
  cases a
  cases b
  exact congr (congrArg Span.mk hf) hl

theorem holds_tail_iff (h : Normal (a :: as)) : Holds as c ↔ Holds (a :: as) c ∧ a.last < c := by
  rw [UInt32.lt_iff_toNat_lt]
  constructor
  · intro hc
    have := lt_of_holds h hc
    exact ⟨holds_cons.2 (.inr hc), by omega⟩
  · rintro ⟨hc, hlt⟩
    rcases holds_cons.1 hc with hc | hc
    · rw [Span.mem_iff_toNat] at hc
      omega
    · exact hc

/-- A normal list is the only one that holds its numbers. -/
theorem Normal.eq_of_holds_iff (ha : Normal as) (hb : Normal bs) (h : ∀ c, Holds as c ↔ Holds bs c) :
    as = bs := by
  induction as generalizing bs with
  | nil =>
    cases bs with
    | nil => rfl
    | cons b bs => exact absurd ((h _).2 (holds_first hb)) (not_holds_nil _)
  | cons a as ih =>
    cases bs with
    | nil => exact absurd ((h _).1 (holds_first ha)) (not_holds_nil _)
    | cons b bs =>
      obtain rfl := eq_head ha hb h
      rw [ih (normal_cons.1 ha).2.2 (normal_cons.1 hb).2.2 fun c => ?_]
      rw [holds_tail_iff ha, holds_tail_iff hb, h]

end Spans

/-- A set is determined by its members. -/
@[ext] theorem CodeSet.eq_of_mem_iff {s t : CodeSet} (h : ∀ c, c ∈ s ↔ c ∈ t) : s = t := by
  obtain ⟨⟨as⟩, ha⟩ := s
  obtain ⟨⟨bs⟩, hb⟩ := t
  obtain rfl : as = bs := Spans.Normal.eq_of_holds_iff ha hb h
  rfl

theorem CodeSet.isEmpty_iff {s : CodeSet} : s.isEmpty = true ↔ s = empty := by
  rw [isEmpty, Array.isEmpty_iff]
  constructor
  · intro h
    obtain ⟨spans, hs⟩ := s
    cases h
    rfl
  · rintro rfl
    rfl

theorem CodeSet.isEmpty_eq_false_iff {s : CodeSet} : s.isEmpty = false ↔ ∃ c, c ∈ s := by
  rw [← Bool.not_eq_true, isEmpty_iff]
  constructor
  · intro h
    refine Classical.byContradiction fun hn => h (eq_of_mem_iff fun c => ?_)
    exact iff_of_false (fun hc => hn ⟨c, hc⟩) not_mem_empty
  · rintro ⟨c, hc⟩ rfl
    exact not_mem_empty hc

theorem CodeSet.le_of_mem_ofSpans {l : List Span} {n c : UInt32} (h : ∀ r ∈ l, r.last ≤ n) (hc : c ∈ ofSpans l) :
    c ≤ n := by
  obtain ⟨r, hr, hc⟩ := mem_ofSpans.1 hc
  exact UInt32.le_trans hc.2 (h r hr)

/-! ## Named sets -/

theorem val_le_maxCodePoint (c : Char) : c.val ≤ maxCodePoint := by
  have h := c.valid
  rw [UInt32.le_iff_toNat_le]
  simp only [UInt32.isValidChar, Nat.isValidChar] at h
  show c.val.toNat ≤ 0x10FFFF
  omega

namespace NamedSet

/-- To put sets in order drops none of them. -/
theorem byInclusion_perm (l : List NamedSet) : (byInclusion l).Perm l := by
  fun_induction byInclusion l with
  | case1 l i _ ih => exact (ih.cons l[i]).trans (List.getElem_cons_eraseIdx_perm i.isLt)
  | case2 => exact .refl _

theorem mem_registry_of_mem_ordered {n : NamedSet} (h : n ∈ ordered) : n ∈ registry :=
  (byInclusion_perm registry).mem_iff.1 h

theorem find?_letter {n : NamedSet} (h : n ∈ registry) : find? n.letter = some n.codes := by
  simp only [registry, List.mem_cons, List.not_mem_nil, or_false] at h
  rcases h with rfl | rfl | rfl | rfl | rfl | rfl <;> rfl

theorem find?_eq_some_iff {letter : Char} {s : CodeSet} :
    find? letter = some s ↔ ∃ n ∈ registry, n.letter = letter ∧ n.codes = s := by
  constructor
  · intro h
    obtain ⟨n, hn, rfl⟩ := Option.map_eq_some_iff.1 h
    have hletter := List.find?_some hn
    exact ⟨n, List.mem_of_find?_eq_some hn, of_decide_eq_true hletter, rfl⟩
  · rintro ⟨n, hn, rfl, rfl⟩
    exact find?_letter hn

theorem find?_eq_none_iff {letter : Char} : find? letter = none ↔ ∀ n ∈ registry, n.letter ≠ letter := by
  rw [find?, Option.map_eq_none_iff, List.find?_eq_none]
  simp only [decide_eq_true_eq, ne_eq]

theorem le_maxCodePoint_of_mem_chars {l : List (Char × Char)} {c : UInt32}
    (h : c ∈ CodeSet.ofSpans (l.map fun (a, b) => charSpan a b)) : c ≤ maxCodePoint :=
  CodeSet.le_of_mem_ofSpans (List.forall_mem_map.2 fun (_, b) _ => val_le_maxCodePoint b) h

theorem le_maxCodePoint_of_mem {n : NamedSet} (h : n ∈ registry) {c : UInt32} (hc : c ∈ n.codes) :
    c ≤ maxCodePoint := by
  simp only [registry, List.mem_cons, List.not_mem_nil, or_false] at h
  rcases h with rfl | rfl | rfl | rfl | rfl | rfl
  · exact le_maxCodePoint_of_mem_chars (l := [(' ', ' '), ('\n', '\n'), ('\t', '\t'), ('\r', '\r')]) hc
  · exact (CodeSet.mem_compl.1 hc).1
  · exact le_maxCodePoint_of_mem_chars (l := [('a', 'z'), ('A', 'Z'), ('0', '9'), ('_', '_')]) hc
  · exact (CodeSet.mem_compl.1 hc).1
  · exact le_maxCodePoint_of_mem_chars (l := [('0', '9')]) hc
  · exact (CodeSet.mem_compl.1 hc).1

end NamedSet

/-! ## Reduction -/

namespace CodeSet

/-- Of the sets `ns`, reduction of `whole` takes `ts` when only `left` is still to be covered, and they leave over
    `rest`. -/
structure Takes (whole : CodeSet) (ns : List NamedSet) (left : CodeSet) (ts : List NamedSet) (rest : CodeSet) :
    Prop where
  sublist : ts.Sublist ns
  fits : ∀ n ∈ ts, ∀ c ∈ n.codes, c ∈ whole
  meets : ∀ n ∈ ts, ∃ c ∈ n.codes, c ∈ left
  /-- None of them lies in one that was taken before it. -/
  adds : ts.Pairwise fun n m => ∃ c ∈ m.codes, c ∉ n.codes
  mem_rest : ∀ c, c ∈ rest ↔ c ∈ left ∧ ∀ n ∈ ts, c ∉ n.codes
  /-- Nothing is left over of a set that could have been taken. -/
  exhausts : ∀ n ∈ ns, (∀ c ∈ n.codes, c ∈ whole) → ∀ c ∈ n.codes, c ∉ rest

variable {whole left rest : CodeSet} {n : NamedSet} {ns ts : List NamedSet}

theorem takes_nil : Takes whole [] left [] left where
  sublist := .slnil
  fits := by simp
  meets := by simp
  adds := .nil
  mem_rest := by simp
  exhausts := by simp

theorem Takes.take (h : Takes whole ns (left.diff n.codes) ts rest) (hfits : ∀ c ∈ n.codes, c ∈ whole)
    (hmeets : ∃ c ∈ n.codes, c ∈ left) : Takes whole (n :: ns) left (n :: ts) rest where
  sublist := h.sublist.cons_cons n
  fits := List.forall_mem_cons.2 ⟨hfits, h.fits⟩
  meets := by
    refine List.forall_mem_cons.2 ⟨hmeets, fun m hm => ?_⟩
    obtain ⟨c, hc, hleft⟩ := h.meets m hm
    exact ⟨c, hc, (mem_diff.1 hleft).1⟩
  adds := by
    refine .cons (fun m hm => ?_) h.adds
    obtain ⟨c, hc, hleft⟩ := h.meets m hm
    exact ⟨c, hc, (mem_diff.1 hleft).2⟩
  mem_rest := by
    intro c
    rw [List.forall_mem_cons, ← and_assoc, ← mem_diff]
    exact h.mem_rest c
  exhausts := by
    refine List.forall_mem_cons.2 ⟨fun _ c hc hrest => ?_, h.exhausts⟩
    exact (mem_diff.1 ((h.mem_rest c).1 hrest).1).2 hc

theorem Takes.skip (h : Takes whole ns left ts rest)
    (hn : (∀ c ∈ n.codes, c ∈ whole) → ∀ c ∈ n.codes, c ∉ left) : Takes whole (n :: ns) left ts rest where
  sublist := h.sublist.cons n
  fits := h.fits
  meets := h.meets
  adds := h.adds
  mem_rest := h.mem_rest
  exhausts := by
    refine List.forall_mem_cons.2 ⟨fun hfits c hc hrest => ?_, h.exhausts⟩
    exact hn hfits c hc ((h.mem_rest c).1 hrest).1

/-- The names that reduction takes, and what they leave over. -/
theorem exists_takes (whole : CodeSet) (ns : List NamedSet) (left : CodeSet) :
    ∃ ts : List NamedSet, (takeNamed whole ns left).1 = ts.map (·.letter) ∧
      Takes whole ns left ts (takeNamed whole ns left).2 := by
  induction ns generalizing left with
  | nil => exact ⟨[], rfl, takes_nil⟩
  | cons n ns ih =>
    rw [takeNamed]
    split
    · next h =>
      rw [Bool.and_eq_true, includes_iff, Bool.not_eq_true', isEmpty_eq_false_iff] at h
      obtain ⟨hfits, c, hc⟩ := h
      obtain ⟨ts, hl, ht⟩ := ih (left.diff n.codes)
      exact ⟨n :: ts, congrArg (n.letter :: ·) hl, ht.take hfits ⟨c, (mem_inter.1 hc).2, (mem_inter.1 hc).1⟩⟩
    · next h =>
      rw [Bool.and_eq_true, includes_iff, Bool.not_eq_true', isEmpty_eq_false_iff] at h
      obtain ⟨ts, hl, ht⟩ := ih left
      exact ⟨ts, hl, ht.skip fun hfits c hc hleft => h ⟨hfits, c, mem_inter.2 ⟨hleft, hc⟩⟩⟩

/-- The parts of a set are the named sets that reduction takes and the spans of what they leave over. -/
theorem parts_spec (s : CodeSet) : ∃ (ts : List NamedSet) (rest : CodeSet),
    s.parts = ts.map (fun n => .named n.letter) ++ rest.spans.toList.map .span ∧
      Takes s NamedSet.ordered s ts rest := by
  obtain ⟨ts, hl, ht⟩ := exists_takes s NamedSet.ordered s
  refine ⟨ts, (s.takeNamed NamedSet.ordered s).2, ?_, ht⟩
  show (s.takeNamed NamedSet.ordered s).1.map Part.named ++ _ = _
  rw [hl, List.map_map]
  rfl

theorem Takes.mem_registry (h : Takes whole NamedSet.ordered left ts rest) (hn : n ∈ ts) : n ∈ NamedSet.registry :=
  NamedSet.mem_registry_of_mem_ordered (h.sublist.subset hn)

end CodeSet

/-- The set that a part stands for. -/
def Part.codes : Part → CodeSet
  | .named letter => (NamedSet.find? letter).getD .empty
  | .span r => .ofSpans [r]

theorem Part.codes_named {n : NamedSet} (h : n ∈ NamedSet.registry) : (Part.named n.letter).codes = n.codes := by
  rw [codes, NamedSet.find?_letter h]
  rfl

theorem Part.mem_codes_span {r : Span} {c : UInt32} : c ∈ (Part.span r).codes ↔ c ∈ r := by
  rw [codes, CodeSet.mem_ofSpans]
  simp

namespace CodeSet

variable {s : CodeSet}

theorem cases_of_mem_parts {p : Part} (h : p ∈ s.parts) :
    (∃ n ∈ NamedSet.registry, p = .named n.letter) ∨ ∃ r : Span, p = .span r ∧ r.first ≤ r.last := by
  obtain ⟨ts, rest, hp, ht⟩ := s.parts_spec
  rw [hp] at h
  rcases List.mem_append.1 h with h | h
  · obtain ⟨n, hn, rfl⟩ := List.mem_map.1 h
    exact .inl ⟨n, ht.mem_registry hn, rfl⟩
  · obtain ⟨r, hr, rfl⟩ := List.mem_map.1 h
    exact .inr ⟨r, rfl, rest.normal.1 r hr⟩

/-- The parts of a set hold its members. -/
theorem mem_iff_mem_parts {c : UInt32} : c ∈ s ↔ ∃ p ∈ s.parts, c ∈ p.codes := by
  obtain ⟨ts, rest, hp, ht⟩ := s.parts_spec
  rw [hp]
  constructor
  · intro h
    by_cases hn : ∃ n ∈ ts, c ∈ n.codes
    · obtain ⟨n, hn, hcn⟩ := hn
      refine ⟨.named n.letter, List.mem_append_left _ (List.mem_map.2 ⟨n, hn, rfl⟩), ?_⟩
      rw [Part.codes_named (ht.mem_registry hn)]
      exact hcn
    · obtain ⟨r, hr, hcr⟩ := (ht.mem_rest c).2 ⟨h, fun n hn' hc' => hn ⟨n, hn', hc'⟩⟩
      exact ⟨.span r, List.mem_append_right _ (List.mem_map_of_mem hr), Part.mem_codes_span.2 hcr⟩
  · rintro ⟨p, h, hcp⟩
    rcases List.mem_append.1 h with h | h
    · obtain ⟨n, hn, rfl⟩ := List.mem_map.1 h
      rw [Part.codes_named (ht.mem_registry hn)] at hcp
      exact ht.fits n hn c hcp
    · obtain ⟨r, hr, rfl⟩ := List.mem_map.1 h
      exact ((ht.mem_rest c).1 ⟨r, hr, Part.mem_codes_span.1 hcp⟩).1

theorem mem_unions_codes {l : List Part} {c : UInt32} : c ∈ unions (l.map Part.codes) ↔ ∃ p ∈ l, c ∈ p.codes := by
  simp [mem_unions]

theorem unions_codes_parts (s : CodeSet) : unions (s.parts.map Part.codes) = s := by
  ext c
  rw [mem_unions_codes, ← mem_iff_mem_parts]

/-- A member outside the Unicode range lies in a span among the parts. -/
theorem exists_span_of_mem {c : UInt32} (h : c ∈ s) (hc : ¬ c ≤ maxCodePoint) :
    ∃ r : Span, .span r ∈ s.parts ∧ c ≤ r.last := by
  obtain ⟨p, hp, hcp⟩ := mem_iff_mem_parts.1 h
  rcases cases_of_mem_parts hp with ⟨n, hn, rfl⟩ | ⟨r, rfl, -⟩
  · rw [Part.codes_named hn] at hcp
    exact absurd (NamedSet.le_maxCodePoint_of_mem hn hcp) hc
  · exact ⟨r, hp, (Part.mem_codes_span.1 hcp).2⟩

theorem last_mem_of_span_mem_parts {r : Span} (h : .span r ∈ s.parts) : r.last ∈ s := by
  rcases cases_of_mem_parts h with ⟨n, -, hn⟩ | ⟨r', hr', hle⟩
  · cases hn
  · cases hr'
    exact mem_iff_mem_parts.2 ⟨_, h, Part.mem_codes_span.2 ⟨hle, UInt32.le_refl _⟩⟩

end CodeSet
end RegexNotation
