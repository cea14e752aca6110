/-
  The text of a code set.

  * `codes_ofCodeSet`: the expression of a set in the Unicode range stands for that set, as each of its items
    stands for a part of it;
  * `wellFormed_ofCodeSet_iff`: the expression is one that a pattern can have iff the notation can spell every
    number of the set.  The items never merge, as `-` is always quoted.
-/
import RegexNotation.Proofs.Meanings
import RegexNotation.Session

namespace RegexNotation

/-! ## Lists of results -/

section
variable {ε α β : Type} {f : α → Except ε β} {l : List α}

theorem mapM_eq_ok {g : α → β} (h : ∀ a ∈ l, f a = .ok (g a)) : l.mapM f = .ok (l.map g) :=
  mapM_eq_ok_iff.2 (List.forall₂_map_right_iff.2 (List.forall₂_same.2 h))

/-- If one of the values is an error, so is the whole, and it is one of them. -/
theorem exists_mapM_eq_error {a : α} (ha : a ∈ l) (h : ∀ b, f a ≠ .ok b) :
    ∃ b ∈ l, ∃ e, f b = .error e ∧ l.mapM f = .error e := by
  cases hm : l.mapM f with
  | error e =>
    obtain ⟨b, hb, he⟩ := exists_of_mapM_eq_error hm
    exact ⟨b, hb, e, he, rfl⟩
  | ok bs =>
    obtain ⟨b, -, hb⟩ := (mem_of_mapM_eq_ok hm).1 a ha
    exact absurd hb (h b)

end

/-! ## Items -/

namespace SetItem

variable {n : NamedSet} {r : Span}

theorem codes_ofPart_named (h : n ∈ NamedSet.registry) :
    (ofPart (.named n.letter)).codes = .ok (Part.named n.letter).codes := by
  rw [Part.codes_named h, ofPart, codes, codesOfName, NamedSet.find?_letter h]

theorem codes_ofPart_span (hr : r.first ≤ r.last) (h : r.last ≤ maxCodePoint) :
    (ofPart (.span r)).codes = .ok (Part.span r).codes := by
  have hf := codePoint_ofCodePoint (UInt32.le_trans hr h)
  have hl := codePoint_ofCodePoint h
  rw [ofPart]
  split
  · next heq =>
    have hs : CodeSet.single r.first = (Part.span r).codes := by
      refine CodeSet.eq_of_mem_iff fun c => ?_
      rw [CodeSet.mem_single, Part.mem_codes_span, Span.mem_iff, ← heq]
      constructor
      · rintro rfl
        exact ⟨UInt32.le_refl _, UInt32.le_refl _⟩
      · rintro ⟨h1, h2⟩
        exact UInt32.le_antisymm h2 h1
    rw [codes, hf, ← hs]
    rfl
  · rw [codes, hf, hl]
    show (if r.last < r.first then _ else _) = _
    rw [if_neg (UInt32.not_lt.2 hr)]
    rfl

theorem codes_ofPart_span_eq_error (h : ¬ r.last ≤ maxCodePoint) :
    ∃ t, (ofPart (.span r)).codes = .error (.invalidCodePoint t) := by
  obtain ⟨t, ht⟩ := codePoint_ofCodePoint_eq_error h
  rw [ofPart]
  split
  · next heq =>
    rw [codes, heq, ht]
    exact ⟨t, rfl⟩
  · rw [codes]
    by_cases hf : r.first ≤ maxCodePoint
    · rw [codePoint_ofCodePoint hf, ht]
      exact ⟨t, rfl⟩
    · obtain ⟨t', ht'⟩ := codePoint_ofCodePoint_eq_error hf
      rw [ht']
      exact ⟨t', rfl⟩

/-- An item stands for its part unless a bound lies outside the Unicode range. -/
theorem codes_ofPart {s : CodeSet} {p : Part} (hp : p ∈ s.parts) :
    (ofPart p).codes = .ok p.codes ∨ ∃ t, (ofPart p).codes = .error (.invalidCodePoint t) := by
  rcases CodeSet.cases_of_mem_parts hp with ⟨n, hn, rfl⟩ | ⟨r, rfl, hr⟩
  · exact .inl (codes_ofPart_named hn)
  · by_cases h : r.last ≤ maxCodePoint
    · exact .inl (codes_ofPart_span hr h)
    · exact .inr (codes_ofPart_span_eq_error h)

theorem valid_ofPart_named (h : n ∈ NamedSet.registry) : (ofPart (.named n.letter)).Valid := by
  show (NamedSet.find? n.letter).isSome
  rw [NamedSet.find?_letter h]
  rfl

theorem valid_ofPart_span_iff (hr : r.first ≤ r.last) : (ofPart (.span r)).Valid ↔ r.last ≤ 0xFFFFFF := by
  rw [ofPart]
  split
  · next heq => rw [Valid, valid_ofCodePoint_iff, heq]
  · rw [Valid, valid_ofCodePoint_iff, valid_ofCodePoint_iff]
    constructor
    · rintro ⟨-, h⟩
      exact h
    · intro h
      exact ⟨UInt32.le_trans hr h, h⟩

theorem beginWithDash_eq_false {a : Literal} (ha : a ≠ .plain '-') (b : Literal) (items : List SetItem) :
    beginWithDash (single a :: items) = false ∧ beginWithDash (range a b :: items) = false := by
  cases a with
  | plain c =>
    have hc : c ≠ '-' := fun h => ha (congrArg _ h)
    simp [beginWithDash, hc]
  | _ => exact ⟨rfl, rfl⟩

theorem beginWithDash_map_ofPart (ps : List Part) : beginWithDash (ps.map ofPart) = false := by
  rcases ps with _ | ⟨_ | r, ps⟩
  · rfl
  · rfl
  · obtain ⟨hs, hr⟩ :=
      beginWithDash_eq_false (ofCodePoint_ne_dash r.first) (.ofCodePoint r.last) (ps.map ofPart)
    rw [List.map_cons, ofPart]
    split
    · exact hs
    · exact hr

theorem unmerged_map_ofPart (ps : List Part) : Unmerged (ps.map ofPart) := by
  induction ps with
  | nil => trivial
  | cons p ps ih =>
    rw [List.map_cons]
    cases ofPart p with
    | single a => exact ⟨beginWithDash_map_ofPart ps, ih⟩
    | _ => exact ih

end SetItem

/-! ## Sets -/

namespace Regex

variable {s : CodeSet}

theorem codes_ofCodeSet (h : ∀ c ∈ s, c ≤ maxCodePoint) : (ofCodeSet s).codes = .ok s := by
  have hitems : s.parts.mapM (SetItem.codes ∘ SetItem.ofPart) = .ok (s.parts.map Part.codes) := by
    refine mapM_eq_ok fun p hp => ?_
    rcases CodeSet.cases_of_mem_parts hp with ⟨n, hn, rfl⟩ | ⟨r, rfl, hr⟩
    · exact SetItem.codes_ofPart_named hn
    · exact SetItem.codes_ofPart_span hr (h _ (CodeSet.last_mem_of_span_mem_parts hp))
  rw [ofCodeSet, codes, codesOfItems, List.mapM_map, hitems]
  exact congrArg Except.ok (CodeSet.unions_codes_parts s)

theorem codes_ofCodeSet_eq_error {c : UInt32} (hc : c ∈ s) (h : maxCodePoint < c) :
    ∃ t, (ofCodeSet s).codes = .error (.invalidCodePoint t) := by
  obtain ⟨r, hr, hle⟩ := CodeSet.exists_span_of_mem hc (UInt32.not_le.2 h)
  have hlast : ¬ r.last ≤ maxCodePoint := UInt32.not_le.2 (UInt32.lt_of_lt_of_le h hle)
  obtain ⟨t, ht⟩ := SetItem.codes_ofPart_span_eq_error hlast
  obtain ⟨p, hp, e, he, hm⟩ := exists_mapM_eq_error (f := SetItem.codes ∘ SetItem.ofPart) hr fun u hu => by
    rw [Function.comp, ht] at hu
    cases hu
  rw [ofCodeSet, codes, codesOfItems, List.mapM_map, hm]
  rcases SetItem.codes_ofPart hp with hok | ⟨t', herr⟩
  · rw [Function.comp, hok] at he
    cases he
  · rw [Function.comp, herr] at he
    cases he
    exact ⟨t', rfl⟩

theorem wellFormed_set_iff {negated : Bool} {items : List SetItem} :
    (set negated items).WellFormed ↔ (∀ i ∈ items, i.Valid) ∧ SetItem.Unmerged items := by
  constructor
  · rintro ⟨hf, -⟩
    cases hf with | concatenation hf =>
    cases hf with | sequence hf =>
    cases hf with | repetition hf =>
    cases hf with | atom hf =>
    cases hf with
    | set hv hu => exact ⟨hv, hu⟩
  · rintro ⟨hv, hu⟩
    exact ⟨.concatenation (.sequence (.repetition (.atom (.set hv hu)))), Nat.zero_le _⟩

theorem wellFormed_ofCodeSet_iff : (ofCodeSet s).WellFormed ↔ ∀ c ∈ s, c ≤ 0xFFFFFF := by
  rw [ofCodeSet, wellFormed_set_iff, and_iff_left (SetItem.unmerged_map_ofPart _), List.forall_mem_map]
  constructor
  · intro h c hc
    by_cases hle : c ≤ maxCodePoint
    · exact UInt32.le_trans hle (by decide)
    · obtain ⟨r, hr, hcr⟩ := CodeSet.exists_span_of_mem hc hle
      rcases CodeSet.cases_of_mem_parts hr with ⟨n, -, hn⟩ | ⟨r', hr', hle'⟩
      · cases hn
      · cases hr'
        exact UInt32.le_trans hcr ((SetItem.valid_ofPart_span_iff hle').1 (h _ hr))
  · intro h p hp
    rcases CodeSet.cases_of_mem_parts hp with ⟨n, hn, rfl⟩ | ⟨r, rfl, hr⟩
    · exact SetItem.valid_ofPart_named hn
    · exact (SetItem.valid_ofPart_span_iff hr).2 (h _ (CodeSet.last_mem_of_span_mem_parts hp))

end Regex

theorem CodeSet.ofPattern_print_ofCodeSet {s : CodeSet} (h : ∀ c ∈ s, c ≤ maxCodePoint) :
    CodeSet.ofPattern (Regex.ofCodeSet s).print = .ok s := by
  have hp : Regex.parse (Regex.ofCodeSet s).print = .ok (Regex.ofCodeSet s) := by
    refine Regex.parse_print_iff.2 (Regex.wellFormed_ofCodeSet_iff.2 fun c hc => ?_)
    exact UInt32.le_trans (h c hc) (by decide)
  simp only [ofPattern, hp, Regex.codes_ofCodeSet h]
  rfl

/-- **What becomes of a set that is written and read.**  Its expression stands for it in the Unicode range and
    for no set beyond, and can be read up to six hexadecimal digits. -/
theorem CodeSet.ofCodeSet_written_and_read (s : CodeSet) :
    ((∀ c ∈ s, c ≤ maxCodePoint) → (Regex.ofCodeSet s).codes = .ok s) ∧
      ((∃ c ∈ s, maxCodePoint < c) → ∃ t, (Regex.ofCodeSet s).codes = .error (.invalidCodePoint t)) ∧
      (Regex.parse (Regex.ofCodeSet s).print = .ok (Regex.ofCodeSet s) ↔ ∀ c ∈ s, c ≤ 0xFFFFFF) ∧
      ((∀ c ∈ s, c ≤ maxCodePoint) → CodeSet.ofPattern (Regex.ofCodeSet s).print = .ok s) := by
  refine ⟨Regex.codes_ofCodeSet, ?_, ?_, ofPattern_print_ofCodeSet⟩
  · rintro ⟨c, hc, h⟩
    exact Regex.codes_ofCodeSet_eq_error hc h
  · rw [Regex.parse_print_iff, Regex.wellFormed_ofCodeSet_iff]

theorem CodeSet.ofCodeSet_written_and_read_at :
    let s := ofSpans [⟨0x2D, 0x2F⟩, ⟨0xD800, 0xD800⟩, ⟨0xFFFF, maxCodePoint⟩]
    let t := single 0x110000
    (∀ c ∈ s, c ≤ maxCodePoint) ∧ (Regex.ofCodeSet s).codes = .ok s ∧
      CodeSet.ofPattern (Regex.ofCodeSet s).print = .ok s ∧ (∃ c ∈ t, maxCodePoint < c) ∧
      ∃ x, (Regex.ofCodeSet t).codes = .error (.invalidCodePoint x) := by
  intro s t
  have hs : ∀ c ∈ s, c ≤ maxCodePoint := fun c => le_of_mem_ofSpans (by decide)
  have ht : ∃ c ∈ t, maxCodePoint < c := ⟨0x110000, mem_single.2 rfl, by decide⟩
  obtain ⟨h1, -, -, h4⟩ := ofCodeSet_written_and_read s
  obtain ⟨-, h2, -⟩ := ofCodeSet_written_and_read t
  exact ⟨hs, h1 hs, h4 hs, ht, h2 ht⟩

end RegexNotation
