/-
  What a set in brackets stands for.

  * `joinItems` joins the sets of the items one after the other, and stops at the first item that has none.  That is
    what `codesOfItems` gives (`joinItems_empty`);
  * `codesOfItems_eq_ok_iff` and `codesOfItems_eq_error_iff`: items that all resolve have the set of what one of them
    covers, and others the error of the first one that does not resolve;
  * `Regex.codes_set_exact`: the same for a set in brackets, negated or not.
-/
import RegexNotation.Proofs.NormalForms

namespace RegexNotation

variable {c : UInt32} {err : MeaningError} {items others : List SetItem} {negated : Bool} {s : CodeSet}

/-! ## Items one after the other -/

/-- Joins the sets of the items to `s`, the first one first.  An item that has none ends it. -/
def joinItems (s : CodeSet) : List SetItem → Except MeaningError CodeSet
  | [] => .ok s
  | i :: is => do
    let t ← i.codes
    joinItems (s.union t) is

theorem joinItems_eq (s : CodeSet) (items : List SetItem) :
    joinItems s items = (do return (← items.mapM SetItem.codes).foldl .union s) := by
  induction items generalizing s with
  | nil => rfl
  | cons i is ih =>
    rw [joinItems, List.mapM_cons]
    cases i.codes with
    | error err => rfl
    | ok t =>
      show joinItems (s.union t) is = _
      rw [ih]
      cases is.mapM SetItem.codes <;> rfl

/-- To join the sets as the items come is to join all of them at once. -/
theorem joinItems_empty (items : List SetItem) : joinItems .empty items = codesOfItems items := by
  simp only [joinItems_eq, codesOfItems, CodeSet.foldl_union]

theorem exists_codesOfItems_eq_ok_iff : (∃ s, codesOfItems items = .ok s) ↔ ∀ i ∈ items, i.Resolves := by
  simp only [codesOfItems, bind_eq_ok_iff, ← SetItem.exists_codes_eq_ok_iff, ← exists_mapM_eq_ok_iff]
  constructor
  · rintro ⟨s, ss, hss, -⟩
    exact ⟨ss, hss⟩
  · rintro ⟨ss, hss⟩
    exact ⟨_, ss, hss, rfl⟩

theorem mem_iff_of_codesOfItems (h : codesOfItems items = .ok s) : c ∈ s ↔ ∃ i ∈ items, i.Covers c := by
  obtain ⟨ss, hss, ⟨⟩⟩ := bind_eq_ok_iff.1 h
  obtain ⟨hitems, hsets⟩ := mem_of_mapM_eq_ok hss
  rw [CodeSet.mem_unions]
  constructor
  · rintro ⟨t, ht, hc⟩
    obtain ⟨i, hi, hit⟩ := hsets t ht
    exact ⟨i, hi, (SetItem.mem_iff_of_codes hit).1 hc⟩
  · rintro ⟨i, hi, hc⟩
    obtain ⟨t, ht, hit⟩ := hitems i hi
    exact ⟨t, ht, (SetItem.mem_iff_of_codes hit).2 hc⟩

/-- The set of items that all resolve holds what one of them covers. -/
theorem codesOfItems_eq_ok_iff : codesOfItems items = .ok s ↔
    (∀ i ∈ items, i.Resolves) ∧ ∀ c, c ∈ s ↔ ∃ i ∈ items, i.Covers c := by
  constructor
  · intro h
    exact ⟨exists_codesOfItems_eq_ok_iff.1 ⟨s, h⟩, fun c => mem_iff_of_codesOfItems h⟩
  · rintro ⟨hres, hs⟩
    obtain ⟨t, ht⟩ := exists_codesOfItems_eq_ok_iff.2 hres
    obtain rfl : t = s := CodeSet.eq_of_mem_iff fun c => (mem_iff_of_codesOfItems ht).trans (hs c).symm
    exact ht

/-- Neither the order of the items matters nor how often one of them occurs. -/
theorem codesOfItems_eq_ok_iff_of_mem_iff (h : ∀ i, i ∈ others ↔ i ∈ items) :
    codesOfItems others = .ok s ↔ codesOfItems items = .ok s := by
  simp only [codesOfItems_eq_ok_iff, h]

/-- The error of items is that of the first one that does not resolve. -/
theorem codesOfItems_eq_error_iff : codesOfItems items = .error err ↔
    ∃ is i js, items = is ++ i :: js ∧ (∀ j ∈ is, j.Resolves) ∧ ¬ i.Resolves ∧ i.Fails err := by
  have hmapM : codesOfItems items = .error err ↔ items.mapM SetItem.codes = .error err := by
    rw [codesOfItems, bind_eq_error_iff]
    refine or_iff_left ?_
    rintro ⟨_, -, ⟨⟩⟩
  rw [hmapM, mapM_eq_error_iff]
  simp only [SetItem.exists_codes_eq_ok_iff, SetItem.codes_eq_error_iff]
  constructor
  · rintro ⟨is, i, js, h, his, hi⟩
    exact ⟨is, i, js, h, his, SetItem.exists_fails_iff.1 ⟨err, hi⟩, hi⟩
  · rintro ⟨is, i, js, h, his, -, hi⟩
    exact ⟨is, i, js, h, his, hi⟩

/-! ## Sets in brackets -/

namespace Regex

theorem codes_set_eq_ok_iff : (set negated items).codes = .ok s ↔
    ∃ t, codesOfItems items = .ok t ∧ s = if negated then t.compl else t := by
  rw [codes, bind_eq_ok_iff]
  constructor
  · rintro ⟨t, ht, ⟨⟩⟩
    exact ⟨t, ht, rfl⟩
  · rintro ⟨t, ht, rfl⟩
    exact ⟨t, ht, rfl⟩

theorem codes_set_eq_error_iff : (set negated items).codes = .error err ↔ codesOfItems items = .error err := by
  rw [codes, bind_eq_error_iff]
  refine or_iff_left ?_
  rintro ⟨_, -, ⟨⟩⟩

/-- A negated set holds the Unicode code points that the items do not cover. -/
theorem mem_iff_of_codes_set (h : (set negated items).codes = .ok s) (hc : c ≤ maxCodePoint) :
    c ∈ s ↔ ¬ ((∃ i ∈ items, i.Covers c) ↔ negated = true) := by
  obtain ⟨t, ht, rfl⟩ := codes_set_eq_ok_iff.1 h
  rw [← mem_iff_of_codesOfItems ht]
  cases negated with
  | false => simp
  | true => simp [CodeSet.mem_compl, hc]

/-- **Sets in brackets.**  A set in brackets has a meaning exactly when all its items resolve.  It then is in normal form,
    lies in the Unicode range, and holds what one of the items covers, or, if it is negated, what none of them covers; so
    neither the order of the items matters nor how often one occurs.  Otherwise the error is that of the first item that
    does not resolve.  To join the sets of the items one after the other gives the same. -/
theorem codes_set_exact (negated : Bool) (items : List SetItem) :
    ((∃ s, (set negated items).codes = .ok s) ↔ ∀ i ∈ items, i.Resolves) ∧
    (∀ s, (set negated items).codes = .ok s → Spans.Normal s.spans.toList ∧ (∀ c ∈ s, c ≤ maxCodePoint) ∧
      ∀ c, c ≤ maxCodePoint → (c ∈ s ↔ ¬ ((∃ i ∈ items, i.Covers c) ↔ negated = true))) ∧
    (∀ others : List SetItem, (∀ i, i ∈ others ↔ i ∈ items) →
      ∀ s, (set negated others).codes = .ok s ↔ (set negated items).codes = .ok s) ∧
    (set true items).codes = (set false items).codes.map CodeSet.compl ∧
    (∀ err, (set negated items).codes = .error err ↔
      ∃ is i js, items = is ++ i :: js ∧ (∀ j ∈ is, j.Resolves) ∧ ¬ i.Resolves ∧ i.Fails err) ∧
    (set negated items).codes = (joinItems .empty items).map fun s => if negated then s.compl else s := by
  refine ⟨?_, ?_, ?_, ?_, ?_, ?_⟩
  · rw [← exists_codesOfItems_eq_ok_iff]
    constructor
    · rintro ⟨s, hs⟩
      obtain ⟨t, ht, -⟩ := codes_set_eq_ok_iff.1 hs
      exact ⟨t, ht⟩
    · rintro ⟨t, ht⟩
      exact ⟨_, codes_set_eq_ok_iff.2 ⟨t, ht, rfl⟩⟩
  · intro s h
    exact ⟨s.normal, (madeInRange_codes h).2, fun c hc => mem_iff_of_codes_set h hc⟩
  · intro others h s
    simp only [codes_set_eq_ok_iff, codesOfItems_eq_ok_iff_of_mem_iff h]
  · rw [codes, codes]
    cases codesOfItems items <;> rfl
  · intro err
    rw [codes_set_eq_error_iff, codesOfItems_eq_error_iff]
  · rw [joinItems_empty, codes]
    cases codesOfItems items <;> rfl

theorem codes_set_exact_at :
    let items := [.named 'd', .range (.plain 'a') (.hex2 "66"), .single (.hexBraced "+0010ffff")]
    let others := items.reverse ++ items
    let faulty := [.single (.plain 'x'), .range (.control 'q') (.hexBraced "110000"), .named 'z']
    (∃ s, (set true items).codes = .ok s ∧ (set true others).codes = .ok s ∧ (∀ c ∈ s, c ≤ maxCodePoint) ∧
        (0x62 : UInt32) ∉ s) ∧
      (set true faulty).codes = .error (.invalidCodePoint "\\q") := by
  intro items others faulty
  have hlast : (Literal.hex2 "66").codePoint = .ok 0x66 := by decide +kernel
  have hrange : SetItem.Covers (.range (.plain 'a') (.hex2 "66")) 0x62 :=
    ⟨0x61, 0x66, rfl, hlast, by decide, by decide⟩
  have hres : ∀ i ∈ items, i.Resolves := by
    refine List.forall_mem_cons.2 ⟨?_, List.forall_mem_cons.2 ⟨?_, List.forall_mem_singleton.2 ?_⟩⟩
    · exact ⟨⟨'d', NamedSet.digit⟩, by simp [NamedSet.registry], rfl⟩
    · exact ⟨0x61, 0x66, rfl, hlast, by decide⟩
    · exact ⟨0x10FFFF, by decide +kernel⟩
  have hothers : ∀ i, i ∈ others ↔ i ∈ items := by simp [others]
  have hfails : SetItem.Fails (.range (.control 'q') (.hexBraced "110000")) (.invalidCodePoint "\\q") :=
    .first (by decide +kernel)
  obtain ⟨hok, hmeaning, horder, -⟩ := codes_set_exact true items
  obtain ⟨-, -, -, -, herror, -⟩ := codes_set_exact true faulty
  constructor
  · obtain ⟨s, hs⟩ := hok.2 hres
    obtain ⟨-, hle, hmem⟩ := hmeaning s hs
    refine ⟨s, hs, (horder others hothers s).2 hs, hle, fun hc => (hmem 0x62 (by decide)).1 hc ?_⟩
    exact iff_of_true ⟨_, by simp [items], hrange⟩ rfl
  · refine (herror _).2 ⟨[.single (.plain 'x')], _, [.named 'z'], rfl, ?_, ?_, hfails⟩
    · exact List.forall_mem_singleton.2 ⟨0x78, rfl⟩
    · exact SetItem.exists_fails_iff.1 ⟨_, hfails⟩

end Regex
end RegexNotation
