/-
  What the walks over lists of spans compute.

  Each operation has two facts: the code points that its result holds (`holds_normalize`, `holds_union`,
  `holds_inter`, `holds_diff`, `includes_iff`) and that its result is in normal form (`normal_normalize`,
  `normal_union`, `normal_inter`, `normal_diff`).
-/
import RegexNotation.Spans.Basic

namespace RegexNotation.Spans

/-! ## Words as numbers -/

theorem toNat_max (a b : UInt32) : (max a b).toNat = max a.toNat b.toNat := by
  simp only [Max.max, UInt32.le_iff_toNat_le]
  split <;> rfl

theorem toNat_min (a b : UInt32) : (min a b).toNat = min a.toNat b.toNat := by
  simp only [Min.min, UInt32.le_iff_toNat_le]
  split <;> rfl

attribute [local grind =] Span.mem_iff_toNat UInt32.lt_iff_toNat_lt UInt32.le_iff_toNat_le
  toNat_max toNat_min

/-! ## Lists of spans -/

theorem not_holds_nil (c : UInt32) : ¬ Holds [] c := by simp [Holds]

theorem holds_cons {a : Span} {l : List Span} {c : UInt32} :
    Holds (a :: l) c ↔ c ∈ a ∨ Holds l c := by simp [Holds]

theorem holds_append {l m : List Span} {c : UInt32} :
    Holds (l ++ m) c ↔ Holds l c ∨ Holds m c := by simp [Holds, or_and_right, exists_or]

theorem normal_nil : Normal [] := by simp [Normal]

theorem normal_cons {a : Span} {l : List Span} :
    Normal (a :: l) ↔ a.first ≤ a.last ∧ (∀ b ∈ l, Apart a b) ∧ Normal l := by
  simp only [Normal, List.mem_cons, forall_eq_or_imp, List.pairwise_cons]
  exact ⟨fun ⟨⟨h1, h2⟩, h3, h4⟩ => ⟨h1, h3, h2, h4⟩, fun ⟨h1, h3, h2, h4⟩ => ⟨⟨h1, h2⟩, h3, h4⟩⟩

/-- Behind a span of a normal list, nothing is held up to one number past its end. -/
theorem lt_of_holds {a : Span} {l : List Span} {c : UInt32} (h : Normal (a :: l)) (hc : Holds l c) :
    a.last.toNat + 1 < c.toNat := by
  obtain ⟨b, hb, hc⟩ := hc
  have := (normal_cons.1 h).2.1 b hb
  rw [Span.mem_iff_toNat] at hc
  unfold Apart at this
  omega

attribute [local grind =] holds_cons normal_cons
attribute [local grind .] not_holds_nil
attribute [local grind →] lt_of_holds

/-! ## Normalizing and union -/

/-- Sorted spans none of which is reversed. -/
def Sorted (l : List Span) : Prop :=
  l.Pairwise (·.first ≤ ·.first) ∧ ∀ s ∈ l, s.first ≤ s.last

theorem sorted_cons {s : Span} {l : List Span} :
    Sorted (s :: l) ↔ s.first ≤ s.last ∧ (∀ t ∈ l, s.first ≤ t.first) ∧ Sorted l := by
  simp only [Sorted, List.pairwise_cons, List.forall_mem_cons]
  exact ⟨fun ⟨⟨h1, h2⟩, h3, h4⟩ => ⟨h3, h1, h2, h4⟩, fun ⟨h3, h1, h2, h4⟩ => ⟨⟨h1, h2⟩, h3, h4⟩⟩

/-- The first span of a sorted list may grow by the second. -/
theorem Sorted.grow {reach s : Span} {l : List Span} (h : Sorted (reach :: s :: l)) :
    Sorted (⟨reach.first, max reach.last s.last⟩ :: l) := by
  obtain ⟨hr, hle, hs⟩ := sorted_cons.1 h
  refine sorted_cons.2 ⟨?_, fun t ht => hle t (List.mem_cons_of_mem s ht), (sorted_cons.1 hs).2.2⟩
  rw [UInt32.le_iff_toNat_le] at hr
  rw [UInt32.le_iff_toNat_le, toNat_max]
  exact Nat.le_trans hr (Nat.le_max_left _ _)

theorem holds_sweep {reach : Span} {l : List Span} {c : UInt32} (h : Sorted (reach :: l)) :
    Holds (sweep reach l) c ↔ c ∈ reach ∨ Holds l c := by
  induction l generalizing reach with
  | nil => simp [sweep, Holds]
  | cons s l ih =>
    obtain ⟨hr, hle, hs⟩ := sorted_cons.1 h
    rw [sweep]
    split
    · have := hle s List.mem_cons_self
      have := (sorted_cons.1 hs).1
      rw [ih h.grow]
      grind
    · rw [holds_cons, ih hs, holds_cons]

/-- The spans that a sweep gives begin no earlier than it does. -/
theorem first_le_of_mem_sweep {reach : Span} {l : List Span} (h : Sorted (reach :: l)) :
    ∀ s ∈ sweep reach l, reach.first ≤ s.first := by
  induction l generalizing reach with
  | nil => simp [sweep]
  | cons s l ih =>
    obtain ⟨-, hle, hs⟩ := sorted_cons.1 h
    rw [sweep]
    split
    · exact ih h.grow
    · refine List.forall_mem_cons.2 ⟨UInt32.le_refl _, fun t ht => ?_⟩
      exact UInt32.le_trans (hle s List.mem_cons_self) (ih hs t ht)

theorem normal_sweep {reach : Span} {l : List Span} (h : Sorted (reach :: l)) : Normal (sweep reach l) := by
  induction l generalizing reach with
  | nil => simpa [sweep, Normal] using h.2
  | cons s l ih =>
    obtain ⟨hr, -, hs⟩ := sorted_cons.1 h
    rw [sweep]
    split
    · exact ih h.grow
    · refine normal_cons.2 ⟨hr, fun t ht => ?_, ih hs⟩
      -- the gap before `s` is one before all that begins no earlier
      have := first_le_of_mem_sweep hs t ht
      rw [UInt32.le_iff_toNat_le] at this
      unfold Apart
      omega

theorem normal_coalesce {l : List Span} (h : Sorted l) : Normal (coalesce l) := by
  cases l with
  | nil => exact normal_nil
  | cons s l => exact normal_sweep h

theorem holds_coalesce {l : List Span} {c : UInt32} (h : Sorted l) :
    Holds (coalesce l) c ↔ Holds l c := by
  cases l with
  | nil => rfl
  | cons s l => rw [coalesce, holds_sweep h, holds_cons]

theorem Normal.sorted {l : List Span} (h : Normal l) : Sorted l := by
  induction l with
  | nil => simp [Sorted]
  | cons a l ih =>
    obtain ⟨h1, h2, h3⟩ := normal_cons.1 h
    refine sorted_cons.2 ⟨h1, fun b hb => ?_, ih h3⟩
    have := h2 b hb
    rw [UInt32.le_iff_toNat_le] at h1 ⊢
    unfold Apart at this
    omega

private theorem startsBefore_trans (a b c : Span) (h : startsBefore a b) (h' : startsBefore b c) :
    startsBefore a c := by
  simp only [startsBefore, decide_eq_true_eq] at *; grind

private theorem startsBefore_total (a b : Span) : startsBefore a b || startsBefore b a := by
  simp only [startsBefore, Bool.or_eq_true, decide_eq_true_eq]; grind

theorem sorted_mergeSort (l : List Span) :
    Sorted ((l.filter fun s => s.first ≤ s.last).mergeSort startsBefore) := by
  refine ⟨?_, by simp⟩
  have := List.pairwise_mergeSort startsBefore_trans startsBefore_total
    (l.filter fun s => s.first ≤ s.last)
  exact this.imp (by simp [startsBefore])

theorem sorted_merge {as bs : List Span} (ha : Sorted as) (hb : Sorted bs) :
    Sorted (as.merge bs startsBefore) := by
  refine ⟨?_, fun s hs => ?_⟩
  · have := List.pairwise_merge startsBefore_trans startsBefore_total as bs
      (ha.1.imp (by simp [startsBefore])) (hb.1.imp (by simp [startsBefore]))
    exact this.imp (by simp [startsBefore])
  · rcases List.mem_merge.1 hs with h | h
    · exact ha.2 s h
    · exact hb.2 s h

theorem normal_normalize (l : List Span) : Normal (normalize l) :=
  normal_coalesce (sorted_mergeSort l)

theorem holds_normalize {l : List Span} {c : UInt32} : Holds (normalize l) c ↔ Holds l c := by
  rw [normalize, holds_coalesce (sorted_mergeSort l)]
  simp only [Holds, List.mem_mergeSort, List.mem_filter, decide_eq_true_eq]
  exact ⟨fun ⟨s, h, hc⟩ => ⟨s, h.1, hc⟩, fun ⟨s, h, hc⟩ => ⟨s, ⟨h, Span.exists_mem_iff.1 ⟨c, hc⟩⟩, hc⟩⟩

theorem normal_union {as bs : List Span} (ha : Normal as) (hb : Normal bs) :
    Normal (union as bs) :=
  normal_coalesce (sorted_merge ha.sorted hb.sorted)

theorem holds_union {as bs : List Span} (ha : Normal as) (hb : Normal bs) {c : UInt32} :
    Holds (union as bs) c ↔ Holds as c ∨ Holds bs c := by
  rw [union, holds_coalesce (sorted_merge ha.sorted hb.sorted)]
  simp only [Holds, List.mem_merge, or_and_right, exists_or]

/-! ## Intersection -/

theorem holds_inter {as bs : List Span} (ha : Normal as) (hb : Normal bs) {c : UInt32} :
    Holds (inter as bs) c ↔ Holds as c ∧ Holds bs c := by
  fun_induction inter as bs with
  | case1 | case2 => simp [not_holds_nil]
  | case3 a as b bs | case4 a as b bs | case5 a as b bs =>
    have := normal_cons.1 ha
    have := normal_cons.1 hb
    grind

/-- Every span of an intersection lies within a span of each list. -/
theorem exists_mem_of_mem_inter {as bs : List Span} {s : Span} (h : s ∈ inter as bs) :
    (∃ a ∈ as, a.first ≤ s.first ∧ s.last ≤ a.last) ∧
      ∃ b ∈ bs, b.first ≤ s.first ∧ s.last ≤ b.last := by
  fun_induction inter as bs with
  | case1 | case2 => cases h
  | case3 | case4 | case5 => grind

theorem normal_inter {as bs : List Span} (ha : Normal as) (hb : Normal bs) :
    Normal (inter as bs) := by
  fun_induction inter as bs with
  | case1 | case2 => exact normal_nil
  | case3 a as b bs _ ih => exact ih (normal_cons.1 ha).2.2 hb
  | case4 a as b bs _ _ ih => exact ih ha (normal_cons.1 hb).2.2
  | case5 a as b bs _ _ ih1 ih2 ih3 =>
    have := normal_cons.1 ha
    have := normal_cons.1 hb
    refine normal_cons.2 ⟨by grind, fun s hs => ?_, by grind⟩
    have : (∃ a' ∈ as, a'.first ≤ s.first ∧ s.last ≤ a'.last) ∨
        ∃ b' ∈ bs, b'.first ≤ s.first ∧ s.last ≤ b'.last := by
      grind [exists_mem_of_mem_inter]
    grind [Apart]

/-! ## Difference -/

theorem holds_diff {as bs : List Span} (ha : Normal as) (hb : Normal bs) {c : UInt32} :
    Holds (diff as bs) c ↔ Holds as c ∧ ¬ Holds bs c := by
  fun_induction diff as bs with
  | case1 | case2 => simp [not_holds_nil]
  | case3 a as b bs | case4 a as b bs =>
    have := normal_cons.1 ha
    have := normal_cons.1 hb
    grind
  | case5 a as b bs _ _ ih1 ih2 =>
    have := normal_cons.1 ha
    have := normal_cons.1 hb
    rw [holds_append]
    rcases hl : a.before? b with _ | l <;> rcases hr : a.after? b with _ | r
    · have := Span.before?_eq_none.1 hl
      have := Span.after?_eq_none.1 hr
      grind
    · have := Span.before?_eq_none.1 hl
      have := Span.toNat_of_after? hr
      have : Normal (r :: as) := by grind [Apart]
      grind
    · have := Span.toNat_of_before? hl
      have := Span.after?_eq_none.1 hr
      grind
    · have := Span.toNat_of_before? hl
      have := Span.toNat_of_after? hr
      have : Normal (r :: as) := by grind [Apart]
      grind

/-- Every span of a difference lies within a span of the first list. -/
theorem exists_mem_of_mem_diff {as bs : List Span} {s : Span} (h : s ∈ diff as bs) :
    ∃ a ∈ as, a.first ≤ s.first ∧ s.last ≤ a.last := by
  fun_induction diff as bs with
  | case1 => cases h
  | case2 | case3 | case4 => grind
  | case5 a as b bs _ _ ih1 ih2 =>
    rcases List.mem_append.1 h with h | h
    · have := Span.toNat_of_before? (Option.mem_toList.1 h)
      exact ⟨a, List.mem_cons_self, by grind⟩
    · split at h
      · next r hr =>
        have := Span.toNat_of_after? hr
        grind
      · grind

theorem normal_toList_append {o : Option Span} {l : List Span}
    (ho : ∀ s, o = some s → s.first ≤ s.last ∧ ∀ t ∈ l, Apart s t) (hl : Normal l) :
    Normal (o.toList ++ l) := by
  cases o with
  | none => simpa using hl
  | some s => exact normal_cons.2 ⟨(ho s rfl).1, (ho s rfl).2, hl⟩

theorem normal_diff {as bs : List Span} (ha : Normal as) (hb : Normal bs) :
    Normal (diff as bs) := by
  fun_induction diff as bs with
  | case1 => exact normal_nil
  | case2 => exact ha
  | case3 a as b bs _ ih => exact ih ha (normal_cons.1 hb).2.2
  | case4 a as b bs _ _ ih =>
    obtain ⟨h1, h2, h3⟩ := normal_cons.1 ha
    refine normal_cons.2 ⟨h1, fun s hs => ?_, ih h3 hb⟩
    obtain ⟨t, ht, h, _⟩ := exists_mem_of_mem_diff hs
    have := h2 t ht
    grind [Apart]
  | case5 a as b bs _ _ ih1 ih2 =>
    obtain ⟨h1, h2, h3⟩ := normal_cons.1 ha
    obtain ⟨h4, h5, h6⟩ := normal_cons.1 hb
    refine normal_toList_append (fun l hl => ?_) ?_
    · have := Span.toNat_of_before? hl
      refine ⟨by grind, fun t ht => ?_⟩
      split at ht
      · next r hr =>
        have := Span.toNat_of_after? hr
        obtain ⟨u, hu, h, _⟩ := exists_mem_of_mem_diff ht
        grind [Apart]
      · obtain ⟨u, hu, h, _⟩ := exists_mem_of_mem_diff ht
        grind [Apart]
    · split
      · next r hr =>
        have := Span.toNat_of_after? hr
        exact ih1 r (by grind [Apart]) h6
      · exact ih2 h3 hb

/-! ## Inclusion -/

theorem includes_iff {as bs : List Span} (ha : Normal as) (hb : Normal bs) :
    includes as bs = true ↔ ∀ c, Holds bs c → Holds as c := by
  fun_induction includes as bs with
  | case1 => simp [not_holds_nil]
  | case2 b bs =>
    have := normal_cons.1 hb
    simp only [Bool.false_eq_true, false_iff]
    exact fun h => not_holds_nil _ (h b.first (by grind))
  | case3 a as b bs =>
    have := normal_cons.1 ha
    have := normal_cons.1 hb
    grind
  | case4 a as b bs =>
    have := normal_cons.1 ha
    have := normal_cons.1 hb
    simp only [Bool.false_eq_true, false_iff]
    intro h
    have := h b.first (by grind)
    grind
  | case5 a as b bs _ _ r hr ih =>
    have := normal_cons.1 ha
    have := normal_cons.1 hb
    have := Span.toNat_of_after? hr
    rw [ih (by grind) (by grind [Apart])]
    have hr' (c : UInt32) : c ∈ b ↔ c ∈ r ∨ (b.first.toNat ≤ c.toNat ∧ c.toNat ≤ a.last.toNat) := by
      grind
    constructor
    · intro h c hc
      have := h c
      grind
    · intro h c hc
      have := h c
      grind
  | case6 a as b bs _ _ hn ih =>
    have := normal_cons.1 ha
    have := normal_cons.1 hb
    have := Span.after?_eq_none.1 hn
    rw [ih ha (by grind)]
    grind

end RegexNotation.Spans
