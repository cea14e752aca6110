/-
  What the operations on code sets do to membership.

  One lemma for each operation: `mem_ofSpans`, `mem_single`, `mem_all`, `not_mem_empty`, `mem_union`,
  `mem_unions`, `mem_inter`, `mem_diff` and `mem_compl`.  `includes_iff` says that `includes` decides the
  relation of subsets.
-/
import RegexNotation.CodeSet.Basic

namespace RegexNotation.CodeSet

variable {s t : CodeSet} {c : UInt32}

@[simp] theorem mem_ofNormal {l : List Span} {h : Spans.Normal l} :
    c ∈ ofNormal l h ↔ Spans.Holds l c := Iff.rfl

theorem mem_ofSpans {l : List Span} : c ∈ ofSpans l ↔ ∃ r ∈ l, c ∈ r := Spans.holds_normalize

theorem not_mem_empty : c ∉ empty := Spans.not_holds_nil c

theorem mem_all : c ∈ all ↔ c ≤ maxCodePoint := by
  simp [all, Spans.Holds, Span.mem_iff, UInt32.le_iff_toNat_le]

theorem mem_single {d : UInt32} : c ∈ single d ↔ c = d := by
  simp only [single, mem_ofNormal, Spans.Holds, List.mem_singleton, exists_eq_left, Span.mem_iff,
    Span.single]
  exact ⟨fun h => UInt32.le_antisymm h.2 h.1, fun h => h ▸ ⟨UInt32.le_refl _, UInt32.le_refl _⟩⟩

theorem mem_union : c ∈ s.union t ↔ c ∈ s ∨ c ∈ t := Spans.holds_union s.normal t.normal

theorem mem_unions {l : List CodeSet} : c ∈ unions l ↔ ∃ u ∈ l, c ∈ u := by
  simp only [unions, mem_ofSpans, List.mem_flatMap]
  exact ⟨fun ⟨r, ⟨u, hu, hr⟩, hc⟩ => ⟨u, hu, r, hr, hc⟩, fun ⟨u, hu, r, hr, hc⟩ => ⟨r, ⟨u, hu, hr⟩, hc⟩⟩

theorem mem_inter : c ∈ s.inter t ↔ c ∈ s ∧ c ∈ t := Spans.holds_inter s.normal t.normal

theorem mem_diff : c ∈ s.diff t ↔ c ∈ s ∧ c ∉ t := Spans.holds_diff s.normal t.normal

theorem mem_compl : c ∈ s.compl ↔ c ≤ maxCodePoint ∧ c ∉ s := by
  rw [compl, mem_diff, mem_all]

theorem includes_iff : s.includes t ↔ ∀ c, c ∈ t → c ∈ s := Spans.includes_iff s.normal t.normal

end RegexNotation.CodeSet
