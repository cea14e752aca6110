/-
  The normal form of a list of spans.

  * `Spans.normalize_eq_iff`: two lists have the same normal form exactly when they hold the same code points.  So
    neither the order of the spans matters nor those that are reversed or covered by others;
  * `Spans.normalize_canonical`: normalizing is sound, canonical and idempotent;
  * `CodeSet.union_canonical`: to merge two sets, or any number of sets in any order, is to normalize all their spans.

  Behind the sort and in the merge stands one and the same step, `Spans.absorb`, which joins spans in the arithmetic of
  words (`normalize_eq_foldl_absorb`, `unionFrom_eq_union`).
-/
import RegexNotation.Proofs.SetAlgebra
import RegexNotation.Proofs.Walks

namespace RegexNotation

namespace Spans

variable {as bs extra l m : List Span} {c : UInt32}

/-! ## Lists with the same normal form -/

theorem normalize_eq_iff : normalize l = normalize m ↔ ∀ c, Holds l c ↔ Holds m c := by
  constructor
  · intro h c
    rw [← holds_normalize (l := l), h, holds_normalize]
  · intro h
    refine (normal_normalize l).eq_of_holds_iff (normal_normalize m) fun c => ?_
    rw [holds_normalize, holds_normalize]
    exact h c

/-- The lists in normal form are those that normalizing leaves as they are. -/
theorem normalize_eq_self_iff : normalize l = l ↔ Normal l := by
  constructor
  · intro h
    rw [← h]
    exact normal_normalize l
  · intro h
    exact (normal_normalize l).eq_of_holds_iff h fun c => holds_normalize

theorem holds_iff_of_perm (h : l.Perm m) : Holds l c ↔ Holds m c := by
  simp only [Holds, h.mem_iff]

/-- The span is reversed, or the list covers it. -/
def Spare (l : List Span) (s : Span) : Prop := s.last < s.first ∨ ∀ c ∈ s, Holds l c

theorem holds_append_of_spare (h : ∀ s ∈ extra, Spare l s) : Holds (l ++ extra) c ↔ Holds l c := by
  rw [holds_append]
  refine or_iff_left_of_imp ?_
  intro ⟨s, hs, hc⟩
  rcases h s hs with hrev | hcov
  · exact absurd (Span.exists_mem_iff.1 ⟨c, hc⟩) (UInt32.not_le.2 hrev)
  · exact hcov c hc

theorem normalize_eq_foldl_absorb (l : List Span) :
    normalize l = ((l.filter fun s => s.first ≤ s.last).mergeSort startsBefore).foldl absorb [] :=
  (foldl_absorb_eq_coalesce (sorted_mergeSort l)).symm

/-- **Normal forms.**  The normal form of a list of spans, whatever they are, holds the code points that one of them
    holds.  It depends neither on their order nor on spans that are reversed or covered by the others, and it is its own
    normal form. -/
theorem normalize_canonical (l : List Span) :
    (∀ c, Holds (normalize l) c ↔ ∃ s ∈ l, s.first ≤ c ∧ c ≤ s.last) ∧ Normal (normalize l) ∧
    normalize l = ((l.filter fun s => s.first ≤ s.last).mergeSort startsBefore).foldl absorb [] ∧
    (∀ m : List Span, m.Perm l → normalize m = normalize l) ∧
    (∀ m extra : List Span, m.Perm (l ++ extra) → (∀ s ∈ extra, Spare l s) → normalize m = normalize l) ∧
    normalize (normalize l) = normalize l := by
  refine ⟨fun c => holds_normalize, normal_normalize l, normalize_eq_foldl_absorb l, ?_, ?_,
    normalize_eq_self_iff.2 (normal_normalize l)⟩
  · intro m hm
    exact normalize_eq_iff.2 fun c => holds_iff_of_perm hm
  · intro m extra hm hextra
    refine normalize_eq_iff.2 fun c => ?_
    rw [holds_iff_of_perm hm, holds_append_of_spare hextra]

theorem normalize_canonical_at :
    let l : List Span := [⟨0x41, 0x5A⟩, ⟨0x30, 0x40⟩, ⟨0xFFFFFFFE, 0xFFFFFFFF⟩]
    let extra : List Span := [⟨9, 3⟩, ⟨0x3A, 0x50⟩]
    let m : List Span := [⟨0x3A, 0x50⟩, ⟨0xFFFFFFFE, 0xFFFFFFFF⟩, ⟨9, 3⟩, ⟨0x30, 0x40⟩, ⟨0x41, 0x5A⟩]
    l.reverse.Perm l ∧ normalize l.reverse = normalize l ∧
      m.Perm (l ++ extra) ∧ (∀ s ∈ extra, Spare l s) ∧ normalize m = normalize l := by
  intro l extra m
  have hrev : l.reverse.Perm l := List.reverse_perm l
  have hm : m.Perm (l ++ extra) := by decide
  have hspare : ∀ s ∈ extra, Spare l s := by
    refine List.forall_mem_cons.2 ⟨.inl (by decide), List.forall_mem_singleton.2 (.inr fun c hc => ?_)⟩
    -- no single span of the list covers this one
    by_cases h : c ≤ 0x40
    · exact ⟨⟨0x30, 0x40⟩, by decide, UInt32.le_trans (by decide) hc.1, h⟩
    · refine ⟨⟨0x41, 0x5A⟩, by decide, ?_, UInt32.le_trans hc.2 (by decide)⟩
      rw [UInt32.le_iff_toNat_le] at h ⊢
      exact Nat.not_le.1 h
  obtain ⟨-, -, -, hperm, hadd, -⟩ := normalize_canonical l
  exact ⟨hrev, hperm _ hrev, hm, hspare, hadd m extra hm hspare⟩

example : normalize [⟨0x41, 0x5A⟩, ⟨0x30, 0x40⟩, ⟨9, 3⟩, ⟨0xFFFFFFFE, 0xFFFFFFFF⟩] =
    [⟨0x30, 0x5A⟩, ⟨0xFFFFFFFE, 0xFFFFFFFF⟩] := by cbv

/-! ## Merging -/

theorem union_eq_normalize (ha : Normal as) (hb : Normal bs) : union as bs = normalize (as ++ bs) := by
  refine (normal_union ha hb).eq_of_holds_iff (normal_normalize (as ++ bs)) fun c => ?_
  rw [holds_union ha hb, holds_normalize, holds_append]

end Spans

namespace CodeSet

theorem unions_eq_of_perm {l m : List CodeSet} (h : m.Perm l) : unions m = unions l := by
  ext c
  simp only [mem_unions, h.mem_iff]

theorem union_eq_ofSpans (s t : CodeSet) : s.union t = ofSpans (s.spans.toList ++ t.spans.toList) := by
  simp only [union, ofSpans, Spans.union_eq_normalize s.normal t.normal]

/-- **Union.**  To merge two sets span by span, as the loop does, is to normalize the spans of both.  The same goes for
    any number of sets that are joined one after the other, in any order. -/
theorem union_canonical (s t : CodeSet) (l : List CodeSet) :
    s.union t = ofSpans (s.spans.toList ++ t.spans.toList) ∧
    Spans.unionFrom s.spans.toList t.spans.toList 0 0 [] = (s.union t).spans.toList ∧
    (∀ c, c ∈ s.union t ↔ c ∈ s ∨ c ∈ t) ∧
    ∀ m : List CodeSet, m.Perm l → m.foldl union empty = ofSpans (l.flatMap (·.spans.toList)) := by
  refine ⟨union_eq_ofSpans s t, Spans.unionFrom_eq_union s.normal t.normal, fun c => mem_union, ?_⟩
  intro m hm
  rw [foldl_union, unions_eq_of_perm hm]
  rfl

theorem union_canonical_at :
    let s := ofSpans [⟨0, 5⟩, ⟨20, 0xFFFFFFFF⟩]
    let t := ofSpans [⟨6, 9⟩, ⟨11, 18⟩]
    let l := [s, t, single 10, all]
    l.reverse.Perm l ∧ s.union t = ofSpans (s.spans.toList ++ t.spans.toList) ∧
      l.reverse.foldl union empty = ofSpans (l.flatMap (·.spans.toList)) := by
  intro s t l
  have hl : l.reverse.Perm l := List.reverse_perm l
  obtain ⟨hunion, -, -, hfold⟩ := union_canonical s t l
  exact ⟨hl, hunion, hfold l.reverse hl⟩

end CodeSet
end RegexNotation
