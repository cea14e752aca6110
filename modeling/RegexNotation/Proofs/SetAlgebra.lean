/-
  Code sets as an algebra of sets.

  * `members` is the set of the members of a code set; a code set is determined by it, and each operation is the
    one on sets of the same name (`members_union`, `members_inter`, `members_diff`, `members_empty`);
  * so code sets are a generalized Boolean algebra, with `includes` as the order.  It has no greatest set, as the
    sets of words beyond the Unicode range are among them: `compl` is the difference from `all`, and taken twice it cuts
    a set off at the end of that range (`compl_compl_eq_inter_all`);
  * `set_algebra`: the laws of sets, as equations between lists of spans.
-/
import Mathlib.Order.BooleanAlgebra.Set
import RegexNotation.Proofs.CodeSets

namespace RegexNotation.CodeSet

variable {s t : CodeSet} {c : UInt32}

/-! ## Members -/

/-- The members of a code set. -/
def members (s : CodeSet) : Set UInt32 := {c | c ∈ s}

@[simp] theorem mem_members : c ∈ s.members ↔ c ∈ s := Iff.rfl

theorem members_injective : Function.Injective members := by
  intro s t h
  ext c
  rw [← mem_members, h, mem_members]

theorem members_empty : empty.members = ∅ := by
  ext c
  simp [not_mem_empty]

theorem members_union (s t : CodeSet) : (s.union t).members = s.members ∪ t.members := by
  ext c
  simp [mem_union]

theorem members_inter (s t : CodeSet) : (s.inter t).members = s.members ∩ t.members := by
  ext c
  simp [mem_inter]

theorem members_diff (s t : CodeSet) : (s.diff t).members = s.members \ t.members := by
  ext c
  simp [mem_diff]

/-! ## The algebra -/

instance : Max CodeSet := ⟨union⟩
instance : Min CodeSet := ⟨inter⟩
instance : SDiff CodeSet := ⟨diff⟩
instance : Bot CodeSet := ⟨empty⟩

instance : LE CodeSet := ⟨fun s t => t.includes s⟩
instance : LT CodeSet := ⟨fun s t => s ≤ t ∧ ¬ t ≤ s⟩

theorem includes_iff_le : s.includes t = true ↔ t ≤ s := Iff.rfl

theorem le_iff : s ≤ t ↔ ∀ c ∈ s, c ∈ t := includes_iff

instance : GeneralizedBooleanAlgebra CodeSet :=
  have hle {s t : CodeSet} : s.members ≤ t.members ↔ s ≤ t := le_iff.symm
  members_injective.generalizedBooleanAlgebra members hle (and_congr hle (not_congr hle))
    members_union members_inter members_empty members_diff

theorem le_all_iff : s ≤ all ↔ ∀ c ∈ s, c ≤ maxCodePoint := by
  simp only [le_iff, mem_all]

/-- Equality of spans decides equality of members. -/
theorem beq_iff : (s == t) = true ↔ ∀ c, c ∈ s ↔ c ∈ t := by
  rw [beq_iff_eq]
  constructor
  · rintro rfl c
    rfl
  · intro h
    ext c
    exact h c

theorem mem_foldl_union (l : List CodeSet) : c ∈ l.foldl union s ↔ c ∈ s ∨ ∃ t ∈ l, c ∈ t := by
  induction l generalizing s with
  | nil => simp
  | cons t l ih => simp [ih, mem_union, or_assoc]

/-- To join sets all at once or one after the other is the same. -/
theorem foldl_union (l : List CodeSet) : l.foldl union empty = unions l := by
  ext c
  rw [mem_foldl_union, mem_unions, or_iff_right not_mem_empty]

/-! ## Complements -/

/-- To take the complement twice cuts a set off at the end of the Unicode range. -/
theorem compl_compl_eq_inter_all (s : CodeSet) : s.compl.compl = s.inter all :=
  calc all \ (all \ s)
      = all ⊓ s := sdiff_sdiff_right_self
    _ = s ⊓ all := inf_comm all s

theorem compl_compl (h : s ≤ all) : s.compl.compl = s := (compl_compl_eq_inter_all s).trans (inf_eq_left.2 h)

theorem inter_compl_self (s : CodeSet) : s.inter s.compl = empty :=
  show s ⊓ (all \ s) = ⊥ from inf_sdiff_self_right

theorem compl_le_compl (h : s ≤ t) : t.compl ≤ s.compl := sdiff_le_sdiff_left h

theorem compl_union_compl (hs : s ≤ all) (ht : t ≤ all) : (s.compl.union t.compl).compl = s.inter t :=
  calc all \ (all \ s ⊔ all \ t)
      = all \ (all \ s) ⊓ all \ (all \ t) := sdiff_sup
    _ = s ⊓ t := by rw [sdiff_sdiff_eq_self hs, sdiff_sdiff_eq_self ht]

theorem inter_compl (h : s ≤ all) (t : CodeSet) : s.inter t.compl = s.diff t :=
  calc s ⊓ all \ t
      = (s ⊓ all) \ t := (inf_sdiff_assoc s all t).symm
    _ = s \ t := by rw [inf_eq_left.2 h]

/-- **The laws of sets.**  Two code sets with the same members have the same spans, and thus the operations obey the
    laws of set algebra.  Those of the complement hold in the Unicode range. -/
theorem set_algebra (r s t : CodeSet) :
    ((r == s) = true ↔ ∀ c, c ∈ r ↔ c ∈ s) ∧ ((∀ c, c ∈ r ↔ c ∈ s) → r.spans = s.spans) ∧
    (r.union s = s.union r ∧ r.inter s = s.inter r) ∧
    ((r.union s).union t = r.union (s.union t) ∧ (r.inter s).inter t = r.inter (s.inter t)) ∧
    (r.union r = r ∧ r.inter r = r) ∧
    (r.union (r.inter s) = r ∧ r.inter (r.union s) = r) ∧
    (r.union (s.inter t) = (r.union s).inter (r.union t) ∧ r.inter (s.union t) = (r.inter s).union (r.inter t)) ∧
    ((r.diff s).inter s = empty ∧ (∀ c ∈ r.diff s, c ∉ s) ∧ (r.diff s).union (r.inter s) = r) ∧
    ((∀ c ∈ r, c ≤ maxCodePoint) → (∀ c ∈ s, c ≤ maxCodePoint) →
      r.compl.compl = r ∧ r.inter s = (r.compl.union s.compl).compl ∧ r.diff s = r.inter s.compl) := by
  refine ⟨beq_iff, fun h => congrArg spans (eq_of_mem_iff h), ⟨sup_comm r s, inf_comm r s⟩,
    ⟨sup_assoc r s t, inf_assoc r s t⟩, ⟨sup_idem r, inf_idem r⟩, ⟨sup_inf_self, inf_sup_self⟩,
    ⟨sup_inf_left r s t, inf_sup_left r s t⟩, ⟨inf_sdiff_self_left, ?_, ?_⟩, ?_⟩
  · intro c hc
    exact (mem_diff.1 hc).2
  · exact (sup_comm (r \ s) (r ⊓ s)).trans (sup_inf_sdiff r s)
  · intro hr hs
    rw [← le_all_iff] at hr hs
    exact ⟨compl_compl hr, (compl_union_compl hr hs).symm, (inter_compl hr s).symm⟩

theorem set_algebra_at :
    let r := ofSpans [⟨0x61, maxCodePoint⟩, ⟨0, 0x40⟩]
    let s := ofSpans [⟨0x30, 0x70⟩, ⟨0xD800, 0xD800⟩]
    (∀ c ∈ r, c ≤ maxCodePoint) ∧ (∀ c ∈ s, c ≤ maxCodePoint) ∧
      r.compl.compl = r ∧ r.inter s = (r.compl.union s.compl).compl ∧ r.diff s = r.inter s.compl := by
  intro r s
  have hr : ∀ c ∈ r, c ≤ maxCodePoint := fun c => le_of_mem_ofSpans (by decide)
  have hs : ∀ c ∈ s, c ≤ maxCodePoint := fun c => le_of_mem_ofSpans (by decide)
  obtain ⟨-, -, -, -, -, -, -, -, hcompl⟩ := set_algebra r s empty
  exact ⟨hr, hs, hcompl hr hs⟩

end RegexNotation.CodeSet
