/-
  Inclusion and complements.

  * `Spans.includesFrom` is the loop of `includes`, with a cursor that is kept from one span to the next.  It has no
    result if a bound wraps around, and none does (`includesFrom_eq`);
  * `CodeSet.includes_exact`: the loop decides the relation of subsets, which can as well be read off a difference, a
    union or an intersection;
  * `CodeSet.compl_exact`: complements of any sets, also of those that reach beyond the Unicode range.  To take the
    complement twice is to cut a set off at the end of that range.
-/
import RegexNotation.Proofs.SetAlgebra
import RegexNotation.Proofs.Walks

namespace RegexNotation

/-! ## The loop of an inclusion -/

namespace Spans

/-- Whether the spans of `as` behind the first `i` hold those of the last argument.  A span that reaches beyond one of
    `as` must go on in the next.  There is no result if a bound wraps around. -/
def includesFrom (as : List Span) (i : Nat) : List Span → Option Bool
  | [] => some true
  | b :: bs =>
    if h : i < as.length then
      if as[i].last < b.first then includesFrom as (i + 1) (b :: bs)
      else if b.first < as[i].first then some false
      else do
        match ← b.cutAfter as[i] with
        | some rest => includesFrom as (i + 1) (rest :: bs)
        | none => includesFrom as i bs
    else some false
termination_by bs => bs.length + (as.length - i)

/-- No bound wraps around, from whatever turn of the loop: the answer is that for what is left of the lists. -/
theorem includesFrom_eq (as : List Span) (i : Nat) (bs : List Span) :
    includesFrom as i bs = some (includes (as.drop i) bs) := by
  fun_induction includesFrom as i bs with
  | case1 => rw [includes]
  | case2 i b bs hi hpass ih => rw [ih, List.drop_eq_getElem_cons hi, includes, if_pos hpass]
  | case3 i b bs hi hpass hfree => rw [List.drop_eq_getElem_cons hi, includes, if_neg hpass, if_pos hfree]
  | case4 i b bs hi hpass hfree ihrest ih =>
    rw [List.drop_eq_getElem_cons hi] at ih ⊢
    -- the cut is not refused, so the turn is that of `includes`
    rw [Span.cutAfter_eq, includes, if_neg hpass, if_neg hfree]
    cases hr : b.after? as[i] with
    | some rest => simp [ihrest]
    | none => simp [ih]
  | case5 i b bs hi => rw [List.drop_eq_nil_of_le (Nat.not_lt.1 hi), includes]

end Spans

namespace CodeSet

/-! ## Inclusion -/

/-- **Inclusion.**  The loop answers yes exactly when each code point of `t` is one of `s`, and that is the case exactly
    when nothing of `t` is left without `s`, when `t` adds nothing to `s`, and when `s` cuts nothing off from `t`.  It
    never adds one to the greatest word. -/
theorem includes_exact (s t : CodeSet) :
    (s.includes t = true ↔ ∀ c ∈ t, c ∈ s) ∧
    (s.includes t = true ↔ (t.diff s).isEmpty = true) ∧
    (s.includes t = true ↔ s.union t = s) ∧
    (s.includes t = true ↔ s.inter t = t) ∧
    Spans.includesFrom s.spans.toList 0 t.spans.toList = some (s.includes t) := by
  refine ⟨includes_iff, ?_, includes_iff_le.trans sup_eq_left.symm, includes_iff_le.trans inf_eq_right.symm,
    Spans.includesFrom_eq s.spans.toList 0 t.spans.toList⟩
  rw [isEmpty_iff]
  exact includes_iff_le.trans sdiff_eq_bot_iff.symm

theorem includes_exact_at :
    let s := ofNormal [⟨0, 9⟩, ⟨20, 0xFFFFFFFF⟩] (by decide)
    let t := ofNormal [⟨3, 5⟩, ⟨0xFFFFFFFE, 0xFFFFFFFF⟩] (by decide)
    let u := ofNormal [⟨8, 22⟩] (by decide)
    s.includes t = true ∧ (4 : UInt32) ∈ t ∧ (4 : UInt32) ∈ s ∧ (t.diff s).isEmpty = true ∧ s.union t = s ∧
      s.inter t = t ∧ s.includes u = false ∧ s.union u ≠ s := by
  intro s t u
  have ht : s.includes t = true := by cbv
  have hu : s.includes u = false := by cbv
  have h4 : (4 : UInt32) ∈ t := mem_ofNormal.2 (by decide)
  obtain ⟨hsub, hdiff, hunion, hinter, -⟩ := includes_exact s t
  obtain ⟨-, -, hunion', -, -⟩ := includes_exact s u
  refine ⟨ht, h4, hsub.1 ht 4 h4, hdiff.1 ht, hunion.1 ht, hinter.1 ht, hu, ?_⟩
  intro h
  rw [hunion'.2 h] at hu
  cases hu

/-! ## Complements -/

/-- **Complements.**  Whatever the set, its complement holds the Unicode code points that it does not hold.  The two have
    nothing in common, the complement of the complement is what the set holds of the Unicode range, and complements
    turn inclusion around. -/
theorem compl_exact (s : CodeSet) :
    (∀ c, c ∈ s.compl ↔ c ≤ maxCodePoint ∧ c ∉ s) ∧
    (s.inter s.compl = empty ∧ ∀ c ∈ s, c ∉ s.compl) ∧
    s.compl.compl = s.inter all ∧
    ∀ t : CodeSet, s.includes t = true → t.compl.includes s.compl = true := by
  refine ⟨fun c => mem_compl, ⟨inter_compl_self s, ?_⟩, compl_compl_eq_inter_all s, ?_⟩
  · intro c hc hcompl
    exact (mem_compl.1 hcompl).2 hc
  · intro t h
    exact includes_iff_le.2 (compl_le_compl (includes_iff_le.1 h))

theorem compl_exact_at :
    let s := ofNormal [⟨0, 9⟩, ⟨0x10FFF0, 0x110005⟩, ⟨0xFFFFFFF0, 0xFFFFFFFF⟩] (by decide)
    let t := ofNormal [⟨0x10FFFE, 0x110003⟩] (by decide)
    s.includes t = true ∧ t.compl.includes s.compl = true ∧ (0x10FFFF : UInt32) ∈ s ∧ 0x10FFFF ∉ s.compl := by
  intro s t
  have h : s.includes t = true := by cbv
  have hc : (0x10FFFF : UInt32) ∈ s := mem_ofNormal.2 (by decide)
  obtain ⟨-, ⟨-, hdisj⟩, -, hanti⟩ := compl_exact s
  exact ⟨h, hanti t h, hc, hdisj _ hc⟩

end CodeSet
end RegexNotation
