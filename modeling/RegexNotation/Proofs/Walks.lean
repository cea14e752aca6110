/-
  The walks over lists of spans, in the arithmetic of 32-bit words.

  `Spans` measures gaps in natural numbers, and its cuts subtract and add words that could wrap around.  Here the walks
  are loops that move cursors over the lists and put spans out, and all they compute are words:

  * `absorb` puts out a span, or lets the one put out last grow when the two touch, where one more than the greatest
    word is that word again.  The loop `unionFrom` does so with the heads of two lists in turn.  Over sorted spans that
    is the sweep of `coalesce` (`foldl_absorb_eq_coalesce`, `unionFrom_eq_union`);
  * `diffFrom` is the loop of `diff`.  It has no result if a bound wraps around, and none does (`diffFrom_eq`).

  With these, `diff_exact` and `inter_exact` say what differences and intersections are.
-/
import RegexNotation.Proofs.CodeSets

namespace RegexNotation

/-! ## Words -/

section Words

variable {c d : UInt32}

/-- One more, if a word can hold it. -/
def checkedSucc (c : UInt32) : Option UInt32 := if c < 0xFFFFFFFF then some (c + 1) else none

/-- One less, if a word can hold it. -/
def checkedPred (c : UInt32) : Option UInt32 := if 0 < c then some (c - 1) else none

/-- One more, but never more than the greatest word. -/
def saturatingSucc (c : UInt32) : UInt32 := (checkedSucc c).getD c

theorem checkedSucc_eq_none_iff : checkedSucc c = none ↔ 0xFFFFFFFF ≤ c.toNat := by
  rw [checkedSucc, ite_eq_right_iff, imp_iff_not (Option.some_ne_none _), UInt32.not_lt, UInt32.le_iff_toNat_le]
  rfl

theorem checkedSucc_eq_some_iff : checkedSucc c = some d ↔ d.toNat = c.toNat + 1 := by
  by_cases h : c < 0xFFFFFFFF
  · rw [checkedSucc, if_pos h, Option.some_inj, ← UInt32.toNat_inj, toNat_add_one_of_lt h]
    exact eq_comm
  · have hnone : checkedSucc c = none := if_neg h
    have hc := checkedSucc_eq_none_iff.1 hnone
    have hd := d.toNat_lt
    rw [hnone]
    simp only [reduceCtorEq, false_iff]
    omega

theorem checkedPred_eq_some_iff : checkedPred c = some d ↔ d.toNat + 1 = c.toNat := by
  by_cases h : 0 < c
  · rw [checkedPred, if_pos h, Option.some_inj, ← UInt32.toNat_inj, ← toNat_sub_one_of_lt h]
    exact ⟨fun hd => hd ▸ rfl, fun hd => (Nat.succ_inj.1 hd).symm⟩
  · rw [checkedPred, if_neg h]
    have hc : c.toNat ≤ 0 := UInt32.le_iff_toNat_le.1 (UInt32.not_lt.1 h)
    simp only [reduceCtorEq, false_iff]
    omega

/-- No word lies beyond the greatest one, so a test against a sum that saturates is the test in natural numbers. -/
theorem le_saturatingSucc_iff : d ≤ saturatingSucc c ↔ d.toNat ≤ c.toNat + 1 := by
  rw [UInt32.le_iff_toNat_le, saturatingSucc]
  cases h : checkedSucc c with
  | some e => rw [Option.getD_some, checkedSucc_eq_some_iff.1 h]
  | none =>
    have hc := checkedSucc_eq_none_iff.1 h
    have hd := d.toNat_lt
    rw [Option.getD_none]
    omega

end Words

/-! ## Spans -/

namespace Span

variable {s t : Span}

/-- The spans overlap, or stand next to each other. -/
def touches (s t : Span) : Bool := t.first ≤ saturatingSucc s.last && s.first ≤ saturatingSucc t.last

/-- Spans touch exactly when there is no gap between them: saturation never bridges one. -/
theorem touches_iff : s.touches t = true ↔ ¬ Spans.Apart s t ∧ ¬ Spans.Apart t s := by
  rw [touches, Bool.and_eq_true, decide_eq_true_eq, decide_eq_true_eq, le_saturatingSucc_iff, le_saturatingSucc_iff,
    Spans.Apart, Spans.Apart, Nat.not_lt, Nat.not_lt]

/-- `before?`, with no result if the bound wraps around. -/
def cutBefore (s t : Span) : Option (Option Span) :=
  if s.first < t.first then (checkedPred t.first).map fun last => some ⟨s.first, last⟩ else some none

/-- `after?`, with no result if the bound wraps around. -/
def cutAfter (s t : Span) : Option (Option Span) :=
  if t.last < s.last then (checkedSucc t.last).map fun first => some ⟨first, s.last⟩ else some none

theorem cutBefore_eq (s t : Span) : s.cutBefore t = some (s.before? t) := by
  cases h : s.before? t with
  | none => rw [cutBefore, if_neg (UInt32.not_lt.2 (before?_eq_none.1 h))]
  | some r =>
    obtain ⟨hlt, hf, hl⟩ := toNat_of_before? h
    rw [cutBefore, if_pos (UInt32.lt_iff_toNat_lt.2 hlt), checkedPred_eq_some_iff.2 hl, ← hf]
    rfl

theorem cutAfter_eq (s t : Span) : s.cutAfter t = some (s.after? t) := by
  cases h : s.after? t with
  | none => rw [cutAfter, if_neg (UInt32.not_lt.2 (after?_eq_none.1 h))]
  | some r =>
    obtain ⟨hlt, hl, hf⟩ := toNat_of_after? h
    rw [cutAfter, if_pos (UInt32.lt_iff_toNat_lt.2 hlt), checkedSucc_eq_some_iff.2 hf, ← hl]
    rfl

end Span

namespace Spans

variable {as bs l out : List Span} {reach s : Span}

/-! ## Joining as the spans come -/

/-- Puts a span behind the others, or lets the last of them grow by it when the two touch. -/
def absorb (out : List Span) (s : Span) : List Span :=
  match out.getLast? with
  | some r => if r.touches s then out.dropLast ++ [⟨r.first, max r.last s.last⟩] else out ++ [s]
  | none => [s]

theorem absorb_concat : absorb (out ++ [reach]) s =
    if reach.touches s then out ++ [⟨reach.first, max reach.last s.last⟩] else out ++ [reach] ++ [s] := by
  simp [absorb]

/-- In a sorted list a gap can only lie behind the first of two spans. -/
theorem touches_iff_of_sorted (h : Sorted (reach :: s :: l)) :
    reach.touches s = true ↔ s.first.toNat ≤ reach.last.toNat + 1 := by
  obtain ⟨-, hle, hs⟩ := sorted_cons.1 h
  have hfirst := UInt32.le_iff_toNat_le.1 (hle s List.mem_cons_self)
  have hlast := UInt32.le_iff_toNat_le.1 (sorted_cons.1 hs).1
  rw [Span.touches_iff, Apart, Apart]
  omega

/-- All that was put out stays as it is, except for its last span, from which the sweep goes on. -/
theorem foldl_absorb_concat (out : List Span) (h : Sorted (reach :: l)) :
    l.foldl absorb (out ++ [reach]) = out ++ sweep reach l := by
  induction l generalizing out reach with
  | nil => simp [sweep]
  | cons s l ih =>
    rw [List.foldl_cons, absorb_concat, sweep]
    by_cases ht : s.first.toNat ≤ reach.last.toNat + 1
    · rw [if_pos ht, if_pos ((touches_iff_of_sorted h).2 ht), ih out h.grow]
    · rw [if_neg ht, if_neg (mt (touches_iff_of_sorted h).1 ht), ih (out ++ [reach]) (sorted_cons.1 h).2.2]
      simp

theorem foldl_absorb_eq_coalesce (h : Sorted l) : l.foldl absorb [] = coalesce l := by
  cases l with
  | nil => rfl
  | cons s l => exact foldl_absorb_concat [] h

/-! ## The loop of a union -/

/-- Puts out the spans of `as` and `bs` behind the first `i` and `j`, the one that begins first before the other. -/
def unionFrom (as bs : List Span) (i j : Nat) (out : List Span) : List Span :=
  if hi : i < as.length then
    if hj : j < bs.length then
      if as[i].first ≤ bs[j].first then unionFrom as bs (i + 1) j (absorb out as[i])
      else unionFrom as bs i (j + 1) (absorb out bs[j])
    else unionFrom as bs (i + 1) j (absorb out as[i])
  else if hj : j < bs.length then unionFrom as bs i (j + 1) (absorb out bs[j])
  else out
termination_by (as.length - i) + (bs.length - j)

theorem unionFrom_eq_foldl (as bs : List Span) (i j : Nat) (out : List Span) :
    unionFrom as bs i j out = ((as.drop i).merge (bs.drop j) startsBefore).foldl absorb out := by
  fun_induction unionFrom as bs i j out with
  | case1 i j out hi hj hle ih =>
    have hs : startsBefore as[i] bs[j] = true := decide_eq_true hle
    rw [ih, List.drop_eq_getElem_cons hi, List.drop_eq_getElem_cons hj, List.cons_merge_cons, if_pos hs,
      List.foldl_cons]
  | case2 i j out hi hj hle ih =>
    have hs : ¬ startsBefore as[i] bs[j] = true := mt of_decide_eq_true hle
    rw [ih, List.drop_eq_getElem_cons hi, List.drop_eq_getElem_cons hj, List.cons_merge_cons, if_neg hs,
      List.foldl_cons]
  | case3 i j out hi hj ih =>
    rw [ih, List.drop_eq_nil_of_le (Nat.not_lt.1 hj), List.merge_right, List.merge_right,
      List.drop_eq_getElem_cons hi, List.foldl_cons]
  | case4 i j out hi hj ih =>
    rw [ih, List.drop_eq_nil_of_le (Nat.not_lt.1 hi), List.nil_merge, List.nil_merge,
      List.drop_eq_getElem_cons hj, List.foldl_cons]
  | case5 i j out hi hj =>
    rw [List.drop_eq_nil_of_le (Nat.not_lt.1 hi), List.drop_eq_nil_of_le (Nat.not_lt.1 hj), List.nil_merge,
      List.foldl_nil]

theorem unionFrom_eq_union (ha : Normal as) (hb : Normal bs) : unionFrom as bs 0 0 [] = union as bs := by
  rw [unionFrom_eq_foldl, List.drop_zero, List.drop_zero]
  exact foldl_absorb_eq_coalesce (sorted_merge ha.sorted hb.sorted)

/-! ## The loop of a difference -/

/-- Takes the spans of `bs` behind the first `j` away from those of its last argument, and puts out what is left.  A
    span of `bs` that reaches beyond one of the others is kept for the next.  There is no result if a bound wraps
    around. -/
def diffFrom (bs : List Span) (j : Nat) (out : List Span) : List Span → Option (List Span)
  | [] => some out
  | a :: as =>
    if h : j < bs.length then
      if bs[j].last < a.first then diffFrom bs (j + 1) out (a :: as)
      else if a.last < bs[j].first then diffFrom bs j (out ++ [a]) as
      else do
        let left ← a.cutBefore bs[j]
        match ← a.cutAfter bs[j] with
        | some rest => diffFrom bs (j + 1) (out ++ left.toList) (rest :: as)
        | none => diffFrom bs j (out ++ left.toList) as
    else diffFrom bs j (out ++ [a]) as
termination_by as => as.length + (bs.length - j)

theorem diff_nil (as : List Span) : diff as [] = as := by
  cases as <;> rw [diff]

/-- No bound wraps around, from whatever turn of the loop: what is still to come is the difference of what is left. -/
theorem diffFrom_eq (bs : List Span) (j : Nat) (out as : List Span) :
    diffFrom bs j out as = some (out ++ diff as (bs.drop j)) := by
  fun_induction diffFrom bs j out as with
  | case1 => rw [diff, List.append_nil]
  | case2 j out a as hj hpass ih => rw [ih, List.drop_eq_getElem_cons hj, diff, if_pos hpass]
  | case3 j out a as hj hpass hfree ih =>
    rw [ih, List.drop_eq_getElem_cons hj, diff, if_neg hpass, if_pos hfree, List.append_assoc]
    rfl
  | case4 j out a as hj hpass hfree ihrest ih =>
    -- no cut is refused, so the turn is that of `diff`
    rw [Span.cutBefore_eq, Span.cutAfter_eq, List.drop_eq_getElem_cons hj, diff, if_neg hpass, if_neg hfree]
    cases hr : a.after? bs[j] with
    | some rest => simp [ihrest]
    | none => simp [ih]
  | case5 j out a as hj ih =>
    rw [ih, List.drop_eq_nil_of_le (Nat.not_lt.1 hj), diff_nil, diff_nil, List.append_assoc]
    rfl

/-- **Difference.**  Of two normal lists, whatever their bounds, it holds what the first one holds and the second does
    not, and it is in normal form.  The loop that computes it never takes one from 0 nor adds one to the greatest
    word. -/
theorem diff_exact (ha : Normal as) (hb : Normal bs) :
    (∀ c, Holds (diff as bs) c ↔ Holds as c ∧ ¬ Holds bs c) ∧ Normal (diff as bs) ∧
      diffFrom bs 0 [] as = some (diff as bs) :=
  ⟨fun _ => holds_diff ha hb, normal_diff ha hb, diffFrom_eq bs 0 [] as⟩

theorem diff_exact_at :
    let as : List Span := [⟨0, 5⟩, ⟨10, 15⟩, ⟨20, 0xFFFFFFFF⟩]
    let bs : List Span := [⟨0, 0⟩, ⟨3, 22⟩, ⟨0xFFFFFFFE, 0xFFFFFFFF⟩]
    Normal as ∧ Normal bs ∧ (∀ c, Holds (diff as bs) c ↔ Holds as c ∧ ¬ Holds bs c) ∧ Normal (diff as bs) ∧
      diffFrom bs 0 [] as = some (diff as bs) := by
  intro as bs
  have ha : Normal as := by decide
  have hb : Normal bs := by decide
  exact ⟨ha, hb, diff_exact ha hb⟩

example : diff [⟨0, 5⟩, ⟨10, 15⟩, ⟨20, 0xFFFFFFFF⟩] [⟨0, 0⟩, ⟨3, 22⟩, ⟨0xFFFFFFFE, 0xFFFFFFFF⟩] =
    [⟨1, 2⟩, ⟨23, 0xFFFFFFFD⟩] := by cbv

/-! ## Intersection by way of differences -/

/-- What is left when all that is not in `bs` is taken away. -/
theorem diff_diff (ha : Normal as) (hb : Normal bs) : diff as (diff as bs) = inter as bs := by
  have hd : Normal (diff as bs) := normal_diff ha hb
  refine (normal_diff ha hd).eq_of_holds_iff (normal_inter ha hb) fun c => ?_
  rw [holds_diff ha hd, holds_diff ha hb, holds_inter ha hb]
  by_cases hc : Holds bs c
  · simp [hc]
  · simp [hc]

/-- **Intersection.**  Of two normal lists, whatever their bounds, it holds what both of them hold, and it is in normal
    form although no two of its spans are ever joined.  To take away twice gives the same list. -/
theorem inter_exact (ha : Normal as) (hb : Normal bs) :
    (∀ c, Holds (inter as bs) c ↔ Holds as c ∧ Holds bs c) ∧ Normal (inter as bs) ∧
      inter as bs = diff as (diff as bs) :=
  ⟨fun _ => holds_inter ha hb, normal_inter ha hb, (diff_diff ha hb).symm⟩

theorem inter_exact_at :
    let as : List Span := [⟨0, 5⟩, ⟨7, 30⟩, ⟨0xFFFFFFF0, 0xFFFFFFFF⟩]
    let bs : List Span := [⟨3, 10⟩, ⟨12, 30⟩, ⟨40, 0xFFFFFFFF⟩]
    Normal as ∧ Normal bs ∧ (∀ c, Holds (inter as bs) c ↔ Holds as c ∧ Holds bs c) ∧ Normal (inter as bs) ∧
      inter as bs = diff as (diff as bs) := by
  intro as bs
  have ha : Normal as := by decide
  have hb : Normal bs := by decide
  exact ⟨ha, hb, inter_exact ha hb⟩

end Spans
end RegexNotation
