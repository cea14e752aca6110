/-
  Binary search.

  A search by halves asks a comparison on which side of the place sought an element lies.

  * `bisect` is that search for any comparison, and `CodeSet.search` is the one that looks for a code point among spans
    (`CodeSet.search_eq_bisect`).  Along an ascending list it finds an element that is equal exactly when there is one
    (`bisect_eq_true_iff`);
  * `Spans.Normal.ascending_side`: spans in normal form ascend towards any code point, whether it lies in one of them, in
    a gap, or beyond all of them;
  * `CodeSet.contains_exact`: so membership is found, by this search and by any other one that keeps the contract
    (`FindsEqual`).
-/
import RegexNotation.CodeSet.Lemmas

namespace RegexNotation

/-! ## Searching by a comparison -/

section

variable {α : Type} {f : α → Ordering} {xs : Array α}

/-- Along the list, the comparison answers `lt` for a while, then `eq`, then `gt`. -/
def Ascending (f : α → Ordering) (l : List α) : Prop :=
  l.Pairwise fun a b => (f b = .lt → f a = .lt) ∧ (f a = .gt → f b = .gt)

/-- The contract of a search: along an ascending list it finds an element that is equal exactly when there is one. -/
def FindsEqual (find : (α → Ordering) → List α → Bool) : Prop :=
  ∀ f l, Ascending f l → (find f l = true ↔ ∃ a ∈ l, f a = .eq)

/-- Whether the comparison is equal at one of the positions from `lo` up to, not including, `hi`. -/
def bisect (f : α → Ordering) (xs : Array α) (lo hi : Nat) (h : hi ≤ xs.size) : Bool :=
  if hlt : lo < hi then
    let mid := lo + (hi - lo) / 2
    have : mid < xs.size := by omega
    match f xs[mid] with
    | .lt => bisect f xs (mid + 1) hi h
    | .gt => bisect f xs lo mid (by omega)
    | .eq => true
  else false
termination_by hi - lo

/-- What lies before a smaller element is smaller, and what lies behind a greater one is greater. -/
theorem Ascending.of_le (hf : Ascending f xs.toList) {i j : Nat} (hij : i ≤ j) (hj : j < xs.size) :
    (f xs[j] = .lt → f xs[i] = .lt) ∧ (f xs[i] = .gt → f xs[j] = .gt) := by
  rcases Nat.lt_or_eq_of_le hij with hlt | rfl
  · exact List.pairwise_iff_getElem.1 hf i j (Nat.lt_trans hlt hj) hj hlt
  · exact ⟨id, id⟩

/-- No half that is given up holds an equal element. -/
theorem bisect_eq_true_iff (hf : Ascending f xs.toList) (lo hi : Nat) (h : hi ≤ xs.size) :
    bisect f xs lo hi h = true ↔ ∃ (i : Nat) (_ : i < xs.size), lo ≤ i ∧ i < hi ∧ f xs[i] = .eq := by
  fun_induction bisect f xs lo hi h with
  | case1 lo hi h hlt mid hmid hmiddle ih =>
    -- the first half is given up, and all in it is smaller
    rw [ih]
    constructor
    · rintro ⟨i, hsize, hlo, hhi, heq⟩
      exact ⟨i, hsize, by omega, hhi, heq⟩
    · rintro ⟨i, hsize, -, hhi, heq⟩
      refine ⟨i, hsize, Nat.lt_of_not_le fun hle => ?_, hhi, heq⟩
      rw [(hf.of_le hle hmid).1 hmiddle] at heq
      cases heq
  | case2 lo hi h hlt mid hmid hmiddle ih =>
    -- the second half is given up, and all in it is greater
    rw [ih]
    constructor
    · rintro ⟨i, hsize, hlo, hhi, heq⟩
      exact ⟨i, hsize, hlo, by omega, heq⟩
    · rintro ⟨i, hsize, hlo, -, heq⟩
      refine ⟨i, hsize, hlo, Nat.lt_of_not_le fun hle => ?_, heq⟩
      rw [(hf.of_le hle hsize).2 hmiddle] at heq
      cases heq
  | case3 lo hi h hlt mid hmid hmiddle =>
    simp only [true_iff]
    exact ⟨mid, hmid, by omega, by omega, hmiddle⟩
  | case4 lo hi h hge =>
    simp only [Bool.false_eq_true, false_iff]
    rintro ⟨i, -, hlo, hhi, -⟩
    omega

/-- The search by halves of a whole list keeps the contract. -/
theorem findsEqual_bisect :
    FindsEqual fun (f : α → Ordering) l => bisect f l.toArray 0 l.length (Nat.le_of_eq List.size_toArray.symm) := by
  intro f l hf
  rw [bisect_eq_true_iff hf]
  constructor
  · rintro ⟨i, hi, -, -, heq⟩
    exact ⟨l.toArray[i], Array.mem_toList_iff.2 (Array.getElem_mem hi), heq⟩
  · rintro ⟨a, ha, heq⟩
    obtain ⟨i, hi, rfl⟩ := List.getElem_of_mem ha
    exact ⟨i, by simpa using hi, Nat.zero_le i, hi, by simpa using heq⟩

end

/-! ## Spans on a line -/

/-- On which side of a code point a span lies: before it, behind it, or around it. -/
def Span.side (c : UInt32) (s : Span) : Ordering :=
  if s.last < c then .lt else if c < s.first then .gt else .eq

namespace Span

variable {c : UInt32} {s : Span}

theorem side_eq_lt_iff : s.side c = .lt ↔ s.last < c := by
  rw [side]
  split
  · next h => exact iff_of_true rfl h
  · next h => split <;> exact iff_of_false nofun h

theorem side_eq_gt_iff : s.side c = .gt ↔ c ≤ s.last ∧ c < s.first := by
  rw [side, ← UInt32.not_lt]
  split
  · next h => exact iff_of_false nofun fun hgt => hgt.1 h
  · next h =>
    split
    · next hgt => exact iff_of_true rfl ⟨h, hgt⟩
    · next hgt => exact iff_of_false nofun fun hgt' => hgt hgt'.2

theorem side_eq_eq_iff : s.side c = .eq ↔ c ∈ s := by
  rw [side, mem_iff, ← UInt32.not_lt, ← UInt32.not_lt, and_comm]
  split
  · next h => exact iff_of_false nofun fun hin => hin.1 h
  · next h =>
    split
    · next hgt => exact iff_of_false nofun fun hin => hin.2 hgt
    · next hgt => exact iff_of_true rfl ⟨h, hgt⟩

end Span

/-- In a normal list, the spans before one that lies before a code point do so too, and likewise behind it. -/
theorem Spans.Normal.ascending_side {l : List Span} (h : Normal l) (c : UInt32) : Ascending (Span.side c) l := by
  refine h.2.imp_of_mem fun {a b} ha hb hab => ?_
  have hale := UInt32.le_iff_toNat_le.1 (h.1 a ha)
  have hble := UInt32.le_iff_toNat_le.1 (h.1 b hb)
  unfold Apart at hab
  simp only [Span.side_eq_lt_iff, Span.side_eq_gt_iff, UInt32.lt_iff_toNat_lt, UInt32.le_iff_toNat_le]
  omega

/-! ## Membership -/

namespace CodeSet

theorem search_eq_bisect (spans : Array Span) (c : UInt32) (lo hi : Nat) (h : hi ≤ spans.size) :
    search spans c lo hi h = bisect (Span.side c) spans lo hi h := by
  fun_induction search spans c lo hi h with
  | case1 lo hi h hlt mid hmid hless ih =>
    have hside : spans[mid].side c = .lt := Span.side_eq_lt_iff.2 hless
    rw [ih, bisect.eq_def _ _ lo, dif_pos hlt]
    simp only [mid, hside]
  | case2 lo hi h hlt mid hmid hle hgreater ih =>
    have hside : spans[mid].side c = .gt := Span.side_eq_gt_iff.2 ⟨UInt32.not_lt.1 hle, hgreater⟩
    rw [ih, bisect.eq_def _ _ lo hi, dif_pos hlt]
    simp only [mid, hside]
  | case3 lo hi h hlt mid hmid hle hge =>
    have hside : spans[mid].side c = .eq := Span.side_eq_eq_iff.2 ⟨UInt32.not_lt.1 hge, UInt32.not_lt.1 hle⟩
    rw [bisect, dif_pos hlt]
    simp only [mid, hside]
  | case4 lo hi h hge => rw [bisect, dif_neg hge]

theorem contains_eq_bisect (s : CodeSet) (c : UInt32) :
    s.contains c = bisect (Span.side c) s.spans 0 s.spans.size (Nat.le_refl _) :=
  search_eq_bisect s.spans c 0 s.spans.size (Nat.le_refl _)

/-- **Membership.**  The binary search answers yes exactly when one of the spans holds the code point.  All that it asks
    of the spans is that they ascend, which they do, and so any search that keeps the contract gives the same answer. -/
theorem contains_exact (s : CodeSet) (c : UInt32) :
    (s.contains c = true ↔ ∃ r ∈ s.spans.toList, r.first ≤ c ∧ c ≤ r.last) ∧
    Ascending (Span.side c) s.spans.toList ∧
    ∀ find, FindsEqual find → find (Span.side c) s.spans.toList = s.contains c := by
  have hasc : Ascending (Span.side c) s.spans.toList := s.normal.ascending_side c
  have hscan : s.contains c = true ↔ ∃ r ∈ s.spans.toList, r.side c = .eq := by
    rw [contains_eq_bisect]
    exact findsEqual_bisect (Span.side c) s.spans.toList hasc
  refine ⟨?_, hasc, ?_⟩
  · rw [hscan]
    simp only [Span.side_eq_eq_iff, Span.mem_iff]
  · intro find hfind
    rw [Bool.eq_iff_iff, hfind (Span.side c) s.spans.toList hasc, hscan]

theorem contains_exact_at :
    let s := ofSpans [⟨0x41, 0x5A⟩, ⟨0x30, 0x39⟩, ⟨0xFFFFFFFE, 0xFFFFFFFF⟩]
    let find := fun (f : Span → Ordering) l => bisect f l.toArray 0 l.length (Nat.le_of_eq List.size_toArray.symm)
    FindsEqual find ∧ s.contains 0x5A = true ∧ s.contains 0xFFFFFFFF = true ∧ s.contains 0x3A = false ∧
      find (Span.side 0x3A) s.spans.toList = s.contains 0x3A := by
  intro s find
  have hfind : FindsEqual find := findsEqual_bisect
  obtain ⟨hletter, -⟩ := contains_exact s 0x5A
  obtain ⟨hword, -⟩ := contains_exact s 0xFFFFFFFF
  obtain ⟨hgap, -, hany⟩ := contains_exact s 0x3A
  refine ⟨hfind, hletter.2 (mem_ofSpans.2 (by decide)), hword.2 (mem_ofSpans.2 (by decide)), ?_, hany find hfind⟩
  rw [← Bool.not_eq_true, hgap]
  exact fun h => absurd (mem_ofSpans.1 h) (by decide)

end CodeSet
end RegexNotation
