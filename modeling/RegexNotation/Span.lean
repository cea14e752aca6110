/-
  Spans of code points.

  A span is the run of numbers from `first` to `last`, both included.  Bounds are 32-bit words: a span may
  lie outside the Unicode range, and it may be reversed, in which case it has no members.

  * `mem_iff` says what a span holds, `exists_mem_iff` that it is empty only when reversed;
  * `before?` and `after?` cut a span at the ends of another one: the bounds they compute are one less and
    one more as plain numbers (`toNat_of_before?`, `toNat_of_after?`), so that word arithmetic never wraps.
-/
import RegexNotation.Text.Hex

namespace RegexNotation

/-! ## Words -/

section Words

variable {c d : UInt32}

theorem toNat_add_one_of_lt (h : c < d) : (c + 1).toNat = c.toNat + 1 := by
  have hlt := UInt32.lt_iff_toNat_lt.1 h
  have hd := d.toNat_lt
  rw [UInt32.toNat_add]
  exact Nat.mod_eq_of_lt (Nat.lt_of_le_of_lt hlt hd)

theorem toNat_sub_one_of_lt (h : d < c) : (c - 1).toNat + 1 = c.toNat := by
  have hlt := UInt32.lt_iff_toNat_lt.1 h
  have h1 : (1 : UInt32) ≤ c := UInt32.le_iff_toNat_le.2 (Nat.lt_of_le_of_lt (Nat.zero_le _) hlt)
  rw [UInt32.toNat_sub_of_le c 1 h1]
  exact Nat.sub_add_cancel (UInt32.le_iff_toNat_le.1 h1)

end Words

/-! ## Spans -/

/-- The greatest Unicode code point. -/
def maxCodePoint : UInt32 := 0x10FFFF

/-- The code points from `first` to `last`, both included. -/
structure Span where
  first : UInt32
  last : UInt32
deriving DecidableEq

namespace Span

/-- The span of one code point. -/
def single (c : UInt32) : Span := ⟨c, c⟩

instance : Membership UInt32 Span := ⟨fun s c => s.first ≤ c ∧ c ≤ s.last⟩

instance (c : UInt32) (s : Span) : Decidable (c ∈ s) :=
  inferInstanceAs (Decidable (s.first ≤ c ∧ c ≤ s.last))

theorem mem_iff {c : UInt32} {s : Span} : c ∈ s ↔ s.first ≤ c ∧ c ≤ s.last := Iff.rfl

theorem mem_iff_toNat {c : UInt32} {s : Span} :
    c ∈ s ↔ s.first.toNat ≤ c.toNat ∧ c.toNat ≤ s.last.toNat := by
  rw [mem_iff, UInt32.le_iff_toNat_le, UInt32.le_iff_toNat_le]

/-- Spans are ordered by their first bound, then by their last. -/
instance : Ord Span := ⟨compareLex (compareOn first) (compareOn last)⟩

/-- A span has a member iff it is not reversed. -/
theorem exists_mem_iff {s : Span} : (∃ c, c ∈ s) ↔ s.first ≤ s.last :=
  ⟨fun ⟨_, h⟩ => UInt32.le_trans h.1 h.2, fun h => ⟨s.first, UInt32.le_refl _, h⟩⟩

/-- The text of a span: `0x61-0x7a`, or `0x5f` for one code point. -/
def text (s : Span) : String :=
  if s.first = s.last then Hex.lower s.first.toNat
  else Hex.lower s.first.toNat ++ "-" ++ Hex.lower s.last.toNat

/-! ## Cutting -/

/-- The part of `s` before the first bound of `t`, for spans that overlap. -/
def before? (s t : Span) : Option Span :=
  if s.first < t.first then some ⟨s.first, t.first - 1⟩ else none

/-- The part of `s` after the last bound of `t`, for spans that overlap. -/
def after? (s t : Span) : Option Span :=
  if t.last < s.last then some ⟨t.last + 1, s.last⟩ else none

theorem before?_eq_none {s t : Span} : s.before? t = none ↔ t.first ≤ s.first := by
  simp [before?]

theorem after?_eq_none {s t : Span} : s.after? t = none ↔ s.last ≤ t.last := by
  simp [after?]

/-- What lies before `t` ends one number before `t` begins. -/
theorem toNat_of_before? {s t r : Span} (h : s.before? t = some r) :
    s.first.toNat < t.first.toNat ∧ r.first = s.first ∧ r.last.toNat + 1 = t.first.toNat := by
  unfold before? at h
  split at h
  · next hlt =>
    obtain rfl := Option.some.inj h
    exact ⟨UInt32.lt_iff_toNat_lt.1 hlt, rfl, toNat_sub_one_of_lt hlt⟩
  · cases h

/-- What lies after `t` begins one number after `t` ends. -/
theorem toNat_of_after? {s t r : Span} (h : s.after? t = some r) :
    t.last.toNat < s.last.toNat ∧ r.last = s.last ∧ r.first.toNat = t.last.toNat + 1 := by
  unfold after? at h
  split at h
  · next hlt =>
    obtain rfl := Option.some.inj h
    exact ⟨UInt32.lt_iff_toNat_lt.1 hlt, rfl, toNat_add_one_of_lt hlt⟩
  · cases h

end Span
end RegexNotation
