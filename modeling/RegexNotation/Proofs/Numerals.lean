/-
  What hexadecimal numerals stand for.

  * `Hex.Numeral` says it without reading: digits of either case with their positional value, behind at most one sign;
  * `Hex.read?_eq_some_iff`: a text is read as a number iff it is a numeral of it;
  * `Hex.readWord?` reads in 32 bits, and gives up where a step would leave them.  `Hex.readWord?_eq` says that this
    loses no numeral of a number of 32 bits, however many zeros lead it, and never takes one number for another;
  * `Literal.codePoint_hex`: the three spellings by digits stand for the code point of their numeral, and for none if
    there is none.
-/
import Mathlib.Data.Nat.Digits.Defs
import RegexNotation.Proofs.CodePoints

namespace RegexNotation

namespace Hex

variable {c : Char} {d n k : Nat} {l : List Char}

/-! ## Numerals -/

/-- The character is the digit of the value `d`, in either case. -/
def IsDigitOf (d : Nat) (c : Char) : Prop := d < 16 ∧ (c = d.digitChar ∨ c = d.digitChar.toUpper)

/-- One or more digits with the positional value `n`. -/
def Digits (n : Nat) (l : List Char) : Prop :=
  l ≠ [] ∧ ∃ ds, List.Forall₂ IsDigitOf ds l ∧ Nat.ofDigits 16 ds.reverse = n

/-- Digits with the positional value `n`, behind at most one sign. -/
inductive Numeral (n : Nat) : List Char → Prop
  | unsigned {l : List Char} : Digits n l → Numeral n l
  | signed {l : List Char} : Digits n l → Numeral n ('+' :: l)

theorem digit?_digitChar : ∀ d < 16, digit? d.digitChar = some d := by decide

theorem digit?_eq_some_iff : digit? c = some d ↔ IsDigitOf d c := by
  constructor
  · have hdecimal : ∀ k < 10, Char.ofNat (k + 48) = k.digitChar := by decide
    have hlower : ∀ k < 16, 10 ≤ k → Char.ofNat (k + 87) = k.digitChar := by decide
    have hupper : ∀ k < 16, 10 ≤ k → Char.ofNat (k + 55) = k.digitChar.toUpper := by decide
    have hchar {k z : Nat} (h : c.toNat = k + z) : c = Char.ofNat (k + z) := by rw [← h, Char.ofNat_toNat]
    intro h
    rw [digit?] at h
    split at h
    · next hc =>
      obtain ⟨h1, h2⟩ : 48 ≤ c.toNat ∧ c.toNat ≤ 57 := hc
      obtain rfl := Option.some.inj h
      exact ⟨by omega, .inl ((hchar (by omega)).trans (hdecimal _ (by omega)))⟩
    split at h
    · next hc =>
      obtain ⟨h1, h2⟩ : 97 ≤ c.toNat ∧ c.toNat ≤ 102 := hc
      obtain rfl := Option.some.inj h
      exact ⟨by omega, .inl ((hchar (by omega)).trans (hlower _ (by omega) (by omega)))⟩
    split at h
    · next hc =>
      obtain ⟨h1, h2⟩ : 65 ≤ c.toNat ∧ c.toNat ≤ 70 := hc
      obtain rfl := Option.some.inj h
      exact ⟨by omega, .inr ((hchar (by omega)).trans (hupper _ (by omega) (by omega)))⟩
    · cases h
  · rintro ⟨hd, rfl | rfl⟩
    · exact digit?_digitChar d hd
    · exact digit?_toUpper_digitChar d hd

/-! ## Reading -/

theorem valueFrom_eq_some_iff : valueFrom n l = some k ↔
    ∃ ds, List.Forall₂ IsDigitOf ds l ∧ k = 16 ^ l.length * n + Nat.ofDigits 16 ds.reverse := by
  induction l generalizing n with
  | nil => simp [valueFrom, eq_comm]
  | cons c l ih =>
    -- the digits in front of `ds` have been moved up by all of its places
    have hplace {ds : List Nat} (h : List.Forall₂ IsDigitOf ds l) (d : Nat) :
        16 ^ l.length * (16 * n + d) + Nat.ofDigits 16 ds.reverse =
          16 ^ (c :: l).length * n + Nat.ofDigits 16 (d :: ds).reverse := by
      rw [List.reverse_cons, Nat.ofDigits_append, List.length_reverse, h.length_eq, Nat.ofDigits_singleton,
        List.length_cons, Nat.pow_succ]
      ring
    rw [valueFrom, Option.bind_eq_some_iff]
    simp only [digit?_eq_some_iff, ih]
    constructor
    · rintro ⟨d, hd, ds, hds, rfl⟩
      exact ⟨d :: ds, .cons hd hds, hplace hds d⟩
    · rintro ⟨_, _ | ⟨hd, hds⟩, rfl⟩
      exact ⟨_, hd, _, hds, (hplace hds _).symm⟩

theorem value?_eq_some_iff : value? l = some n ↔ Digits n l := by
  rcases l with _ | ⟨c, l⟩
  · exact iff_of_false (by simp [value?]) fun h => h.1 rfl
  · rw [value?, valueFrom_eq_some_iff]
    simp [Digits, eq_comm]

theorem not_digits_sign : ¬ Digits n ('+' :: l) := by
  rintro ⟨-, _, _ | ⟨hd, -⟩, -⟩
  exact absurd (digit?_eq_some_iff.2 hd) (by simp [digit?])

/-- **A text is read as a number iff it is a numeral of it.** -/
theorem read?_eq_some_iff : read? l = some n ↔ Numeral n l := by
  rw [read?.eq_def]
  split
  · next l =>
    rw [value?_eq_some_iff]
    constructor
    · exact .signed
    · rintro (h | h)
      · exact absurd h not_digits_sign
      · exact h
  · next hl =>
    rw [value?_eq_some_iff]
    constructor
    · exact .unsigned
    · rintro (h | h)
      · exact h
      · exact absurd rfl (hl _)

/-! ## Reading in 32 bits -/

/-- The value of digits of the value `w` and one more, unless it takes more than 32 bits. -/
def pushDigit? (w : UInt32) (d : Nat) : Option UInt32 :=
  if 16 * w.toNat < UInt32.size then
    if (16 * w).toNat + d < UInt32.size then some (16 * w + .ofNat d) else none
  else none

/-- The value of a run of digits, after digits of the value `w`. -/
def wordFrom (w : UInt32) : List Char → Option UInt32
  | [] => some w
  | c :: cs => (digit? c).bind fun d => (pushDigit? w d).bind fun w' => wordFrom w' cs

/-- The value of one or more digits. -/
def word? : List Char → Option UInt32
  | [] => none
  | c :: cs => wordFrom 0 (c :: cs)

/-- Reads a hexadecimal numeral of 32 bits, which may begin with one `+`. -/
def readWord? : List Char → Option UInt32
  | '+' :: cs => word? cs
  | cs => word? cs

/-- A number as one of 32 bits, if it is. -/
def toWord? (n : Nat) : Option UInt32 := if n < UInt32.size then some (.ofNat n) else none

theorem toWord?_eq_none (h : UInt32.size ≤ n) : toWord? n = none := if_neg (Nat.not_lt.2 h)

theorem pushDigit?_eq (w : UInt32) (d : Nat) : pushDigit? w d = toWord? (16 * w.toNat + d) := by
  rw [pushDigit?]
  split
  · next hmul =>
    have hw : (16 * w).toNat = 16 * w.toNat := by
      rw [UInt32.toNat_mul]
      exact Nat.mod_eq_of_lt hmul
    have hsum : 16 * w + UInt32.ofNat d = .ofNat (16 * w.toNat + d) := by
      rw [UInt32.ofNat_add, UInt32.ofNat_mul, UInt32.ofNat_toNat]
      rfl
    rw [hw, hsum]
    rfl
  · exact (toWord?_eq_none (by omega)).symm

/-- Digits only add to a value. -/
theorem le_of_valueFrom (h : valueFrom n l = some k) : n ≤ k := by
  obtain ⟨ds, -, rfl⟩ := valueFrom_eq_some_iff.1 h
  exact Nat.le_add_right_of_le (Nat.le_mul_of_pos_left _ (Nat.pow_pos (by decide)))

theorem wordFrom_eq (w : UInt32) (l : List Char) : wordFrom w l = (valueFrom w.toNat l).bind toWord? := by
  induction l generalizing w with
  | nil => simp [wordFrom, valueFrom, toWord?, UInt32.toNat_lt_size]
  | cons c l ih =>
    rw [wordFrom, valueFrom, Option.bind_assoc]
    congr 1
    funext d
    rw [pushDigit?_eq]
    by_cases h : 16 * w.toNat + d < UInt32.size
    · rw [toWord?, if_pos h, Option.bind_some, ih, UInt32.toNat_ofNat_of_lt' h]
    · -- the value has left 32 bits, and no digit brings it back
      rw [toWord?, if_neg h, Option.bind_none, eq_comm, Option.bind_eq_none_iff]
      intro k hk
      exact toWord?_eq_none (Nat.le_trans (Nat.not_lt.1 h) (le_of_valueFrom hk))

/-- **Reading in 32 bits is reading, as far as the numbers have 32 bits.** -/
theorem readWord?_eq (l : List Char) : readWord? l = (read? l).bind toWord? := by
  have hword (l : List Char) : word? l = (value? l).bind toWord? := by
    rcases l with _ | ⟨c, l⟩
    · rfl
    · exact wordFrom_eq 0 (c :: l)
  by_cases hl : ∃ cs, l = '+' :: cs
  · obtain ⟨cs, rfl⟩ := hl
    exact hword cs
  · have hsign : ∀ cs, l ≠ '+' :: cs := not_exists.1 hl
    rw [readWord?, read?]
    · exact hword l
    · exact hsign
    · exact hsign

end Hex

/-! ## Code points -/

/-- Whether a numeral is read in 32 bits first makes no difference to the code point that it stands for. -/
theorem codePointOfHex_eq (h : String) : codePointOfHex h =
    match Hex.readWord? h.toList with
    | some c => if c ≤ maxCodePoint then .ok c else .error (.invalidCodePoint h)
    | none => .error (.invalidCodePoint h) := by
  rw [codePointOfHex, Hex.readWord?_eq]
  rcases Hex.read? h.toList with _ | n
  · rfl
  · by_cases hn : n < UInt32.size
    · simp only [Option.bind_some, Hex.toWord?, if_pos hn, UInt32.le_iff_toNat_le, UInt32.toNat_ofNat_of_lt' hn]
    · have hmax : ¬ n ≤ maxCodePoint.toNat := fun h => hn (Nat.lt_of_le_of_lt h (by decide))
      simp only [Option.bind_some, Hex.toWord?, if_neg hn, if_neg hmax]

theorem codePointOfHex_eq_ok_iff {h : String} {c : UInt32} :
    codePointOfHex h = .ok c ↔ c.toNat ≤ 0x10FFFF ∧ Hex.Numeral c.toNat h.toList := by
  rw [← Hex.read?_eq_some_iff, codePointOfHex]
  rcases Hex.read? h.toList with _ | n
  · simp
  · have hword : n ≤ 0x10FFFF → (UInt32.ofNat n).toNat = n := fun hn =>
      UInt32.toNat_ofNat_of_lt' (Nat.lt_of_le_of_lt hn (by decide))
    simp only [show maxCodePoint.toNat = 0x10FFFF from rfl, Option.some.injEq]
    split
    · next hn =>
      rw [Except.ok.injEq]
      constructor
      · rintro rfl
        rw [hword hn]
        exact ⟨hn, rfl⟩
      · rintro ⟨-, rfl⟩
        exact UInt32.ofNat_toNat
    · next hn =>
      refine iff_of_false (by simp) ?_
      rintro ⟨hc, rfl⟩
      exact hn hc

theorem codePointOfHex_eq_error_iff {h : String} {e : MeaningError} :
    codePointOfHex h = .error e ↔ e = .invalidCodePoint h ∧ ∀ n ≤ 0x10FFFF, ¬ Hex.Numeral n h.toList := by
  simp only [← Hex.read?_eq_some_iff, codePointOfHex]
  rcases Hex.read? h.toList with _ | n
  · simp [eq_comm]
  · simp only [show maxCodePoint.toNat = 0x10FFFF from rfl, Option.some.injEq]
    split
    · next hn => exact iff_of_false (by simp) fun he => he.2 n hn rfl
    · next hn =>
      rw [Except.error.injEq, eq_comm]
      refine (and_iff_left ?_).symm
      rintro _ hk rfl
      exact hn hk

/-- **The three spellings by digits stand for the same**: for the Unicode code point whose numeral they are, and for
    none if they are a numeral of none; then the error holds the digits as they are.  Reading in 32 bits, which gives
    up where a step would leave them, comes to the same. -/
theorem Literal.codePoint_hex (h : String) : ∃ r,
    (hex2 h).codePoint = r ∧ (hex4 h).codePoint = r ∧ (hexBraced h).codePoint = r ∧
      (∀ c, r = .ok c ↔ c.toNat ≤ 0x10FFFF ∧ Hex.Numeral c.toNat h.toList) ∧
      (∀ e, r = .error e ↔ e = .invalidCodePoint h ∧ ∀ n ≤ 0x10FFFF, ¬ Hex.Numeral n h.toList) ∧
      r = match Hex.readWord? h.toList with
        | some c => if c ≤ maxCodePoint then .ok c else .error (.invalidCodePoint h)
        | none => .error (.invalidCodePoint h) :=
  ⟨codePointOfHex h, rfl, rfl, rfl, fun _ => codePointOfHex_eq_ok_iff, fun _ => codePointOfHex_eq_error_iff,
    codePointOfHex_eq h⟩

example : (Literal.hex2 "+000000000041").codePoint = .ok 0x41 := by decide

example : (Literal.hex4 "100000041").codePoint = .error (.invalidCodePoint "100000041") := by decide

end RegexNotation
