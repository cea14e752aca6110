/-
  Spellings of code points.

  * `read?_upper`: the hexadecimal digits of a number read as that number, whatever their width;
  * `codePoint_ofCodePoint`: the spelling of a number stands for that number if it is a Unicode code point, and
    for none otherwise;
  * `valid_ofCodePoint_iff`: the spelling is one of the notation iff the number has at most six digits.
-/
import RegexNotation.Proofs.CodeSets
import RegexNotation.Proofs.Spelling
import RegexNotation.Regex.Meaning
import RegexNotation.Regex.OfCodeSet

namespace RegexNotation

/-! ## Hexadecimal numerals -/

namespace Hex

variable {l m : List Char} {n k : Nat}

theorem digit?_toUpper_digitChar : ∀ d < 16, digit? d.digitChar.toUpper = some d := by decide

theorem valueFrom_append (n : Nat) (l m : List Char) :
    valueFrom n (l ++ m) = (valueFrom n l).bind fun k => valueFrom k m := by
  induction l generalizing n with
  | nil => rfl
  | cons c l ih =>
    rw [List.cons_append, valueFrom, valueFrom]
    cases digit? c with
    | none => rfl
    | some d => exact ih _

theorem isDigit_of_valueFrom (h : valueFrom n l = some k) : ∀ c ∈ l, isDigit c := by
  induction l generalizing n with
  | nil => rintro c ⟨⟩
  | cons c l ih =>
    obtain ⟨d, hd, h⟩ := Option.bind_eq_some_iff.1 h
    exact List.forall_mem_cons.2 ⟨by rw [isDigit, hd]; rfl, ih h⟩

theorem valueFrom_toDigits (n : Nat) : valueFrom 0 ((Nat.toDigits 16 n).map Char.toUpper) = some n := by
  induction n using Nat.strongRecOn with
  | _ n ih =>
    by_cases hn : n < 16
    · rw [Nat.toDigits_of_lt_base hn]
      simp [valueFrom, digit?_toUpper_digitChar n hn]
    · rw [Nat.toDigits_of_base_le (by decide) (by omega), List.map_append, valueFrom_append,
        ih _ (by omega)]
      simp only [List.map_cons, List.map_nil, Option.bind_some, valueFrom,
        digit?_toUpper_digitChar _ (Nat.mod_lt n (by decide))]
      rw [Nat.div_add_mod]

theorem valueFrom_replicate_append (k : Nat) (l : List Char) :
    valueFrom 0 (List.replicate k '0' ++ l) = valueFrom 0 l := by
  induction k with
  | zero => rfl
  | succ k ih => exact ih

theorem valueFrom_upper (width n : Nat) : valueFrom 0 (upper width n).toList = some n := by
  rw [upper, String.toList_ofList, List.leftpad, valueFrom_replicate_append]
  exact valueFrom_toDigits n

theorem length_upper (width n : Nat) :
    (upper width n).toList.length = max width (Nat.toDigits 16 n).length := by
  rw [upper, String.toList_ofList, List.length_leftpad, List.length_map]

/-- Digits are read without a sign. -/
theorem read?_eq_value? (h : ∀ c ∈ l, isDigit c) : read? l = value? l := by
  rw [read?]
  rintro cs rfl
  exact absurd (h '+' List.mem_cons_self) (by decide)

theorem read?_upper (width n : Nat) : read? (upper width n).toList = some n := by
  have h := valueFrom_upper width n
  rw [read?_eq_value? (isDigit_of_valueFrom h)]
  rcases hl : (upper width n).toList with _ | ⟨c, l⟩
  · have hlen := length_upper width n
    have hpos := Nat.length_toDigits_pos (b := 16) (n := n)
    rw [hl, List.length_nil] at hlen
    omega
  · rw [value?, ← hl]
    exact h

theorem length_upper_of_le {width : Nat} (h : (Nat.toDigits 16 n).length ≤ width) :
    (upper width n).toList.length = width := by
  rw [length_upper]
  exact Nat.max_eq_left h

end Hex

/-! ## The choice of a spelling -/

variable {c : UInt32}

theorem controlLetter?_eq_some {l : Char} (h : Alphabet.controlLetter? c = some l) :
    ∃ x, Alphabet.control? l = some x ∧ x.val = c := by
  obtain ⟨⟨l', x⟩, hf, rfl⟩ := Option.map_eq_some_iff.1 h
  have hx : x.val = c := by simpa using List.find?_some hf
  refine ⟨x, ?_, hx⟩
  have hm := List.mem_of_find?_eq_some hf
  simp only [Alphabet.controls, List.mem_cons, List.not_mem_nil, or_false, Prod.mk.injEq] at hm
  rcases hm with ⟨rfl, rfl⟩ | ⟨rfl, rfl⟩ | ⟨rfl, rfl⟩ | ⟨rfl, rfl⟩ | ⟨rfl, rfl⟩ <;> decide

theorem isQuoted_iff : isQuoted c ↔ ∃ x : Char, x.val = c ∧ (x = '-' ∨ Alphabet.isReserved x) := by
  simp only [isQuoted, Alphabet.isReserved, Bool.or_eq_true, decide_eq_true_eq, List.any_eq_true,
    List.contains_iff_mem]
  constructor
  · rintro (rfl | ⟨x, hx, rfl⟩)
    · exact ⟨'-', rfl, .inl rfl⟩
    · exact ⟨x, rfl, .inr hx⟩
  · rintro ⟨x, rfl, rfl | hx⟩
    · exact .inl rfl
    · exact .inr ⟨x, hx, rfl⟩

/-- How a code point may be spelled. -/
inductive SpellingOf (c : UInt32) : Literal → Prop
  | control {l x} : Alphabet.control? l = some x → x.val = c → SpellingOf c (.control l)
  | escaped {x : Char} : x.val = c → x = '-' ∨ Alphabet.isReserved x → SpellingOf c (.escaped x)
  | plain {x : Char} : x.val = c → x ≠ '-' → Alphabet.isReserved x = false → SpellingOf c (.plain x)
  | hex2 : c ≤ 0xFF → SpellingOf c (.hex2 (Hex.upper 2 c.toNat))
  | hex4 : c ≤ 0xFFFF → SpellingOf c (.hex4 (Hex.upper 4 c.toNat))
  | hexBraced : ¬ c ≤ 0xFFFF → SpellingOf c (.hexBraced (Hex.upper 1 c.toNat))

theorem spellingOf_ofCodePoint (c : UInt32) : SpellingOf c (.ofCodePoint c) := by
  rw [Literal.ofCodePoint]
  split
  · next l hl =>
    obtain ⟨x, hx, hc⟩ := controlLetter?_eq_some hl
    exact .control hx hc
  split
  · next hq =>
    obtain ⟨x, rfl, hx⟩ := isQuoted_iff.1 hq
    rw [show Char.ofNat x.val.toNat = x from Char.ofNat_toNat x]
    exact .escaped rfl hx
  next hq =>
  split
  · next hr =>
    have hlt : c.toNat < 0xd800 := by
      have := UInt32.le_iff_toNat_le.1 hr.2
      have h126 : '~'.val.toNat = 126 := rfl
      omega
    obtain ⟨x, rfl⟩ : ∃ x : Char, x.val = c := ⟨⟨c, .inl hlt⟩, rfl⟩
    rw [show Char.ofNat x.val.toNat = x from Char.ofNat_toNat x]
    refine .plain rfl (fun h => hq (isQuoted_iff.2 ⟨x, rfl, .inl h⟩)) ?_
    rw [← Bool.not_eq_true]
    exact fun h => hq (isQuoted_iff.2 ⟨x, rfl, .inr h⟩)
  split
  · next hle =>
    exact .hex2 hle
  split
  · next hle =>
    exact .hex4 hle
  · next hle => exact .hexBraced hle

theorem codePointOfHex_upper (width : Nat) (c : UInt32) : codePointOfHex (Hex.upper width c.toNat) =
    if c ≤ maxCodePoint then .ok c else .error (.invalidCodePoint (Hex.upper width c.toNat)) := by
  rw [codePointOfHex, Hex.read?_upper]
  simp only [UInt32.ofNat_toNat, UInt32.le_iff_toNat_le]

/-- The spelling of a Unicode code point stands for it. -/
theorem codePoint_ofCodePoint (h : c ≤ maxCodePoint) : (Literal.ofCodePoint c).codePoint = .ok c := by
  have hs := spellingOf_ofCodePoint c
  generalize Literal.ofCodePoint c = a at hs
  cases hs with
  | control hl hx => rw [Literal.codePoint, hl, ← hx]
  | escaped hx => rw [Literal.codePoint, hx]
  | plain hx => rw [Literal.codePoint, hx]
  | hex2 | hex4 | hexBraced => rw [Literal.codePoint, codePointOfHex_upper, if_pos h]

/-- The spelling of any other number stands for none. -/
theorem codePoint_ofCodePoint_eq_error (h : ¬ c ≤ maxCodePoint) :
    ∃ t, (Literal.ofCodePoint c).codePoint = .error (.invalidCodePoint t) := by
  have hs := spellingOf_ofCodePoint c
  generalize Literal.ofCodePoint c = a at hs
  cases hs with
  | control _ hx => exact absurd (hx ▸ val_le_maxCodePoint _) h
  | escaped hx => exact absurd (hx ▸ val_le_maxCodePoint _) h
  | plain hx => exact absurd (hx ▸ val_le_maxCodePoint _) h
  | hex2 | hex4 | hexBraced => exact ⟨_, by rw [Literal.codePoint, codePointOfHex_upper, if_neg h]⟩

theorem isEscapable_of_isQuoted {x : Char} (h : x = '-' ∨ Alphabet.isReserved x) :
    Alphabet.isEscapable x := by
  have h : x ∈ '-' :: Alphabet.reserved := by
    rcases h with rfl | h
    · exact List.mem_cons_self
    · exact List.mem_cons_of_mem _ (List.contains_iff_mem.1 h)
  have hall : ('-' :: Alphabet.reserved).all Alphabet.isEscapable := by decide
  exact List.all_eq_true.1 hall x h

theorem isDigit_of_mem_upper {width n : Nat} : ∀ x ∈ (Hex.upper width n).toList, Hex.isDigit x :=
  Hex.isDigit_of_valueFrom (Hex.valueFrom_upper width n)

theorem length_toDigits_le_iff {k : Nat} {max : UInt32} (hk : 0 < k) (h : max.toNat + 1 = Nat.pow 16 k) :
    (Nat.toDigits 16 c.toNat).length ≤ k ↔ c ≤ max := by
  rw [Nat.length_toDigits_le_iff (by decide) hk, UInt32.le_iff_toNat_le, ← Nat.lt_succ_iff]
  exact iff_of_eq (congrArg (c.toNat < ·) h.symm)

/-- The notation can spell the numbers of at most six hexadecimal digits. -/
theorem valid_ofCodePoint_iff : (Literal.ofCodePoint c).Valid ↔ c ≤ 0xFFFFFF := by
  have hchar : ∀ {x : Char}, x.val = c → c ≤ 0xFFFFFF := by
    rintro x rfl
    exact UInt32.le_trans (val_le_maxCodePoint x) (by decide)
  have hs := spellingOf_ofCodePoint c
  generalize Literal.ofCodePoint c = a at hs
  cases hs with
  | control hl hx => exact iff_of_true (Option.isSome_iff_exists.2 ⟨_, hl⟩) (hchar hx)
  | escaped hx hq => exact iff_of_true (isEscapable_of_isQuoted hq) (hchar hx)
  | plain hx _ hr => exact iff_of_true hr (hchar hx)
  | hex2 h =>
    have hl := (length_toDigits_le_iff (k := 2) (by decide) rfl).2 h
    exact iff_of_true ⟨Hex.length_upper_of_le hl, isDigit_of_mem_upper⟩ (UInt32.le_trans h (by decide))
  | hex4 h =>
    have hl := (length_toDigits_le_iff (k := 4) (by decide) rfl).2 h
    exact iff_of_true ⟨Hex.length_upper_of_le hl, isDigit_of_mem_upper⟩ (UInt32.le_trans h (by decide))
  | hexBraced =>
    rw [← length_toDigits_le_iff (k := 6) (by decide) rfl, Literal.Valid, Hex.length_upper]
    constructor
    · rintro ⟨-, h, -⟩
      omega
    · intro h
      exact ⟨Nat.le_max_left .., by omega, isDigit_of_mem_upper⟩

/-- No code point is spelled by a plain `-`. -/
theorem ofCodePoint_ne_dash (c : UInt32) : Literal.ofCodePoint c ≠ .plain '-' := by
  intro h
  have hs := spellingOf_ofCodePoint c
  rw [h] at hs
  cases hs with
  | plain _ hne => exact hne rfl

end RegexNotation
