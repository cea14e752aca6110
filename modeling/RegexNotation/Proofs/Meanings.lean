/-
  What items stand for, and why a pattern stands for no set.

  * `SetItem.Covers` is what an item says that it holds, and `SetItem.Fails` what is wrong with it.  An item has a set of
    what it covers, or fails (`SetItem.mem_iff_of_codes`, `SetItem.codes_eq_error_iff`);
  * `Literal.codePoint_of_valid`: each character that a pattern can have stands for a Unicode code point, except a
    `\u{H..}` with too large a number;
  * `Regex.Fits.fault_of_codes`: an expression of a pattern stands for no set because of such a character, because of
    a range with its bounds in the wrong order, or because it is not of a kind that matches one character;
  * `Regex.codes_of_parse`: so the errors of a pattern are found again in its text and in its tree.
-/
import Mathlib.Algebra.Group.Nat.Defs
import Mathlib.Data.List.Forall2
import RegexNotation.Proofs.CodePoints
import RegexNotation.Proofs.Patterns

namespace RegexNotation

/-! ## Results -/

section
variable {ε ε' α β : Type}

theorem bind_eq_ok_iff {x : Except ε α} {f : α → Except ε β} {b : β} :
    (x >>= f) = .ok b ↔ ∃ a, x = .ok a ∧ f a = .ok b := by
  cases x with
  | error e => simp [bind, Except.bind]
  | ok a => simp [bind, Except.bind]

theorem bind_eq_error_iff {x : Except ε α} {f : α → Except ε β} {e : ε} :
    (x >>= f) = .error e ↔ x = .error e ∨ ∃ a, x = .ok a ∧ f a = .error e := by
  cases x with
  | error e' => simp [bind, Except.bind]
  | ok a => simp [bind, Except.bind]

theorem mapError_eq_ok {x : Except ε α} {f : ε → ε'} {a : α} :
    x.mapError f = .ok a ↔ x = .ok a := by
  cases x <;> simp [Except.mapError]

theorem mapError_eq_error {x : Except ε α} {f : ε → ε'} {e' : ε'} :
    x.mapError f = .error e' ↔ ∃ e, x = .error e ∧ f e = e' := by
  cases x <;> simp [Except.mapError]

variable {f : α → Except ε β} {l : List α}

theorem mapM_eq_ok_iff {bs : List β} : l.mapM f = .ok bs ↔ List.Forall₂ (fun a b => f a = .ok b) l bs := by
  induction l generalizing bs with
  | nil =>
    rw [List.mapM_nil]
    constructor
    · rintro ⟨⟩
      exact .nil
    · rintro ⟨⟩
      rfl
  | cons a l ih =>
    simp only [List.mapM_cons, bind_eq_ok_iff, ih, List.forall₂_cons_left_iff]
    constructor
    · rintro ⟨b, hb, bs, hbs, ⟨⟩⟩
      exact ⟨b, bs, hb, hbs, rfl⟩
    · rintro ⟨b, bs, hb, hbs, rfl⟩
      exact ⟨b, hb, bs, hbs, rfl⟩

theorem mem_of_mapM_eq_ok {bs : List β} (h : l.mapM f = .ok bs) :
    (∀ a ∈ l, ∃ b ∈ bs, f a = .ok b) ∧ ∀ b ∈ bs, ∃ a ∈ l, f a = .ok b := by
  induction mapM_eq_ok_iff.1 h with
  | nil => exact ⟨nofun, nofun⟩
  | cons hab htail ih =>
    obtain ⟨hl, hbs⟩ := ih (mapM_eq_ok_iff.2 htail)
    simp only [List.mem_cons, forall_eq_or_imp, exists_eq_or_imp]
    exact ⟨⟨.inl hab, fun a ha => .inr (hl a ha)⟩, .inl hab, fun b hb => .inr (hbs b hb)⟩

/-- The error is that of the first value that is one. -/
theorem mapM_eq_error_iff {e : ε} : l.mapM f = .error e ↔
    ∃ l₁ a l₂, l = l₁ ++ a :: l₂ ∧ (∀ a ∈ l₁, ∃ b, f a = .ok b) ∧ f a = .error e := by
  induction l with
  | nil =>
    rw [List.mapM_nil]
    constructor
    · rintro ⟨⟩
    · rintro ⟨l₁, a, l₂, h, -⟩
      simp at h
  | cons a l ih =>
    simp only [List.mapM_cons, bind_eq_error_iff, ih]
    constructor
    · rintro (ha | ⟨b, hb, ⟨l₁, a', l₂, rfl, hl₁, ha'⟩ | ⟨bs, -, ⟨⟩⟩⟩)
      · exact ⟨[], a, l, rfl, nofun, ha⟩
      · exact ⟨a :: l₁, a', l₂, rfl, List.forall_mem_cons.2 ⟨⟨b, hb⟩, hl₁⟩, ha'⟩
    · rintro ⟨_ | ⟨a₁, l₁⟩, a', l₂, h, hl₁, ha'⟩
      · cases h
        exact .inl ha'
      · cases h
        obtain ⟨⟨b, hb⟩, hl₁⟩ := List.forall_mem_cons.1 hl₁
        exact .inr ⟨b, hb, .inl ⟨l₁, a', l₂, rfl, hl₁, ha'⟩⟩

theorem exists_of_mapM_eq_error {e : ε} (h : l.mapM f = .error e) : ∃ a ∈ l, f a = .error e := by
  obtain ⟨l₁, a, l₂, rfl, -, ha⟩ := mapM_eq_error_iff.1 h
  exact ⟨a, by simp, ha⟩

theorem exists_mapM_eq_ok_iff : (∃ bs, l.mapM f = .ok bs) ↔ ∀ a ∈ l, ∃ b, f a = .ok b := by
  constructor
  · rintro ⟨bs, hbs⟩ a ha
    obtain ⟨b, -, hb⟩ := (mem_of_mapM_eq_ok hbs).1 a ha
    exact ⟨b, hb⟩
  · intro h
    cases hm : l.mapM f with
    | ok bs => exact ⟨bs, rfl⟩
    | error e =>
      obtain ⟨a, ha, he⟩ := exists_of_mapM_eq_error hm
      obtain ⟨b, hb⟩ := h a ha
      rw [hb] at he
      cases he

end

/-! ## Characters -/

namespace Hex

variable {c : Char} {l : List Char}

theorem lt_of_digit? {d : Nat} (h : digit? c = some d) : d < 16 := by
  have hle : ∀ a b : Char, a ≤ b ↔ a.toNat ≤ b.toNat := fun _ _ => UInt32.le_iff_toNat_le
  simp only [digit?, hle] at h
  have h9 : '9'.toNat = 57 := rfl
  have hf : 'f'.toNat = 102 := rfl
  have hF : 'F'.toNat = 70 := rfl
  split at h
  · cases h
    omega
  split at h
  · cases h
    omega
  split at h
  · cases h
    omega
  · cases h

/-- Digits have a value, which is small if there are few of them. -/
theorem exists_valueFrom (n : Nat) (h : ∀ c ∈ l, isDigit c) :
    ∃ k, valueFrom n l = some k ∧ k < (n + 1) * 16 ^ l.length := by
  induction l generalizing n with
  | nil => exact ⟨n, rfl, by simp⟩
  | cons c l ih =>
    obtain ⟨hc, hl⟩ := List.forall_mem_cons.1 h
    obtain ⟨d, hd⟩ := Option.isSome_iff_exists.1 hc
    obtain ⟨k, hk, hlt⟩ := ih (16 * n + d) hl
    refine ⟨k, by rw [valueFrom, hd]; exact hk, Nat.lt_of_lt_of_le hlt ?_⟩
    have hd := lt_of_digit? hd
    calc (16 * n + d + 1) * 16 ^ l.length
        ≤ ((n + 1) * 16) * 16 ^ l.length := Nat.mul_le_mul_right _ (by omega)
      _ = (n + 1) * 16 ^ (c :: l).length := by rw [List.length_cons, Nat.pow_succ', Nat.mul_assoc]

end Hex

theorem le_maxCodePoint_of_codePointOfHex {ds : String} {c : UInt32} (h : codePointOfHex ds = .ok c) :
    c ≤ maxCodePoint := by
  rw [codePointOfHex] at h
  split at h
  · next n _ =>
    by_cases hn : n ≤ maxCodePoint.toNat
    · rw [if_pos hn] at h
      cases h
      rwa [UInt32.le_iff_toNat_le, UInt32.toNat_ofNat_of_lt' (Nat.lt_of_le_of_lt hn maxCodePoint.toNat_lt)]
    · rw [if_neg hn] at h
      cases h
  · cases h

/-- Digits are read as their value, which is that of a code point unless it is too large. -/
theorem exists_codePointOfHex {ds : String} (hpos : 0 < ds.toList.length) (hd : ∀ c ∈ ds.toList, Hex.isDigit c) :
    ∃ n, Hex.value? ds.toList = some n ∧ n < 16 ^ ds.toList.length ∧
      (n ≤ maxCodePoint.toNat → ∃ c, codePointOfHex ds = .ok c) ∧
      (maxCodePoint.toNat < n → codePointOfHex ds = .error (.invalidCodePoint ds)) := by
  obtain ⟨n, hn, hlt⟩ := Hex.exists_valueFrom 0 hd
  rw [Nat.zero_add, Nat.one_mul] at hlt
  have hv : Hex.value? ds.toList = some n := by
    rcases h : ds.toList with _ | ⟨c, cs⟩
    · simp [h] at hpos
    · rw [Hex.value?, ← h]
      exact hn
  simp only [codePointOfHex, Hex.read?_eq_value? hd, hv]
  exact ⟨n, rfl, hlt, fun hle => ⟨.ofNat n, if_pos hle⟩, fun hgt => if_neg (Nat.not_le.2 hgt)⟩

namespace Literal

variable {a : Literal}

/-- The spelling is `\u{H..}`, and its number lies above the Unicode range. -/
def IsTooLarge : Literal → Prop
  | hexBraced ds => ∃ n, Hex.value? ds.toList = some n ∧ maxCodePoint.toNat < n
  | _ => False

theorem le_maxCodePoint {c : UInt32} (h : a.codePoint = .ok c) : c ≤ maxCodePoint := by
  cases a with
  | plain d | escaped d =>
    cases h
    exact val_le_maxCodePoint d
  | control letter =>
    rw [codePoint] at h
    split at h
    · next d _ =>
      cases h
      exact val_le_maxCodePoint d
    · cases h
  | hex2 | hex4 | hexBraced => exact le_maxCodePoint_of_codePointOfHex h

/-- Up to four digits cannot be too many. -/
theorem exists_codePointOfHex_eq_ok {ds : String} {k : Nat} (hk : ds.toList.length = k + 1) (hk' : k < 4)
    (hd : ∀ c ∈ ds.toList, Hex.isDigit c) : ∃ c, codePointOfHex ds = .ok c := by
  obtain ⟨n, -, hlt, hok, -⟩ := exists_codePointOfHex (by omega) hd
  have hle : 16 ^ ds.toList.length ≤ 16 ^ 4 := Nat.pow_le_pow_right (by decide) (by omega)
  have hmax : maxCodePoint.toNat = 0x10FFFF := rfl
  exact hok (by omega)

/-- **What a character of a pattern stands for.** -/
theorem codePoint_of_valid (ha : a.Valid) : (∃ c, a.codePoint = .ok c) ∨
    ∃ ds, a = hexBraced ds ∧ a.IsTooLarge ∧ a.codePoint = .error (.invalidCodePoint ds) := by
  cases a with
  | plain c | escaped c => exact .inl ⟨c.val, rfl⟩
  | control l =>
    obtain ⟨c, hc⟩ := Option.isSome_iff_exists.1 ha
    exact .inl ⟨c.val, by rw [codePoint, hc]⟩
  | hex2 ds => exact .inl (exists_codePointOfHex_eq_ok ha.1 (by decide) ha.2)
  | hex4 ds => exact .inl (exists_codePointOfHex_eq_ok ha.1 (by decide) ha.2)
  | hexBraced ds =>
    obtain ⟨n, hn, -, hok, herr⟩ := exists_codePointOfHex ha.1 ha.2.2
    rcases Nat.lt_or_ge maxCodePoint.toNat n with hgt | hle
    · exact .inr ⟨ds, rfl, ⟨n, hn, hgt⟩, herr hgt⟩
    · exact .inl (hok hle)

theorem error_of_codePoint (ha : a.Valid) {err : MeaningError} (h : a.codePoint = .error err) :
    ∃ ds, a = hexBraced ds ∧ a.IsTooLarge ∧ err = .invalidCodePoint ds := by
  rcases codePoint_of_valid ha with ⟨c, hc⟩ | ⟨ds, rfl, hlarge, herr⟩
  · rw [hc] at h
    cases h
  · rw [herr] at h
    cases h
    exact ⟨ds, rfl, hlarge, rfl⟩

end Literal

/-! ## Items -/

theorem codesOfName_eq_ok_iff {letter : Char} {s : CodeSet} :
    codesOfName letter = .ok s ↔ NamedSet.find? letter = some s := by
  rw [codesOfName]
  split <;> simp [*]

theorem codesOfName_eq_error_iff {letter : Char} {err : MeaningError} :
    codesOfName letter = .error err ↔ NamedSet.find? letter = none ∧ err = .unknownName letter := by
  rw [codesOfName]
  split <;> simp [*, eq_comm]

namespace SetItem

/-- The item stands for a set: its name is known, its characters have code points, and the bounds of a range are in
    order. -/
def Resolves : SetItem → Prop
  | named letter => ∃ n ∈ NamedSet.registry, n.letter = letter
  | range a b => ∃ first last, a.codePoint = .ok first ∧ b.codePoint = .ok last ∧ first ≤ last
  | single a => ∃ c, a.codePoint = .ok c

/-- The code point is one that the item names, or lies between the bounds that it gives. -/
def Covers : SetItem → UInt32 → Prop
  | named letter, c => ∃ n ∈ NamedSet.registry, n.letter = letter ∧ c ∈ n.codes
  | range a b, c => ∃ first last, a.codePoint = .ok first ∧ b.codePoint = .ok last ∧ first ≤ c ∧ c ≤ last
  | single a, c => a.codePoint = .ok c

/-- Why an item stands for no set.  The first bound of a range comes before the last, and both before their order. -/
inductive Fails : SetItem → MeaningError → Prop
  | unknown {letter} : (∀ n ∈ NamedSet.registry, n.letter ≠ letter) → Fails (named letter) (.unknownName letter)
  | first {a b err} : a.codePoint = .error err → Fails (range a b) err
  | last {a b first err} : a.codePoint = .ok first → b.codePoint = .error err → Fails (range a b) err
  | reversed {a b first last} : a.codePoint = .ok first → b.codePoint = .ok last → last < first →
      Fails (range a b) (.reversedRange first last)
  | single {a err} : a.codePoint = .error err → Fails (single a) err

variable {a b : Literal} {c : UInt32} {i : SetItem} {s : CodeSet} {err : MeaningError}

theorem codes_range_eq_ok_iff : (range a b).codes = .ok s ↔ ∃ first last,
    a.codePoint = .ok first ∧ b.codePoint = .ok last ∧ first ≤ last ∧ s = .ofSpans [⟨first, last⟩] := by
  simp only [codes, bind_eq_ok_iff]
  constructor
  · rintro ⟨first, hf, last, hl, h⟩
    by_cases hlt : last < first
    · rw [if_pos hlt] at h
      cases h
    · rw [if_neg hlt] at h
      cases h
      exact ⟨first, last, hf, hl, UInt32.not_lt.1 hlt, rfl⟩
  · rintro ⟨first, last, hf, hl, hle, rfl⟩
    refine ⟨first, hf, last, hl, ?_⟩
    rw [if_neg (UInt32.not_lt.2 hle)]
    rfl

theorem codes_single_eq_ok_iff : (single a).codes = .ok s ↔ ∃ c, a.codePoint = .ok c ∧ s = .single c := by
  simp only [codes, bind_eq_ok_iff]
  constructor
  · rintro ⟨c, hc, ⟨⟩⟩
    exact ⟨c, hc, rfl⟩
  · rintro ⟨c, hc, rfl⟩
    exact ⟨c, hc, rfl⟩

/-- An item has a set exactly when it resolves. -/
theorem exists_codes_eq_ok_iff : (∃ s, i.codes = .ok s) ↔ i.Resolves := by
  cases i with
  | named letter =>
    simp only [codes, codesOfName_eq_ok_iff, NamedSet.find?_eq_some_iff]
    constructor
    · rintro ⟨s, n, hn, hl, -⟩
      exact ⟨n, hn, hl⟩
    · rintro ⟨n, hn, hl⟩
      exact ⟨n.codes, n, hn, hl, rfl⟩
  | range a b =>
    simp only [codes_range_eq_ok_iff]
    constructor
    · rintro ⟨s, first, last, hf, hl, hle, -⟩
      exact ⟨first, last, hf, hl, hle⟩
    · rintro ⟨first, last, hf, hl, hle⟩
      exact ⟨_, first, last, hf, hl, hle, rfl⟩
  | single a =>
    simp only [codes_single_eq_ok_iff]
    constructor
    · rintro ⟨s, c, hc, -⟩
      exact ⟨c, hc⟩
    · rintro ⟨c, hc⟩
      exact ⟨_, c, hc, rfl⟩

/-- The set of an item holds what the item covers. -/
theorem mem_iff_of_codes (h : i.codes = .ok s) : c ∈ s ↔ i.Covers c := by
  cases i with
  | named letter =>
    have hs := codesOfName_eq_ok_iff.1 h
    obtain ⟨n, hn, hl, hcodes⟩ := NamedSet.find?_eq_some_iff.1 hs
    constructor
    · intro hc
      exact ⟨n, hn, hl, hcodes ▸ hc⟩
    · rintro ⟨m, hm, rfl, hc⟩
      -- no letter names two sets
      obtain rfl : m.codes = s := Option.some.inj ((NamedSet.find?_letter hm).symm.trans hs)
      exact hc
  | range a b =>
    obtain ⟨first, last, hf, hl, -, rfl⟩ := codes_range_eq_ok_iff.1 h
    rw [CodeSet.mem_ofSpans]
    constructor
    · rintro ⟨r, hr, hc⟩
      obtain rfl := List.mem_singleton.1 hr
      exact ⟨first, last, hf, hl, hc.1, hc.2⟩
    · rintro ⟨first', last', hf', hl', hc⟩
      obtain rfl := Except.ok.inj (hf.symm.trans hf')
      obtain rfl := Except.ok.inj (hl.symm.trans hl')
      exact ⟨_, List.mem_singleton_self _, hc⟩
  | single a =>
    obtain ⟨d, hd, rfl⟩ := codes_single_eq_ok_iff.1 h
    rw [CodeSet.mem_single, Covers, hd, Except.ok.injEq]
    exact eq_comm

/-- What is wrong with an item that has no set. -/
theorem codes_eq_error_iff : i.codes = .error err ↔ i.Fails err := by
  cases i with
  | named letter =>
    rw [codes, codesOfName_eq_error_iff, NamedSet.find?_eq_none_iff]
    constructor
    · rintro ⟨hn, rfl⟩
      exact .unknown hn
    · intro h
      cases h with
      | unknown hn => exact ⟨hn, rfl⟩
  | range a b =>
    simp only [codes, bind_eq_error_iff]
    constructor
    · rintro (hf | ⟨first, hf, hl | ⟨last, hl, h⟩⟩)
      · exact .first hf
      · exact .last hf hl
      · by_cases hlt : last < first
        · rw [if_pos hlt] at h
          cases h
          exact .reversed hf hl hlt
        · rw [if_neg hlt] at h
          cases h
    · intro h
      cases h with
      | first hf => exact .inl hf
      | last hf hl => exact .inr ⟨_, hf, .inl hl⟩
      | reversed hf hl hlt =>
        refine .inr ⟨_, hf, .inr ⟨_, hl, ?_⟩⟩
        rw [if_pos hlt]
        rfl
  | single a =>
    simp only [codes, bind_eq_error_iff]
    constructor
    · rintro (ha | ⟨c, -, ⟨⟩⟩)
      exact .single ha
    · intro h
      cases h with
      | single ha => exact .inl ha

theorem exists_fails_iff : (∃ err, i.Fails err) ↔ ¬ i.Resolves := by
  simp only [← codes_eq_error_iff, ← exists_codes_eq_ok_iff]
  cases i.codes <;> simp

end SetItem

/-! ## Items and expressions of a pattern -/

/-- The characters of an item. -/
def SetItem.literals : SetItem → List Literal
  | named _ => []
  | range a b => [a, b]
  | single a => [a]

/-- The characters of an expression, those of its sets among them. -/
def Regex.literals : Regex → List Literal
  | set _ items => items.flatMap SetItem.literals
  | literal a => [a]
  | alt l r | cat l r => l.literals ++ r.literals
  | quantified e _ | group _ e => e.literals
  | _ => []

theorem codesOfName_ne_error {l : Char} (hl : NamedSet.isName l) (err : MeaningError) :
    codesOfName l ≠ .error err := by
  obtain ⟨s, hs⟩ := Option.isSome_iff_exists.1 hl
  rw [codesOfName, hs]
  rintro ⟨⟩

/-- What can be wrong with an item of a pattern. -/
inductive SetItem.Fault (i : SetItem) : MeaningError → Prop
  | tooLarge {ds} : .hexBraced ds ∈ i.literals → (Literal.hexBraced ds).IsTooLarge → Fault i (.invalidCodePoint ds)
  | reversed {a b first last} : i = range a b → a.codePoint = .ok first → b.codePoint = .ok last →
      last < first → Fault i (.reversedRange first last)

theorem SetItem.valid_of_mem_literals {i : SetItem} (hi : i.Valid) {a : Literal} (ha : a ∈ i.literals) :
    a.Valid := by
  cases i with
  | named => cases ha
  | single b => exact List.mem_singleton.1 ha ▸ hi
  | range b c =>
    simp only [literals, List.mem_cons, List.not_mem_nil, or_false] at ha
    rcases ha with rfl | rfl
    · exact hi.1
    · exact hi.2

theorem SetItem.fault_of_codes {i : SetItem} (hi : i.Valid) {err : MeaningError} (h : i.codes = .error err) :
    i.Fault err := by
  have hlit : ∀ a ∈ i.literals, a.codePoint = .error err → i.Fault err := by
    intro a ha he
    obtain ⟨ds, rfl, hlarge, rfl⟩ := Literal.error_of_codePoint (valid_of_mem_literals hi ha) he
    exact .tooLarge ha hlarge
  cases codes_eq_error_iff.1 h with
  | unknown => exact absurd h (codesOfName_ne_error hi _)
  | first ha => exact hlit _ List.mem_cons_self ha
  | last _ hb => exact hlit _ (List.mem_cons_of_mem _ List.mem_cons_self) hb
  | reversed ha hb hlt => exact .reversed rfl ha hb hlt
  | single ha => exact hlit _ List.mem_cons_self ha

/-- The text of an item holds those of its characters. -/
theorem SetItem.render_infix {i : SetItem} {a : Literal} (ha : a ∈ i.literals) :
    a.render <:+: i.render := by
  cases i with
  | named => cases ha
  | single b => exact List.mem_singleton.1 ha ▸ List.infix_rfl
  | range b c =>
    simp only [SetItem.literals, List.mem_cons, List.not_mem_nil, or_false] at ha
    rcases ha with rfl | rfl
    · exact (List.prefix_append _ _).isInfix
    · exact ((List.suffix_cons _ _).trans (List.suffix_append _ _)).isInfix

namespace Regex

variable {ℓ : Level} {e : Regex} {a : Literal} {err : MeaningError}

/-- The expression is of a kind that matches exactly one character. -/
def MatchesOne : Regex → Prop
  | any | literal _ | named _ | set _ _ => True
  | _ => False

theorem not_matchesOne_iff : ¬ e.MatchesOne ↔
    e ≠ any ∧ (∀ a, e ≠ literal a) ∧ (∀ letter, e ≠ named letter) ∧ ∀ negated items, e ≠ set negated items := by
  cases e <;> simp [MatchesOne]

theorem codes_of_not_matchesOne (h : ¬ e.MatchesOne) : e.codes = .error .notASet := by
  cases e with
  | any | literal | named | set => exact absurd trivial h
  | _ => rfl

/-- What can be wrong with an expression of a pattern. -/
inductive Fault (e : Regex) : MeaningError → Prop
  | kind : ¬ e.MatchesOne → Fault e .notASet
  | tooLarge {ds} : .hexBraced ds ∈ e.literals → (Literal.hexBraced ds).IsTooLarge → Fault e (.invalidCodePoint ds)
  | reversed {negated items a b first last} : e = set negated items → .range a b ∈ items → a.codePoint = .ok first →
      b.codePoint = .ok last → last < first → Fault e (.reversedRange first last)

theorem Fits.fault_of_codes (hf : e.Fits ℓ) (h : e.codes = .error err) : e.Fault err := by
  induction hf with
  | concatenation _ ih | sequence _ ih | repetition _ ih | atom _ ih => exact ih h
  | alt | blank | cat | quantified | empty | never | group =>
    cases h
    exact .kind id
  | any => cases h
  | named hl => exact absurd h (codesOfName_ne_error hl err)
  | literal hc =>
    rcases bind_eq_error_iff.1 h with h | ⟨_, -, ⟨⟩⟩
    obtain ⟨ds, rfl, hlarge, rfl⟩ := Literal.error_of_codePoint hc h
    exact .tooLarge List.mem_cons_self hlarge
  | set hv _ =>
    -- of the steps of a set, only those that read its items can fail
    rcases bind_eq_error_iff.1 h with h | ⟨_, -, ⟨⟩⟩
    rcases bind_eq_error_iff.1 h with h | ⟨_, -, ⟨⟩⟩
    obtain ⟨i, hi, h⟩ := exists_of_mapM_eq_error h
    cases SetItem.fault_of_codes (hv i hi) h with
    | tooLarge hds hlarge => exact .tooLarge (List.mem_flatMap.2 ⟨i, hi, hds⟩) hlarge
    | reversed heq ha hb hlt => exact .reversed rfl (heq ▸ hi) ha hb hlt

theorem Fits.valid_of_mem_literals (hf : e.Fits ℓ) (ha : a ∈ e.literals) : a.Valid := by
  induction hf with
  | concatenation _ ih | sequence _ ih | repetition _ ih | atom _ ih | quantified _ ih | group _ ih => exact ih ha
  | alt _ _ ihl ihr | cat _ _ ihl ihr => exact (List.mem_append.1 ha).elim ihl ihr
  | blank | any | empty | never | named => cases ha
  | literal hc => exact List.mem_singleton.1 ha ▸ hc
  | set hv _ =>
    obtain ⟨i, hi, ha⟩ := List.mem_flatMap.1 ha
    exact SetItem.valid_of_mem_literals (hv i hi) ha

/-- The text of an expression holds those of its characters. -/
theorem SpelledBy.render_infix {s : List Char} (hs : e.SpelledBy s) (ha : a ∈ e.literals) : a.render <:+: s := by
  induction e generalizing s with
  | any | empty | blank | never | named => cases ha
  | literal c =>
    obtain rfl := hs
    exact List.mem_singleton.1 ha ▸ List.infix_rfl
  | set negated items =>
    obtain rfl := hs
    obtain ⟨i, hi, hai⟩ := List.mem_flatMap.1 ha
    obtain ⟨is, js, rfl⟩ := List.append_of_mem hi
    have hr : i.render <:+: renderSet negated (is ++ i :: js) := by
      refine ⟨'[' :: ((if negated then ['^'] else []) ++ is.flatMap SetItem.render),
        js.flatMap SetItem.render ++ [']'], ?_⟩
      simp [renderSet]
    exact (SetItem.render_infix hai).trans hr
  | alt l r ihl ihr =>
    obtain ⟨u, v, hu, hv, rfl⟩ := hs
    rcases List.mem_append.1 ha with ha | ha
    · exact (ihl hu ha).trans (List.prefix_append _ _).isInfix
    · exact (ihr hv ha).trans ((List.suffix_cons _ _).trans (List.suffix_append _ _)).isInfix
  | cat l r ihl ihr =>
    obtain ⟨u, v, hu, hv, rfl⟩ := hs
    rcases List.mem_append.1 ha with ha | ha
    · exact (ihl hu ha).trans (List.prefix_append _ _).isInfix
    · exact (ihr hv ha).trans (List.suffix_append _ _).isInfix
  | quantified e q ih =>
    obtain ⟨u, v, hu, -, rfl⟩ := hs
    exact (ih hu ha).trans (List.prefix_append _ _).isInfix
  | group kind e ih =>
    obtain ⟨u, hu, rfl⟩ := hs
    exact (ih hu ha).trans (List.infix_append' _ _ _)

/-- **Why a pattern stands for no set.**  Its names are all known, and of its characters only those `\u{H..}` with
    too large a number stand for no code point.  What remains are ranges with their bounds in the wrong order, and
    patterns of another kind than those that match one character. -/
theorem codes_of_parse {text : String} (h : parse text = .ok e) :
    (∀ letter, e.codes ≠ .error (.unknownName letter)) ∧
    (∀ ds, e.codes = .error (.invalidCodePoint ds) → .hexBraced ds ∈ e.literals ∧
      (Literal.hexBraced ds).render <:+: text.toList ∧ (Literal.hexBraced ds).IsTooLarge) ∧
    (∀ a ∈ e.literals, ¬ a.IsTooLarge → ∃ c, a.codePoint = .ok c ∧ c ≤ maxCodePoint) ∧
    (e.codes = .error .notASet ↔
      e ≠ any ∧ (∀ a, e ≠ literal a) ∧ (∀ letter, e ≠ named letter) ∧ ∀ negated items, e ≠ set negated items) ∧
    ∀ first last, e.codes = .error (.reversedRange first last) → ∃ negated items a b, e = set negated items ∧
      .range a b ∈ items ∧ a.codePoint = .ok first ∧ b.codePoint = .ok last ∧ last < first := by
  obtain ⟨⟨hf, -⟩, hs⟩ := parse_eq_ok_iff.1 h
  refine ⟨fun letter he => ?_, fun ds he => ?_, fun a ha hsmall => ?_, ?_, fun first last he => ?_⟩
  · cases hf.fault_of_codes he
  · cases hf.fault_of_codes he with
    | tooLarge hds hlarge => exact ⟨hds, hs.render_infix hds, hlarge⟩
  · rcases Literal.codePoint_of_valid (hf.valid_of_mem_literals ha) with ⟨c, hc⟩ | ⟨_, -, hlarge, -⟩
    · exact ⟨c, hc, a.le_maxCodePoint hc⟩
    · exact absurd hlarge hsmall
  · rw [← not_matchesOne_iff]
    refine ⟨fun he => ?_, codes_of_not_matchesOne⟩
    cases hf.fault_of_codes he with
    | kind hk => exact hk
  · cases hf.fault_of_codes he with
    | reversed heq hi ha hb hlt => exact ⟨_, _, _, _, heq, hi, ha, hb, hlt⟩

theorem codes_of_parse_at :
    let large := Literal.hexBraced "110000"
    let e := set false [.range (.plain 'a') (.plain 'z'), .single large]
    let f := set true [.range (.hex4 "D800") (.escaped '[')]
    let g := quantified (literal (.hexBraced "10FFFF")) .star
    parse "[a-z\\u\x7b110000\x7d]" = .ok e ∧ e.codes = .error (.invalidCodePoint "110000") ∧ large.IsTooLarge ∧
      parse "[^\\uD800-\\[]" = .ok f ∧ f.codes = .error (.reversedRange 0xD800 0x5B) ∧
      (∃ c, (Literal.hex4 "D800").codePoint = .ok c ∧ c ≤ maxCodePoint) ∧
      parse "\\u\x7b10FFFF\x7d*" = .ok g ∧ g.codes = .error .notASet := by
  intro large e f g
  have he : parse "[a-z\\u\x7b110000\x7d]" = .ok e := by decide +kernel
  have hf : parse "[^\\uD800-\\[]" = .ok f := by decide +kernel
  have hg : parse "\\u\x7b10FFFF\x7d*" = .ok g := by decide +kernel
  have hcodes : e.codes = .error (.invalidCodePoint "110000") := by decide +kernel
  obtain ⟨-, hlarge, -⟩ := codes_of_parse he
  obtain ⟨-, -, hpoint, -⟩ := codes_of_parse hf
  obtain ⟨-, -, -, hkind, -⟩ := codes_of_parse hg
  refine ⟨he, hcodes, (hlarge "110000" hcodes).2.2, hf, by decide +kernel, ?_, hg, hkind.2 ?_⟩
  · exact hpoint (.hex4 "D800") List.mem_cons_self id
  · exact ⟨nofun, nofun, nofun, nofun⟩

end Regex
end RegexNotation
