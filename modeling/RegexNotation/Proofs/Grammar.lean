/-
  The grammar of the notation, and that the patterns read are its words.

  * `Grammar.pattern`: the language of the patterns, by the rules of the grammar.  The rules leave choices open
    that reading settles by trying one after another: in a set, `a-z` is a range or three single characters;
  * `SetItem.regroup`: the items into which reading divides such a text.  Any items have the text of unmerged
    ones (`exists_unmerged`), so the choices lose nothing;
  * `mem_inside`: the words of each depth of groups are the texts of the trees of that depth.
-/
import Mathlib.Computability.Language
import RegexNotation.Proofs.Patterns

namespace RegexNotation

open Computability

/-! ## The rules -/

namespace Grammar

/-- One character of a kind. -/
def oneOf (f : Char → Prop) : Language Char := {s | ∃ c, f c ∧ s = [c]}

/-- The characters themselves. -/
def word (t : List Char) : Language Char := {s | s = t}

/-- From `lo` to `hi` texts in a row. -/
def times (lo hi : Nat) (L : Language Char) : Language Char := {s | ∃ n, lo ≤ n ∧ n ≤ hi ∧ s ∈ L ^ n}

def specialLetters : List Char := ['n', 'f', 't', 'v', 'r']

def setLetters : List Char := ['s', 'S', 'w', 'W', 'd', 'D']

def hexDigit : Language Char :=
  oneOf fun c => '0' ≤ c ∧ c ≤ '9' ∨ 'a' ≤ c ∧ c ≤ 'f' ∨ 'A' ≤ c ∧ c ≤ 'F'

def character : Language Char :=
  oneOf (· ∉ Alphabet.reserved)
  + word ['\\'] * oneOf (· ∈ specialLetters)
  + word ['\\'] * oneOf (fun c => c ≠ 'x' ∧ c ≠ 'u' ∧ c ∉ specialLetters ∧ c ∉ setLetters)
  + word ['\\', 'x'] * times 2 2 hexDigit
  + word ['\\', 'u'] * times 4 4 hexDigit
  + word ['\\', 'u', '{'] * times 1 6 hexDigit * word ['}']

def named : Language Char := word ['\\'] * oneOf (· ∈ setLetters)

def setItem : Language Char := named + character * word ['-'] * character + character

def set : Language Char := word ['['] * (1 + word ['^']) * setItem∗ * word [']']

def blanks : Language Char := (oneOf (Text.isBlank ·))∗

/-- Decimal numerals that fit into 32 bits, with any number of leading zeros. -/
def number : Language Char :=
  {s | s ≠ [] ∧ (∀ c ∈ s, '0' ≤ c ∧ c ≤ '9') ∧ Nat.ofDigitChars 10 s 0 ≤ 4294967295}

def braces : Language Char :=
  word ['{'] * blanks * number * blanks * (1 + word [','] * blanks * (1 + number)) * blanks * word ['}']

def suffix : Language Char := word ['*'] + word ['+'] + word ['?'] + braces

/-! The other rules depend on what may stand inside a group. -/

section
variable (inside : Language Char)

def atom : Language Char :=
  word ['(', '?', ':'] * inside * word [')'] + word ['('] * inside * word [')']
  + word ['.'] + word ['$', '0'] + word ['$', 'e'] + set + named + character

def repetition : Language Char := atom inside * (1 + suffix)

def concatenation : Language Char := (repetition inside)∗

def alternation : Language Char := concatenation inside * (word ['|'] * concatenation inside)∗

end

/-- What may stand inside a group if less than so many groups nest there. -/
def inside : Nat → Language Char
  | 0 => 0
  | n + 1 => alternation (inside n)

/-- The patterns. -/
def pattern : Language Char := alternation (inside 256)

/-! ## Runs -/

variable {α : Type} {L : Language Char} {s : List Char}

theorem mem_word {t : List Char} : s ∈ word t ↔ s = t := Iff.rfl

theorem flatten_oneOf {f : Char → Prop} {parts : List (List Char)} (h : ∀ y ∈ parts, y ∈ oneOf f) :
    parts.flatten.length = parts.length ∧ ∀ c ∈ parts.flatten, f c := by
  induction parts with
  | nil => exact ⟨rfl, by rintro c ⟨⟩⟩
  | cons y parts ih =>
    obtain ⟨⟨c, hc, rfl⟩, hp⟩ := List.forall_mem_cons.1 h
    obtain ⟨hl, hf⟩ := ih hp
    exact ⟨by simp [hl], List.forall_mem_cons.2 ⟨hc, hf⟩⟩

theorem exists_flatten_oneOf {f : Char → Prop} (h : ∀ c ∈ s, f c) :
    ∃ parts : List (List Char), s = parts.flatten ∧ parts.length = s.length ∧ ∀ y ∈ parts, y ∈ oneOf f := by
  refine ⟨s.map ([·]), ?_, by simp, ?_⟩
  · induction s with
    | nil => rfl
    | cons c s ih => exact congrArg (c :: ·) (ih (List.forall_mem_cons.1 h).2)
  · intro y hy
    obtain ⟨c, hc, rfl⟩ := List.mem_map.1 hy
    exact ⟨c, h c hc, rfl⟩

theorem mem_kstar_oneOf {f : Char → Prop} : s ∈ (oneOf f)∗ ↔ ∀ c ∈ s, f c := by
  rw [Language.mem_kstar]
  constructor
  · rintro ⟨parts, rfl, h⟩
    exact (flatten_oneOf h).2
  · intro h
    obtain ⟨parts, hs, -, hp⟩ := exists_flatten_oneOf h
    exact ⟨parts, hs, hp⟩

theorem mem_times_oneOf {lo hi : Nat} {f : Char → Prop} :
    s ∈ times lo hi (oneOf f) ↔ lo ≤ s.length ∧ s.length ≤ hi ∧ ∀ c ∈ s, f c := by
  constructor
  · rintro ⟨n, hlo, hhi, hn⟩
    obtain ⟨parts, rfl, rfl, h⟩ := Language.mem_pow.1 hn
    obtain ⟨hl, hf⟩ := flatten_oneOf h
    rw [hl]
    exact ⟨hlo, hhi, hf⟩
  · rintro ⟨hlo, hhi, h⟩
    obtain ⟨parts, hs, hl, hp⟩ := exists_flatten_oneOf h
    exact ⟨s.length, hlo, hhi, Language.mem_pow.2 ⟨parts, hs, hl, hp⟩⟩

/-- A repetition of what is written for single values is what is written for lists of them. -/
theorem mem_kstar_iff {W : α → List Char → Prop} (hL : ∀ s, s ∈ L ↔ ∃ a, W a s) (r : List Char) :
    s ∈ L∗ ↔ ∃ as, Parser.Each (fun a s _ => W a s) as s r := by
  rw [Language.mem_kstar]
  constructor
  · rintro ⟨parts, rfl, h⟩
    induction parts with
    | nil => exact ⟨[], .nil⟩
    | cons y parts ih =>
      obtain ⟨hy, hp⟩ := List.forall_mem_cons.1 h
      obtain ⟨a, ha⟩ := (hL y).1 hy
      obtain ⟨as, has⟩ := ih hp
      exact ⟨a :: as, .cons ha has⟩
  · rintro ⟨as, h⟩
    induction h with
    | nil => exact ⟨[], rfl, by rintro y ⟨⟩⟩
    | cons ha _ ih =>
      obtain ⟨parts, rfl, hp⟩ := ih
      exact ⟨_ :: parts, rfl, List.forall_mem_cons.2 ⟨(hL _).2 ⟨_, ha⟩, hp⟩⟩

/-! ## Characters -/

theorem isReserved_iff {c : Char} : Alphabet.isReserved c = false ↔ c ∉ Alphabet.reserved := by
  simp [Alphabet.isReserved]

theorem isControlLetter_iff {c : Char} : Alphabet.isControlLetter c ↔ c ∈ specialLetters := by
  rw [Alphabet.isControlLetter, Alphabet.control?, List.lookup_isSome_iff]
  simp [Alphabet.controls, specialLetters]

theorem isName_iff {c : Char} : NamedSet.isName c ↔ c ∈ setLetters := by
  constructor
  · exact Parser.mem_of_isName
  · intro h
    simp only [setLetters, List.mem_cons, List.not_mem_nil, or_false] at h
    rcases h with rfl | rfl | rfl | rfl | rfl | rfl <;> decide

theorem isEscapable_iff {c : Char} :
    Alphabet.isEscapable c ↔ c ≠ 'x' ∧ c ≠ 'u' ∧ c ∉ specialLetters ∧ c ∉ setLetters := by
  rw [← isControlLetter_iff, ← isName_iff]
  simp [Alphabet.isEscapable, and_assoc]

theorem isHexDigit_iff {c : Char} :
    Hex.isDigit c ↔ '0' ≤ c ∧ c ≤ '9' ∨ 'a' ≤ c ∧ c ≤ 'f' ∨ 'A' ≤ c ∧ c ≤ 'F' := by
  simp only [Hex.isDigit, Hex.digit?]
  split
  · simp [*]
  split
  · simp [*]
  split
  · simp [*]
  simp [*]

theorem mem_character : s ∈ character ↔ ∃ a : Literal, a.Valid ∧ s = a.render := by
  simp only [character, hexDigit, Language.mem_add, Language.mem_mul, mem_times_oneOf]
  constructor
  · rintro (((((⟨c, hc, rfl⟩ | ⟨_, rfl, _, ⟨c, hc, rfl⟩, rfl⟩) | ⟨_, rfl, _, ⟨c, hc, rfl⟩, rfl⟩) |
      ⟨_, rfl, ds, ⟨h2, h2', hd⟩, rfl⟩) | ⟨_, rfl, ds, ⟨h4, h4', hd⟩, rfl⟩) |
      ⟨_, ⟨_, rfl, ds, ⟨h1, h6, hd⟩, rfl⟩, _, rfl, rfl⟩)
    · exact ⟨.plain c, isReserved_iff.2 hc, rfl⟩
    · exact ⟨.control c, isControlLetter_iff.2 hc, rfl⟩
    · exact ⟨.escaped c, isEscapable_iff.2 hc, rfl⟩
    · refine ⟨.hex2 (.ofList ds), ?_, by simp [Literal.render]⟩
      simp only [Literal.Valid, String.toList_ofList]
      exact ⟨Nat.le_antisymm h2' h2, fun c hc => isHexDigit_iff.2 (hd c hc)⟩
    · refine ⟨.hex4 (.ofList ds), ?_, by simp [Literal.render]⟩
      simp only [Literal.Valid, String.toList_ofList]
      exact ⟨Nat.le_antisymm h4' h4, fun c hc => isHexDigit_iff.2 (hd c hc)⟩
    · refine ⟨.hexBraced (.ofList ds), ?_, by simp [Literal.render]⟩
      simp only [Literal.Valid, String.toList_ofList]
      exact ⟨h1, h6, fun c hc => isHexDigit_iff.2 (hd c hc)⟩
  · rintro ⟨a, ha, rfl⟩
    cases a with
    | plain c => exact .inl (.inl (.inl (.inl (.inl ⟨c, isReserved_iff.1 ha, rfl⟩))))
    | control c =>
      exact .inl (.inl (.inl (.inl (.inr ⟨_, rfl, _, ⟨c, isControlLetter_iff.1 ha, rfl⟩, rfl⟩))))
    | escaped c => exact .inl (.inl (.inl (.inr ⟨_, rfl, _, ⟨c, isEscapable_iff.1 ha, rfl⟩, rfl⟩)))
    | hex2 ds =>
      exact .inl (.inl (.inr ⟨_, rfl, ds.toList,
        ⟨Nat.le_of_eq ha.1.symm, Nat.le_of_eq ha.1, fun c hc => isHexDigit_iff.1 (ha.2 c hc)⟩, rfl⟩))
    | hex4 ds =>
      exact .inl (.inr ⟨_, rfl, ds.toList,
        ⟨Nat.le_of_eq ha.1.symm, Nat.le_of_eq ha.1, fun c hc => isHexDigit_iff.1 (ha.2 c hc)⟩, rfl⟩)
    | hexBraced ds =>
      exact .inr ⟨_, ⟨_, rfl, ds.toList, ⟨ha.1, ha.2.1, fun c hc => isHexDigit_iff.1 (ha.2.2 c hc)⟩, rfl⟩,
        _, rfl, rfl⟩

theorem mem_named : s ∈ named ↔ ∃ l, NamedSet.isName l ∧ s = ['\\', l] := by
  rw [named, Language.mem_mul]
  constructor
  · rintro ⟨_, rfl, _, ⟨l, hl, rfl⟩, rfl⟩
    exact ⟨l, isName_iff.2 hl, rfl⟩
  · rintro ⟨l, hl, rfl⟩
    exact ⟨_, rfl, _, ⟨l, isName_iff.1 hl, rfl⟩, rfl⟩

end Grammar

/-! ## Items of sets -/

namespace SetItem

/-- The item in single characters. -/
def split : SetItem → List SetItem
  | range a b => [single a, single (.plain '-'), single b]
  | i => [i]

/-- Takes the leftmost range, again and again. -/
def regroup : List SetItem → List SetItem
  | single a :: single (.plain '-') :: single b :: items => range a b :: regroup items
  | i :: items => i :: regroup items
  | [] => []

/-- No item is a range. -/
def NoRange (items : List SetItem) : Prop := ∀ i ∈ items, ∀ a b, i ≠ range a b

theorem render_split (i : SetItem) : i.split.flatMap render = i.render := by
  cases i with
  | range a b => simp [split, render, Literal.render]
  | _ => simp [split]

theorem noRange_split (items : List SetItem) : NoRange (items.flatMap split) := by
  rintro i hi a b rfl
  obtain ⟨j, -, hj⟩ := List.mem_flatMap.1 hi
  cases j with
  | _ => simp [split] at hj

theorem valid_split {i : SetItem} (hi : i.Valid) : ∀ j ∈ i.split, j.Valid := by
  cases i with
  | range a b =>
    intro j hj
    simp only [split, List.mem_cons, List.not_mem_nil, or_false] at hj
    rcases hj with rfl | rfl | rfl
    · exact hi.1
    · show Literal.Valid (.plain '-')
      decide
    · exact hi.2
  | _ => exact List.forall_mem_singleton.2 hi

theorem render_regroup (items : List SetItem) : (regroup items).flatMap render = items.flatMap render := by
  fun_induction regroup items with
  | case1 a b items ih => simp [ih, render, Literal.render]
  | case2 i items _ ih => simp [ih]
  | case3 => rfl

theorem valid_regroup {items : List SetItem} (h : ∀ i ∈ items, i.Valid) : ∀ i ∈ regroup items, i.Valid := by
  fun_induction regroup items with
  | case1 a b items ih =>
    obtain ⟨ha, h⟩ := List.forall_mem_cons.1 h
    obtain ⟨-, h⟩ := List.forall_mem_cons.1 h
    obtain ⟨hb, h⟩ := List.forall_mem_cons.1 h
    exact List.forall_mem_cons.2 ⟨⟨ha, hb⟩, ih h⟩
  | case2 i items _ ih =>
    obtain ⟨hi, h⟩ := List.forall_mem_cons.1 h
    exact List.forall_mem_cons.2 ⟨hi, ih h⟩
  | case3 => exact h

theorem beginWithChar_regroup (items : List SetItem) :
    beginWithChar (regroup items) = beginWithChar items := by
  fun_cases regroup items with
  | case1 => rfl
  | case2 i items => cases i <;> rfl
  | case3 => rfl

theorem beginWithDash_regroup (items : List SetItem) :
    beginWithDash (regroup items) = beginWithDash items := by
  fun_cases regroup items with
  | case1 a b items => cases a <;> simp [beginWithDash, beginWithChar]
  | case2 i items =>
    rcases i with _ | ⟨_ | _, _⟩ | _ | _
    case single.plain => simp only [beginWithDash, beginWithChar_regroup]
    all_goals rfl
  | case3 => rfl

theorem exists_dash {items : List SetItem} (h : NoRange items) (hd : beginWithDash items) :
    ∃ b rest, items = single (.plain '-') :: single b :: rest := by
  rcases items with _ | ⟨_ | ⟨a, b⟩ | _ | _, items⟩
  case cons.range => exact absurd rfl (h _ List.mem_cons_self a b)
  case cons.single.plain c =>
    simp only [beginWithDash, Bool.and_eq_true, decide_eq_true_eq] at hd
    obtain ⟨rfl, hc⟩ := hd
    rcases items with _ | ⟨_ | ⟨a, b⟩ | b, rest⟩
    · cases hc
    · cases hc
    · exact absurd rfl (h _ (List.mem_cons_of_mem _ List.mem_cons_self) a b)
    · exact ⟨b, rest, rfl⟩
  all_goals cases hd

theorem unmerged_regroup {items : List SetItem} (h : NoRange items) : Unmerged (regroup items) := by
  fun_induction regroup items with
  | case1 a b items ih =>
    exact ih fun i hi => h i (List.mem_cons_of_mem _ (List.mem_cons_of_mem _ (List.mem_cons_of_mem _ hi)))
  | case2 i items hne ih =>
    have ih := ih fun j hj => h j (List.mem_cons_of_mem _ hj)
    cases i with
    | single a =>
      refine ⟨?_, ih⟩
      rw [beginWithDash_regroup, ← Bool.not_eq_true]
      intro hd
      obtain ⟨b, rest, rfl⟩ := exists_dash (fun j hj => h j (List.mem_cons_of_mem _ hj)) hd
      exact hne a b rest rfl rfl
    | _ => exact ih
  | case3 => trivial

/-- Any valid items have the text of valid ones that reading keeps apart. -/
theorem exists_unmerged {items : List SetItem} (h : ∀ i ∈ items, i.Valid) : ∃ items' : List SetItem,
    (∀ i ∈ items', i.Valid) ∧ Unmerged items' ∧ items.flatMap render = items'.flatMap render := by
  refine ⟨regroup (items.flatMap split), valid_regroup fun i hi => ?_,
    unmerged_regroup (noRange_split items), ?_⟩
  · obtain ⟨j, hj, hi⟩ := List.mem_flatMap.1 hi
    exact valid_split (h j hj) i hi
  · rw [render_regroup, List.flatMap_assoc]
    exact List.flatMap_congr fun i _ => (render_split i).symm

/-- The text `a--b` is a range up to `-`, and `b`. -/
example : regroup [single (.plain 'a'), single (.plain '-'), single (.plain '-'), single (.plain 'b')] =
    [range (.plain 'a') (.plain '-'), single (.plain 'b')] := rfl

end SetItem

namespace Grammar

variable {s : List Char}

theorem mem_setItem : s ∈ setItem ↔ ∃ i : SetItem, i.Valid ∧ s = i.render := by
  simp only [setItem, Language.mem_add, Language.mem_mul, mem_named, mem_character]
  constructor
  · rintro ((⟨l, hl, rfl⟩ | ⟨_, ⟨_, ⟨a, ha, rfl⟩, _, rfl, rfl⟩, _, ⟨b, hb, rfl⟩, rfl⟩) | ⟨a, ha, rfl⟩)
    · exact ⟨.named l, hl, rfl⟩
    · exact ⟨.range a b, ⟨ha, hb⟩, by simp [SetItem.render]⟩
    · exact ⟨.single a, ha, rfl⟩
  · rintro ⟨i, hi, rfl⟩
    cases i with
    | named l => exact .inl (.inl ⟨l, hi, rfl⟩)
    | range a b =>
      exact .inl (.inr ⟨_, ⟨_, ⟨a, hi.1, rfl⟩, _, rfl, rfl⟩, _, ⟨b, hi.2, rfl⟩, by simp [SetItem.render]⟩)
    | single a => exact .inr ⟨a, hi, rfl⟩

theorem each_item_iff {items : List SetItem} {r : List Char} :
    Parser.Each (fun i s _ => SetItem.Valid i ∧ s = i.render) items s r ↔
      (∀ i ∈ items, i.Valid) ∧ s = items.flatMap SetItem.render := by
  constructor
  · intro h
    induction h with
    | nil => exact ⟨by rintro i ⟨⟩, rfl⟩
    | cons hi _ ih =>
      rw [List.flatMap_cons, ← hi.2, ← ih.2]
      exact ⟨List.forall_mem_cons.2 ⟨hi.1, ih.1⟩, rfl⟩
  · rintro ⟨hv, rfl⟩
    induction items with
    | nil => exact .nil
    | cons i items ih =>
      obtain ⟨hi, hv⟩ := List.forall_mem_cons.1 hv
      exact .cons ⟨hi, rfl⟩ (ih hv)

theorem mem_kstar_setItem : s ∈ setItem∗ ↔ ∃ items : List SetItem,
    (∀ i ∈ items, i.Valid) ∧ SetItem.Unmerged items ∧ s = items.flatMap SetItem.render := by
  rw [mem_kstar_iff (fun s => mem_setItem (s := s)) []]
  constructor
  · rintro ⟨items, h⟩
    obtain ⟨hv, rfl⟩ := each_item_iff.1 h
    exact SetItem.exists_unmerged hv
  · rintro ⟨items, hv, -, rfl⟩
    exact ⟨items, each_item_iff.2 ⟨hv, rfl⟩⟩

theorem mem_set : s ∈ set ↔ ∃ negated items, (∀ i ∈ items, SetItem.Valid i) ∧ SetItem.Unmerged items ∧
    s = Regex.renderSet negated items := by
  simp only [set, Language.mem_mul, Language.mem_add, Language.mem_one, mem_kstar_setItem]
  constructor
  · rintro ⟨_, ⟨_, ⟨_, rfl, c, hc, rfl⟩, _, ⟨items, hv, hu, rfl⟩, rfl⟩, _, rfl, rfl⟩
    rcases hc with rfl | rfl
    · exact ⟨false, items, hv, hu, by simp [Regex.renderSet]⟩
    · exact ⟨true, items, hv, hu, by simp [Regex.renderSet]⟩
  · rintro ⟨negated, items, hv, hu, rfl⟩
    refine ⟨_, ⟨_, ⟨_, rfl, if negated then ['^'] else [], ?_, rfl⟩, _, ⟨items, hv, hu, rfl⟩, rfl⟩,
      _, rfl, by simp [Regex.renderSet]⟩
    cases negated with
    | true => exact .inr rfl
    | false => exact .inl rfl

/-! ## Quantifiers -/

theorem mem_blanks : s ∈ blanks ↔ AllBlank s := mem_kstar_oneOf

theorem mem_number : s ∈ number ↔ ∃ n, IsNumeral n s := by
  have hd : ∀ c : Char, c.isDigit ↔ '0' ≤ c ∧ c ≤ '9' := by
    intro c
    simp [Char.isDigit, Char.le_def]
  constructor
  · rintro ⟨hne, hs, hle⟩
    refine ⟨.ofNat (Nat.ofDigitChars 10 s 0), hne, fun c hc => (hd c).2 (hs c hc), ?_⟩
    exact (UInt32.toNat_ofNat_of_lt' (Nat.lt_succ_of_le hle)).symm
  · rintro ⟨n, hne, hs, hn⟩
    exact ⟨hne, fun c hc => (hd c).1 (hs c hc), hn ▸ Nat.le_of_lt_succ n.toNat_lt⟩

theorem mem_tail (n : UInt32) :
    s ∈ blanks * ((1 + word [','] * (blanks * (1 + number))) * (blanks * word ['}'])) ↔
      ∃ q, Quantifier.TailOf n q s := by
  simp only [Language.mem_mul, Language.mem_add, Language.mem_one, mem_blanks, mem_number, mem_word]
  constructor
  · rintro ⟨w, hw, _, ⟨v, hv, _, ⟨w', hw', _, rfl, rfl⟩, rfl⟩, rfl⟩
    rcases hv with rfl | ⟨_, rfl, _, ⟨u, hu, es, hes, rfl⟩, rfl⟩
    · refine ⟨.exactly n, ?_⟩
      have := Quantifier.TailOf.exactly (n := n) (hw.append hw')
      simpa using this
    rcases hes with rfl | ⟨m, hm⟩
    · refine ⟨.atLeast n, ?_⟩
      have := Quantifier.TailOf.atLeast (n := n) hw (hu.append hw')
      simpa using this
    · refine ⟨.between n m, ?_⟩
      have := Quantifier.TailOf.between (n := n) hw hu hm hw'
      simpa using this
  · rintro ⟨q, hq⟩
    cases hq with
    | @exactly w hw => exact ⟨w, hw, _, ⟨[], .inl rfl, _, ⟨[], .nil, _, rfl, rfl⟩, rfl⟩, rfl⟩
    | @atLeast w u hw hu =>
      refine ⟨w, hw, _, ⟨',' :: u, .inr ⟨_, rfl, u, ⟨u, hu, [], .inl rfl, ?_⟩, rfl⟩, _,
        ⟨[], .nil, _, rfl, rfl⟩, rfl⟩, rfl⟩
      exact List.append_nil u
    | @between m w u es u' hw hu hm hu' =>
      refine ⟨w, hw, _, ⟨',' :: (u ++ es), .inr ⟨_, rfl, _, ⟨u, hu, es, .inr ⟨m, hm⟩, rfl⟩, rfl⟩, _,
        ⟨u', hu', _, rfl, rfl⟩, rfl⟩, ?_⟩
      simp

theorem mem_braces : s ∈ braces ↔ ∃ q, Quantifier.SpelledBy q s ∧ s.head? = some '{' := by
  simp only [braces, mul_assoc, Quantifier.spelledBy_braces_iff]
  constructor
  · rintro ⟨_, rfl, _, ⟨w, hw, _, ⟨ds, hds, t, ht, rfl⟩, rfl⟩, rfl⟩
    obtain ⟨n, hn⟩ := mem_number.1 hds
    obtain ⟨q, hq⟩ := (mem_tail n).1 ht
    exact ⟨q, n, w, ds, t, rfl, mem_blanks.1 hw, hn, hq⟩
  · rintro ⟨q, n, w, ds, t, rfl, hw, hn, ht⟩
    exact ⟨_, rfl, _, ⟨w, mem_blanks.2 hw, _, ⟨ds, mem_number.2 ⟨n, hn⟩, t, (mem_tail n).2 ⟨q, ht⟩, rfl⟩,
      rfl⟩, rfl⟩

theorem mem_suffix : s ∈ suffix ↔ ∃ q, Quantifier.SpelledBy q s := by
  simp only [suffix, Language.mem_add, mem_braces, mem_word]
  constructor
  · rintro (((rfl | rfl) | rfl) | ⟨q, hq, -⟩)
    · exact ⟨_, .star⟩
    · exact ⟨_, .plus⟩
    · exact ⟨_, .opt⟩
    · exact ⟨q, hq⟩
  · rintro ⟨q, hq⟩
    cases hq with
    | star => exact .inl (.inl (.inl rfl))
    | plus => exact .inl (.inl (.inr rfl))
    | opt => exact .inl (.inr rfl)
    | exactly hw hn hw' => exact .inr ⟨_, .exactly hw hn hw', rfl⟩
    | atLeast hw hn hw' hu => exact .inr ⟨_, .atLeast hw hn hw' hu, rfl⟩
    | between hw hn hw' hu hm hu' => exact .inr ⟨_, .between hw hn hw' hu hm hu', rfl⟩

/-! ## Expressions -/

open Regex (Written)

variable {L : Language Char} {d : Nat}

/-- The words of `L` are what may stand in a group in which less than `d` groups nest. -/
def Inside (L : Language Char) (d : Nat) : Prop :=
  ∀ s, s ∈ L ↔ ∃ e : Regex, e.Fits .alternation ∧ e.nesting < d ∧ e.SpelledBy s

theorem mem_group (hL : Inside L d) (kind : GroupKind) :
    s ∈ word kind.opening * L * word [')'] ↔ ∃ e, Written .atom d (.group kind e) s := by
  simp only [Language.mem_mul, Parser.written_group]
  constructor
  · rintro ⟨_, ⟨_, rfl, u, hu, rfl⟩, _, rfl, rfl⟩
    obtain ⟨e, hf, hn, hs⟩ := (hL u).1 hu
    exact ⟨e, hf, hn, u, hs, List.append_assoc ..⟩
  · rintro ⟨e, hf, hn, u, hs, rfl⟩
    exact ⟨_, ⟨_, rfl, u, (hL u).2 ⟨e, hf, hn, hs⟩, rfl⟩, _, rfl, List.append_assoc ..⟩

theorem mem_atom (hL : Inside L d) : s ∈ atom L ↔ ∃ e, Written .atom d e s := by
  have hg := fun kind => mem_group (s := s) hL kind
  have h := hg .plain
  have h' := hg .capture
  simp only [GroupKind.opening] at h h'
  simp only [atom, Language.mem_add, mem_word, mem_set, mem_named, mem_character, h, h']
  constructor
  · rintro (((((((⟨e, he⟩ | ⟨e, he⟩) | rfl) | rfl) | rfl) | ⟨negated, items, hv, hu, rfl⟩) | ⟨l, hl, rfl⟩) |
      ⟨a, ha, rfl⟩)
    · exact ⟨_, he⟩
    · exact ⟨_, he⟩
    · exact ⟨_, .any, Nat.zero_le d, rfl⟩
    · exact ⟨_, .never, Nat.zero_le d, rfl⟩
    · exact ⟨_, .empty, Nat.zero_le d, rfl⟩
    · exact ⟨_, .set hv hu, Nat.zero_le d, rfl⟩
    · exact ⟨_, .named hl, Nat.zero_le d, rfl⟩
    · exact ⟨_, .literal ha, Nat.zero_le d, rfl⟩
  · rintro ⟨e, hw⟩
    obtain ⟨hf, hn, hs⟩ := id hw
    cases hf with
    | any => exact .inl (.inl (.inl (.inl (.inl (.inr hs)))))
    | never => exact .inl (.inl (.inl (.inl (.inr hs))))
    | empty => exact .inl (.inl (.inl (.inr hs)))
    | set hv hu => exact .inl (.inl (.inr ⟨_, _, hv, hu, hs⟩))
    | named hl => exact .inl (.inr ⟨_, hl, hs⟩)
    | literal ha => exact .inr ⟨_, ha, hs⟩
    | @group kind e _ =>
      cases kind with
      | plain => exact .inl (.inl (.inl (.inl (.inl (.inl (.inl ⟨_, hw⟩))))))
      | capture => exact .inl (.inl (.inl (.inl (.inl (.inl (.inr ⟨_, hw⟩))))))

theorem mem_repetition (hL : Inside L d) : s ∈ repetition L ↔ ∃ e, Written .repetition d e s := by
  simp only [repetition, Language.mem_mul, Language.mem_add, Language.mem_one, mem_suffix, mem_atom hL]
  constructor
  · rintro ⟨u, ⟨e, hf, hn, hs⟩, v, rfl | ⟨q, hq⟩, rfl⟩
    · exact ⟨e, .atom hf, hn, by simpa using hs⟩
    · exact ⟨.quantified e q, .quantified hf, hn, u, v, hs, hq, rfl⟩
  · rintro ⟨e, hf, hn, hs⟩
    cases hf with
    | atom hf => exact ⟨s, ⟨e, hf, hn, hs⟩, [], .inl rfl, List.append_nil s⟩
    | quantified hf =>
      obtain ⟨u, v, hu, hv, rfl⟩ := hs
      exact ⟨u, ⟨_, hf, hn, hu⟩, v, .inr ⟨_, hv⟩, rfl⟩

theorem mem_concatenation (hL : Inside L d) : s ∈ concatenation L ↔ ∃ e, Written .concatenation d e s := by
  have hend : ∀ x ∈ ([] : List Char).head?, x = '|' ∨ x = ')' := by rintro x ⟨⟩
  rw [concatenation, mem_kstar_iff (fun s => mem_repetition (s := s) hL) []]
  constructor
  · rintro ⟨es, he⟩
    refine ⟨.concat es, (Parser.concatenationRead_iff hend).1 ⟨es, rfl, ?_, Parser.stuck_repetition hend⟩⟩
    exact (Parser.each_repetition_iff fun x hx => .inr (hend x hx)).2 he
  · rintro ⟨e, hw⟩
    obtain ⟨es, -, he, -⟩ := (Parser.concatenationRead_iff hend).2 hw
    exact ⟨es, (Parser.each_repetition_iff fun x hx => .inr (hend x hx)).1 he⟩

theorem mem_alternation (hL : Inside L d) : s ∈ alternation L ↔ ∃ e, Written .alternation d e s := by
  have hb : ∀ s, s ∈ word ['|'] * concatenation L ↔ ∃ e, Parser.BarWritten d e s := by
    intro s
    simp only [Language.mem_mul, mem_concatenation hL]
    constructor
    · rintro ⟨_, rfl, u, ⟨e, he⟩, rfl⟩
      exact ⟨e, u, rfl, he⟩
    · rintro ⟨e, u, rfl, he⟩
      exact ⟨_, rfl, u, ⟨e, he⟩, rfl⟩
  simp only [alternation, Language.mem_mul, mem_concatenation hL, mem_kstar_iff hb [],
    Parser.written_alternation, Parser.spine_iff []]
  constructor
  · rintro ⟨u, ⟨e, he⟩, v, ⟨es, hes⟩, rfl⟩
    exact ⟨_, e, es, u, v, rfl, rfl, he, hes⟩
  · rintro ⟨_, e, es, u, v, rfl, rfl, he, hes⟩
    exact ⟨u, ⟨e, he⟩, v, ⟨es, hes⟩, rfl⟩

theorem mem_inside : ∀ d, Inside (inside d) d
  | 0 => by
    intro s
    constructor
    · rintro ⟨⟩
    · rintro ⟨e, -, hn, -⟩
      exact absurd hn (Nat.not_lt_zero _)
  | d + 1 => by
    intro s
    rw [inside, mem_alternation (mem_inside d)]
    simp only [Written, Nat.lt_succ_iff]

end Grammar

/-- **The texts that are read are the words of the grammar.** -/
theorem Regex.exists_parse_eq_ok_iff_mem_pattern (text : String) :
    (∃ e, parse text = .ok e) ↔ text.toList ∈ Grammar.pattern := by
  rw [Grammar.pattern, Grammar.mem_alternation (Grammar.mem_inside 256)]
  refine exists_congr fun e => ?_
  rw [parse_eq_ok_iff, WellFormed, and_assoc]
  exact Iff.rfl

end RegexNotation
