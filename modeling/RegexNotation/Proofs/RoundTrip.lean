/-
  What printing and reading give back.

  * Trees: those that are well-formed, and no tree that is not is ever read.
  * Texts: those that were read, up to the braces of quantifiers.  `tidy` drops the blanks and superfluous zeros
    from the inside of such braces, and `canon` does so in a whole text, which it scans without reading it as a
    pattern: a backslash hides the character behind it, and the braces of `\u{` are no quantifier.

  `canon_append`: the scan of a spelled expression goes as far as the expression, and leaves its printed text.
  `canon_eq_self_iff`: the scan changes nothing iff there is nothing to tidy.
-/
import RegexNotation.Proofs.Patterns

namespace RegexNotation

/-! ## Trees -/

namespace Regex

/-- **The well-formed trees are those that printing and reading give back**, and nothing else is ever read. -/
theorem parse_print_eq_ok_iff_wellFormed (e : Regex) :
    (parse e.print = .ok e ↔ e.WellFormed) ∧ ∀ text, parse text = .ok e → e.WellFormed :=
  ⟨parse_print_iff, fun _ h => (parse_eq_ok_iff.1 h).1⟩

theorem parse_print_eq_ok_iff_wellFormed_at :
    let e := group .plain (alt (set true [.single (.plain 'a'), .single (.plain '-')])
      (quantified (literal (.hex2 "5b")) (.between 2 1)))
    parse "(?:[^a-]|\\x5b\x7b 02 , 001\x7d)" = .ok e ∧ e.WellFormed ∧ parse e.print = .ok e := by
  intro e
  have h : parse "(?:[^a-]|\\x5b\x7b 02 , 001\x7d)" = .ok e := by decide +kernel
  have hw : e.WellFormed := (parse_print_eq_ok_iff_wellFormed e).2 _ h
  exact ⟨h, hw, (parse_print_eq_ok_iff_wellFormed e).1.2 hw⟩

end Regex

/-! ## The scan -/

def beginsWithDigit (s : List Char) : Bool := s.head?.any Char.isDigit

def endsInDigit (s : List Char) : Bool := s.getLast?.any Char.isDigit

/-- Drops blanks, and zeros that a digit follows but none precedes.  `inRun` tells whether one precedes. -/
def tidyFrom (inRun : Bool) : List Char → List Char
  | [] => []
  | c :: s =>
    if Text.isBlank c then tidyFrom false s
    else if c = '0' && !inRun && beginsWithDigit s then tidyFrom false s
    else c :: tidyFrom c.isDigit s

/-- The inside of braces without blanks and superfluous zeros. -/
def tidy (body : List Char) : List Char := tidyFrom false body

/-- What stands before the next closing brace. -/
def upToBrace (s : List Char) : List Char := s.takeWhile (· ≠ '}')

/-- The next closing brace and what follows it. -/
def fromBrace (s : List Char) : List Char := s.dropWhile (· ≠ '}')

theorem length_fromBrace_le (s : List Char) : (fromBrace s).length ≤ s.length :=
  (List.dropWhile_sublist _).length_le

/-- The text with the braces of quantifiers tidied. -/
def canon : List Char → List Char
  | '\\' :: 'u' :: '{' :: s => '\\' :: 'u' :: '{' :: (upToBrace s ++ canon (fromBrace s))
  | '\\' :: c :: s => '\\' :: c :: canon s
  | '{' :: s => '{' :: (tidy (upToBrace s) ++ canon (fromBrace s))
  | c :: s => c :: canon s
  | [] => []
termination_by s => s.length
decreasing_by
  all_goals
    have := length_fromBrace_le s
    simp only [List.length_cons]
    omega

/-- The insides of the braces of quantifiers. -/
def bracketed : List Char → List (List Char)
  | '\\' :: 'u' :: '{' :: s => bracketed (fromBrace s)
  | '\\' :: _ :: s => bracketed s
  | '{' :: s => upToBrace s :: bracketed (fromBrace s)
  | _ :: s => bracketed s
  | [] => []
termination_by s => s.length
decreasing_by
  all_goals
    have := length_fromBrace_le s
    simp only [List.length_cons]
    omega

/-- No blank, and no zero that begins a longer run of digits. -/
def IsTidy (body : List Char) : Prop :=
  (∀ c ∈ body, Text.isBlank c = false) ∧
    ∀ u v, body = u ++ '0' :: v → beginsWithDigit v → endsInDigit u

/-! ## Steps of the scan -/

section
variable {c : Char} {s : List Char}

theorem canon_cons (h : c ≠ '\\') (h' : c ≠ '{') : canon (c :: s) = c :: canon s := by
  rw [canon]
  · rintro s' hc
    exact absurd hc h
  · rintro d s' hc
    exact absurd hc h
  · exact h'

theorem canon_quote (h : c ≠ 'u') : canon ('\\' :: c :: s) = '\\' :: c :: canon s := by
  rw [canon]
  rintro s' hc
  exact absurd hc h

theorem canon_u (h : c ≠ '{') : canon ('\\' :: 'u' :: c :: s) = '\\' :: 'u' :: canon (c :: s) := by
  rw [canon]
  rintro s' - hs
  exact h (List.cons.inj hs).1

theorem canon_append_plain {t : List Char} (h : ∀ c ∈ t, c ≠ '\\' ∧ c ≠ '{') :
    canon (t ++ s) = t ++ canon s := by
  induction t with
  | nil => rfl
  | cons c t ih =>
    obtain ⟨hc, ht⟩ := List.forall_mem_cons.1 h
    rw [List.cons_append, canon_cons hc.1 hc.2, ih ht]
    rfl

theorem upToBrace_append {t : List Char} (h : ∀ c ∈ t, c ≠ '}') :
    upToBrace (t ++ '}' :: s) = t := by
  rw [upToBrace, List.takeWhile_append_of_pos (by simpa using h)]
  simp

theorem fromBrace_append {t : List Char} (h : ∀ c ∈ t, c ≠ '}') :
    fromBrace (t ++ '}' :: s) = '}' :: s := by
  rw [fromBrace, List.dropWhile_append_of_pos (by simpa using h)]
  simp

theorem canon_braces {t : List Char} (h : ∀ c ∈ t, c ≠ '}') :
    canon ('{' :: (t ++ '}' :: s)) = '{' :: (tidy t ++ '}' :: canon s) := by
  rw [canon, upToBrace_append h, fromBrace_append h, canon_cons (by decide) (by decide)]

theorem canon_hexBraced {t : List Char} (h : ∀ c ∈ t, c ≠ '}') :
    canon ('\\' :: 'u' :: '{' :: (t ++ '}' :: s)) = '\\' :: 'u' :: '{' :: (t ++ '}' :: canon s) := by
  rw [canon, upToBrace_append h, fromBrace_append h, canon_cons (by decide) (by decide)]

end

/-! ## Numerals -/

theorem digitChar_of_isDigit {c : Char} (h : c.isDigit) : (c.toNat - '0'.toNat).digitChar = c := by
  rw [Char.isDigit_iff_toNat] at h
  have h0 : '0'.toNat = 48 := rfl
  have h9 : '9'.toNat = 57 := rfl
  apply Char.toNat_inj.1
  rw [Nat.toNat_digitChar_of_lt_ten (by omega)]
  omega

theorem digitValue_lt_ten {c : Char} (h : c.isDigit) : c.toNat - '0'.toNat < 10 := by
  rw [Char.isDigit_iff_toNat] at h
  have h9 : '9'.toNat = 57 := rfl
  have h0 : '0'.toNat = 48 := rfl
  omega

/-- Further digits behind a number that is not zero are written as they are. -/
theorem toDigits_ofDigitChars {ds : List Char} (h : ∀ c ∈ ds, c.isDigit) :
    ∀ n, 0 < n → Nat.toDigits 10 (Nat.ofDigitChars 10 ds n) = Nat.toDigits 10 n ++ ds := by
  induction ds with
  | nil => intro n _; simp
  | cons c ds ih =>
    intro n hn
    obtain ⟨hc, hds⟩ := List.forall_mem_cons.1 h
    have hlt := digitValue_lt_ten hc
    rw [Nat.ofDigitChars_cons, ih hds _ (by omega), ← Nat.toDigits_append_toDigits (by decide) hn hlt,
      Nat.toDigits_of_lt_base hlt, digitChar_of_isDigit hc, List.append_assoc]
    rfl

theorem toDigits_ofDigitChars_cons {c : Char} {ds : List Char} (hc : c.isDigit) (h0 : c ≠ '0')
    (h : ∀ c ∈ ds, c.isDigit) : Nat.toDigits 10 (Nat.ofDigitChars 10 (c :: ds) 0) = c :: ds := by
  have hlt := digitValue_lt_ten hc
  have hpos : 0 < c.toNat - '0'.toNat := by
    rw [Char.isDigit_iff_toNat] at hc
    have : c.toNat ≠ '0'.toNat := fun h => h0 (Char.toNat_inj.1 h)
    omega
  rw [Nat.ofDigitChars_cons, Nat.mul_zero, Nat.zero_add, toDigits_ofDigitChars h _ hpos,
    Nat.toDigits_of_lt_base hlt, digitChar_of_isDigit hc]
  rfl

/-! ## Tidying -/

theorem tidyFrom_cons {c : Char} {s : List Char} {b : Bool} (hc : Text.isBlank c = false)
    (h : (c = '0' && !b && beginsWithDigit s) = false) :
    tidyFrom b (c :: s) = c :: tidyFrom c.isDigit s := by
  rw [tidyFrom, hc, h]
  rfl

theorem tidy_blank_append {w : List Char} (hw : AllBlank w) (r : List Char) : tidy (w ++ r) = tidy r := by
  induction w with
  | nil => rfl
  | cons c w ih =>
    obtain ⟨hc, hw⟩ := List.forall_mem_cons.1 hw
    rw [List.cons_append, tidy, tidyFrom, if_pos hc]
    exact ih hw

theorem tidy_comma (r : List Char) : tidy (',' :: r) = ',' :: tidy r := tidyFrom_cons (by decide) rfl

variable {ds r : List Char}

theorem beginsWithDigit_eq_false (hr : ∀ x ∈ r.head?, x.isDigit = false) : beginsWithDigit r = false := by
  cases r with
  | nil => rfl
  | cons x r => exact hr x rfl

/-- Behind a run of digits it makes no difference that there was one. -/
theorem tidyFrom_eq_tidy (hr : ∀ x ∈ r.head?, x.isDigit = false) (b : Bool) : tidyFrom b r = tidy r := by
  cases r with
  | nil => rfl
  | cons x r =>
    have hx : x ≠ '0' := by
      rintro rfl
      exact absurd (hr '0' rfl) (by decide)
    rw [tidy, tidyFrom, tidyFrom]
    simp only [hx, decide_false, Bool.false_and]

theorem tidyFrom_digits (h : ∀ c ∈ ds, c.isDigit) (hr : ∀ x ∈ r.head?, x.isDigit = false) :
    tidyFrom true (ds ++ r) = ds ++ tidy r := by
  induction ds with
  | nil => exact tidyFrom_eq_tidy hr true
  | cons c ds ih =>
    obtain ⟨hc, hds⟩ := List.forall_mem_cons.1 h
    rw [List.cons_append, tidyFrom_cons (Parser.isBlank_of_isDigit hc) (by simp), hc, ih hds]
    rfl

/-- A run of digits is tidied into the numeral of its value. -/
theorem tidy_digits_append (hne : ds ≠ []) (h : ∀ c ∈ ds, c.isDigit)
    (hr : ∀ x ∈ r.head?, x.isDigit = false) :
    tidy (ds ++ r) = Nat.toDigits 10 (Nat.ofDigitChars 10 ds 0) ++ tidy r := by
  induction ds with
  | nil => exact absurd rfl hne
  | cons c ds ih =>
    obtain ⟨hc, hds⟩ := List.forall_mem_cons.1 h
    by_cases h0 : c = '0'
    · subst h0
      rw [Nat.ofDigitChars_cons]
      cases ds with
      | nil =>
        rw [List.cons_append, List.nil_append, tidy, tidyFrom_cons (by decide),
          tidyFrom_eq_tidy hr]
        · rfl
        · rw [beginsWithDigit_eq_false hr, Bool.and_false]
      | cons d ds =>
        have hd : beginsWithDigit (d :: ds ++ r) := hds d List.mem_cons_self
        rw [List.cons_append, tidy, tidyFrom, if_neg (by decide), hd, if_pos (by rfl)]
        exact ih (List.cons_ne_nil d ds) hds
    · rw [toDigits_ofDigitChars_cons hc h0 hds, List.cons_append, tidy,
        tidyFrom_cons (Parser.isBlank_of_isDigit hc) (by simp [h0]), hc, tidyFrom_digits hds hr]
      rfl

theorem tidy_numeral_append {n : UInt32} (h : IsNumeral n ds) (hr : ∀ x ∈ r.head?, x.isDigit = false) :
    tidy (ds ++ r) = boundDigits n ++ tidy r := by
  rw [tidy_digits_append h.1 h.2.1 hr, h.2.2]
  rfl

example : tidy " 007 , 0".toList = "7,0".toList := by decide

theorem AllBlank.ne_brace {w : List Char} (hw : AllBlank w) : ∀ c ∈ w, c ≠ '}' := by
  rintro c hc rfl
  exact absurd (hw _ hc) (by decide)

theorem IsNumeral.ne_brace {n : UInt32} (h : IsNumeral n ds) : ∀ c ∈ ds, c ≠ '}' := by
  rintro c hc rfl
  exact absurd (h.2.1 _ hc) (by decide)

/-- The text of a quantifier is a mark, or tidied into the printed text. -/
theorem Quantifier.SpelledBy.eq_render_or {q : Quantifier} {s : List Char} (h : q.SpelledBy s) :
    (s = q.render ∧ ∀ c ∈ s, c ≠ '\\' ∧ c ≠ '{') ∨
      ∃ t, s = '{' :: (t ++ ['}']) ∧ (∀ c ∈ t, c ≠ '}') ∧ q.render = '{' :: (tidy t ++ ['}']) := by
  have hblank : ∀ {w}, AllBlank w → tidy w = [] := by
    intro w hw
    rw [← List.append_nil w, tidy_blank_append hw]
    rfl
  have hnil : ∀ x ∈ ([] : List Char).head?, x.isDigit = false := by rintro x ⟨⟩
  have hcomma : ∀ l, ∀ x ∈ (',' :: l).head?, x.isDigit = false := by
    rintro l x ⟨⟩
    decide
  cases h with
  | star | plus | opt => exact .inl ⟨rfl, by simp⟩
  | @exactly n w ds w' hw hn hw' =>
    refine .inr ⟨w ++ (ds ++ w'), by simp, ?_, ?_⟩
    · simp only [List.forall_mem_append]
      exact ⟨hw.ne_brace, hn.ne_brace, hw'.ne_brace⟩
    · rw [tidy_blank_append hw, tidy_numeral_append hn, hblank hw', List.append_nil]
      · rfl
      · simpa using Parser.head?_blank_append hw' hnil
  | @atLeast n w ds w' u hw hn hw' hu =>
    refine .inr ⟨w ++ (ds ++ (w' ++ ',' :: u)), by simp, ?_, ?_⟩
    · simp only [List.forall_mem_append, List.forall_mem_cons]
      exact ⟨hw.ne_brace, hn.ne_brace, hw'.ne_brace, by decide, hu.ne_brace⟩
    · rw [tidy_blank_append hw, tidy_numeral_append hn (Parser.head?_blank_append hw' (hcomma u)),
        tidy_blank_append hw', tidy_comma, hblank hu, List.append_assoc]
      rfl
  | @between n m w ds w' u es u' hw hn hw' hu hm hu' =>
    refine .inr ⟨w ++ (ds ++ (w' ++ ',' :: (u ++ (es ++ u')))), by simp, ?_, ?_⟩
    · simp only [List.forall_mem_append, List.forall_mem_cons]
      exact ⟨hw.ne_brace, hn.ne_brace, hw'.ne_brace, by decide, hu.ne_brace, hm.ne_brace, hu'.ne_brace⟩
    · rw [tidy_blank_append hw, tidy_numeral_append hn (Parser.head?_blank_append hw' (hcomma _)),
        tidy_blank_append hw', tidy_comma, tidy_blank_append hu, tidy_numeral_append hm, hblank hu',
        List.append_nil, List.append_assoc]
      · rfl
      · simpa using Parser.head?_blank_append hu' hnil

/-! ## The scan of an expression -/

theorem canon_quantifier {q : Quantifier} {s : List Char} (h : q.SpelledBy s) (r : List Char) :
    canon (s ++ r) = q.render ++ canon r := by
  rcases h.eq_render_or with ⟨rfl, hs⟩ | ⟨t, rfl, ht, hq⟩
  · exact canon_append_plain hs
  · rw [hq, List.cons_append, List.append_assoc, List.cons_append, List.nil_append, canon_braces ht]
    simp

theorem ne_of_isHexDigit {c : Char} (h : Hex.isDigit c) : (c ≠ '\\' ∧ c ≠ '{') ∧ c ≠ '}' := by
  refine ⟨⟨?_, ?_⟩, ?_⟩
  all_goals
    rintro rfl
    exact absurd h (by decide)

theorem canon_literal {a : Literal} (ha : a.Valid) (r : List Char) :
    canon (a.render ++ r) = a.render ++ canon r := by
  cases a with
  | plain c =>
    exact canon_cons (Parser.ne_of_isReserved ha (by decide)) (Parser.ne_of_isReserved ha (by decide))
  | escaped c => exact canon_quote (Parser.ne_of_isEscapable ha).2.1
  | control c =>
    refine canon_quote ?_
    rintro rfl
    exact absurd ha (by decide)
  | hex2 ds =>
    show canon ('\\' :: 'x' :: (ds.toList ++ r)) = _
    rw [canon_quote (by decide), canon_append_plain fun c hc => (ne_of_isHexDigit (ha.2 c hc)).1]
    rfl
  | hex4 ds =>
    have hl : ds.toList.length = 4 := ha.1
    have hd : ∀ c ∈ ds.toList, Hex.isDigit c := ha.2
    show canon ('\\' :: 'u' :: (ds.toList ++ r)) = '\\' :: 'u' :: (ds.toList ++ canon r)
    generalize ds.toList = t at hl hd
    rcases t with _ | ⟨d, t⟩
    · cases hl
    · rw [List.cons_append, canon_u (ne_of_isHexDigit (hd d List.mem_cons_self)).1.2, ← List.cons_append,
        canon_append_plain fun c hc => (ne_of_isHexDigit (hd c hc)).1]
  | hexBraced ds =>
    have h := canon_hexBraced (s := r) fun c hc => (ne_of_isHexDigit (ha.2.2 c hc)).2
    simpa [Literal.render] using h

theorem canon_named {l : Char} (hl : NamedSet.isName l) (r : List Char) :
    canon ('\\' :: l :: r) = '\\' :: l :: canon r := by
  refine canon_quote ?_
  rintro rfl
  exact absurd hl (by decide)

theorem canon_items {items : List SetItem} (hv : ∀ i ∈ items, i.Valid) (r : List Char) :
    canon (items.flatMap SetItem.render ++ r) = items.flatMap SetItem.render ++ canon r := by
  induction items with
  | nil => rfl
  | cons i items ih =>
    obtain ⟨hi, hvs⟩ := List.forall_mem_cons.1 hv
    rw [List.flatMap_cons, List.append_assoc, List.append_assoc, ← ih hvs]
    cases i with
    | named l => exact canon_named hi _
    | range a b =>
      rw [SetItem.render, List.append_assoc, List.append_assoc, canon_literal hi.1, List.cons_append,
        canon_cons (by decide) (by decide), canon_literal hi.2]
      rfl
    | single a => exact canon_literal hi _

theorem canon_set {items : List SetItem} (hv : ∀ i ∈ items, i.Valid) (negated : Bool) (r : List Char) :
    canon (Regex.renderSet negated items ++ r) = Regex.renderSet negated items ++ canon r := by
  have hopen : ∀ c ∈ '[' :: (if negated then ['^'] else []), c ≠ '\\' ∧ c ≠ '{' := by
    cases negated <;> simp
  have hclose : canon (']' :: r) = ']' :: canon r := canon_cons (by decide) (by decide)
  have h := canon_append_plain (s := items.flatMap SetItem.render ++ ']' :: r) hopen
  rw [canon_items hv, hclose] at h
  simpa [Regex.renderSet] using h

/-- The scan of a spelled expression leaves its printed text. -/
theorem canon_append {ℓ : Level} {e : Regex} (hf : e.Fits ℓ) :
    ∀ {s : List Char}, e.SpelledBy s → ∀ r, canon (s ++ r) = e.render ++ canon r := by
  induction hf with
  | concatenation _ ih | sequence _ ih | repetition _ ih | atom _ ih => exact ih
  | alt _ _ ihl ihr =>
    rintro s ⟨u, v, hu, hv, rfl⟩ r
    rw [List.append_assoc, ihl hu, List.cons_append, canon_cons (by decide) (by decide), ihr hv, Regex.render,
      List.append_assoc, List.cons_append]
  | cat _ _ ihl ihr =>
    rintro s ⟨u, v, hu, hv, rfl⟩ r
    rw [List.append_assoc, ihl hu, ihr hv, Regex.render, List.append_assoc]
  | quantified _ ih =>
    rintro s ⟨u, v, hu, hv, rfl⟩ r
    rw [List.append_assoc, ih hu, canon_quantifier hv, Regex.render, List.append_assoc]
  | @group kind e _ ih =>
    rintro s ⟨u, hu, rfl⟩ r
    have hopen : ∀ c ∈ kind.opening, c ≠ '\\' ∧ c ≠ '{' := by cases kind <;> simp [GroupKind.opening]
    rw [List.append_assoc, canon_append_plain hopen, List.append_assoc, ih hu, List.cons_append,
      List.nil_append, canon_cons (by decide) (by decide), Regex.render]
    simp
  | set hv _ => rintro s rfl r; exact canon_set hv _ r
  | named hl => rintro s rfl r; exact canon_named hl r
  | literal ha => rintro s rfl r; exact canon_literal ha r
  | any | empty | never => rintro s rfl r; exact canon_append_plain (by simp [Regex.render])
  | blank => rintro s rfl r; rfl

/-! ## What the scan leaves alone -/

theorem length_tidyFrom_le (b : Bool) (s : List Char) : (tidyFrom b s).length ≤ s.length := by
  fun_induction tidyFrom b s with
  | case1 => exact Nat.le_refl _
  | case2 _ c s _ ih => exact Nat.le_succ_of_le ih
  | case3 _ c s _ _ ih => exact Nat.le_succ_of_le ih
  | case4 _ c s _ _ ih => exact Nat.succ_le_succ ih

theorem tidyFrom_ne_cons (b : Bool) (c : Char) (s : List Char) : tidyFrom b s ≠ c :: s := by
  intro h
  have := length_tidyFrom_le b s
  rw [h, List.length_cons] at this
  omega

theorem endsInDigit_cons (c : Char) (u : List Char) :
    endsInDigit (c :: u) = (endsInDigit u || u.isEmpty && c.isDigit) := by
  rw [endsInDigit, endsInDigit, List.getLast?_cons]
  cases u with
  | nil => rfl
  | cons d u => simp [List.getLast?_cons]

theorem tidyFrom_eq_self_iff {b : Bool} {s : List Char} : tidyFrom b s = s ↔
    (∀ c ∈ s, Text.isBlank c = false) ∧
      ∀ u v, s = u ++ '0' :: v → beginsWithDigit v → endsInDigit u || u.isEmpty && b := by
  fun_induction tidyFrom b s with
  | case1 => simp
  | case2 b c s hc ih =>
    refine iff_of_false (tidyFrom_ne_cons _ _ _) ?_
    rintro ⟨h, -⟩
    rw [h c List.mem_cons_self] at hc
    cases hc
  | case3 b c s _ h0 ih =>
    simp only [Bool.and_eq_true, decide_eq_true_eq, Bool.not_eq_true'] at h0
    obtain ⟨⟨rfl, rfl⟩, hs⟩ := h0
    refine iff_of_false (tidyFrom_ne_cons _ _ _) ?_
    rintro ⟨-, h⟩
    exact absurd (h [] s rfl hs) (by decide)
  | case4 b c s hc h0 ih =>
    rw [List.cons_inj_right, ih, List.forall_mem_cons]
    rw [Bool.not_eq_true] at hc
    constructor
    · rintro ⟨hs, hz⟩
      refine ⟨⟨hc, hs⟩, fun u v huv hv => ?_⟩
      rcases u with _ | ⟨d, u⟩
      · obtain ⟨rfl, rfl⟩ := List.cons.inj huv
        simpa [hv, endsInDigit] using h0
      · obtain ⟨rfl, rfl⟩ := List.cons.inj huv
        rw [endsInDigit_cons, hz u v rfl hv]
        rfl
    · rintro ⟨⟨-, hs⟩, hz⟩
      refine ⟨hs, fun u v huv hv => ?_⟩
      have := hz (c :: u) v (by rw [huv]; rfl) hv
      rw [endsInDigit_cons] at this
      simpa using this

theorem tidy_eq_self_iff {body : List Char} : tidy body = body ↔ IsTidy body := by
  rw [tidy, tidyFrom_eq_self_iff, IsTidy]
  simp only [Bool.and_false, Bool.or_false]

theorem upToBrace_append_fromBrace (s : List Char) : upToBrace s ++ fromBrace s = s :=
  List.takeWhile_append_dropWhile

theorem length_canon_le (s : List Char) : (canon s).length ≤ s.length := by
  fun_induction canon s with
  | case1 s ih =>
    have := congrArg List.length (upToBrace_append_fromBrace s)
    simp only [List.length_cons, List.length_append] at this ⊢
    omega
  | case2 c s _ ih => exact Nat.succ_le_succ (Nat.succ_le_succ ih)
  | case3 s ih =>
    have := congrArg List.length (upToBrace_append_fromBrace s)
    have := length_tidyFrom_le false (upToBrace s)
    simp only [List.length_cons, List.length_append, tidy] at *
    omega
  | case4 c s _ _ _ ih => exact Nat.succ_le_succ ih
  | case5 => exact Nat.le_refl _

theorem append_eq_iff {s t r : List Char} (ht : t.length ≤ (upToBrace s).length)
    (hr : r.length ≤ (fromBrace s).length) : t ++ r = s ↔ t = upToBrace s ∧ r = fromBrace s := by
  constructor
  · intro h
    rw [← upToBrace_append_fromBrace s] at h
    have hl := congrArg List.length h
    rw [List.length_append, List.length_append] at hl
    exact List.append_inj h (by omega)
  · rintro ⟨rfl, rfl⟩
    exact upToBrace_append_fromBrace s

theorem canon_eq_self_iff {s : List Char} : canon s = s ↔ ∀ body ∈ bracketed s, IsTidy body := by
  fun_induction canon s with
  | case1 s ih =>
    rw [bracketed, ← ih]
    simp only [List.cons_inj_right]
    rw [append_eq_iff (Nat.le_refl _) (length_canon_le _)]
    exact and_iff_right rfl
  | case2 c s hu ih =>
    rw [bracketed, ← ih]
    · simp only [List.cons_inj_right]
    · exact hu
  | case3 s ih =>
    rw [bracketed, List.forall_mem_cons, ← ih, ← tidy_eq_self_iff, List.cons_inj_right]
    exact append_eq_iff (length_tidyFrom_le _ _) (length_canon_le _)
  | case4 c s h1 h2 h3 ih =>
    rw [bracketed, ← ih, List.cons_inj_right]
    · exact h1
    · exact h2
    · exact h3
  | case5 => simp [bracketed]

/-! ## Patterns -/

/-- **A pattern that was read is printed as its text with the braces tidied**, so as its text iff they are
    tidy. -/
theorem Regex.print_eq_canon_of_parse {text : String} {e : Regex} (h : parse text = .ok e) :
    e.print = String.ofList (canon text.toList) ∧
      (e.print = text ↔ ∀ body ∈ bracketed text.toList, IsTidy body) := by
  obtain ⟨hw, hs⟩ := parse_eq_ok_iff.1 h
  have hc : canon text.toList = e.render := by
    have := canon_append hw.1 hs []
    rwa [List.append_nil, canon, List.append_nil] at this
  have hp : e.print = String.ofList (canon text.toList) := by
    rw [hc, ← toList_print, String.ofList_toList]
  refine ⟨hp, ?_⟩
  rw [hp, ← canon_eq_self_iff, ← String.toList_inj, String.toList_ofList]

theorem Regex.print_eq_canon_of_parse_at :
    let e := quantified (literal (.hexBraced "7b")) (.between 0 10)
    let text := "\\u\x7b7b\x7d\x7b 00 , 010 \x7d"
    parse text = .ok e ∧ String.ofList (canon text.toList) = "\\u\x7b7b\x7d\x7b0,10\x7d" ∧
      ¬ ∀ body ∈ bracketed text.toList, IsTidy body := by
  intro e text
  have h : parse text = .ok e := by decide +kernel
  have hp : e.print = "\\u\x7b7b\x7d\x7b0,10\x7d" := by decide
  obtain ⟨hc, hiff⟩ := print_eq_canon_of_parse h
  refine ⟨h, hc.symm.trans hp, fun ht => ?_⟩
  rw [hp] at hiff
  exact absurd (hiff.2 ht) (by decide)

end RegexNotation
