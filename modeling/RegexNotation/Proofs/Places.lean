/-
  Where a text stands.

  `Place` is what the beginning of a pattern ends in, as far as it matters for how it may go on: it is kept by a
  scan that reads one character after another and knows nothing of the grammar but the backslash, the braces
  and the openings of groups.  Sets need no place of their own, for a reserved character is reserved in them too.
  `Place.groups` counts the groups that the scan sees open.

  `Grammar.Leads K K' L` says what the words of a language do to the place: from a place in `K` they lead to one
  in `K'`, and they leave no group open.  Each rule of the grammar has one such lemma, up to `leads_inside`.
-/
import RegexNotation.Proofs.Grammar

namespace RegexNotation

/-! ## The scan -/

/-- What a text ends in. -/
inductive Place where
  /-- `(`, the opening of a group. -/
  | opened
  /-- A backslash. -/
  | quoted
  /-- `\u` -/
  | quotedU
  /-- `\u{` and what may stand in these braces. -/
  | code
  /-- The opening brace of a quantifier and more, with a run of digits of this value at the end. -/
  | bounds (run : Nat)
  /-- `$` or `(?`, which are only a part of a word of the notation. -/
  | torn
  /-- Anything else. -/
  | plain
deriving DecidableEq

namespace Place

/-- The place behind a character that nothing before it gives another meaning. -/
def ofChar (c : Char) : Place :=
  if c = '\\' then quoted
  else if c = '{' then bounds 0
  else if c = '(' then opened
  else if c = '$' then torn
  else plain

/-- The place behind one more character. -/
def read : Place → Char → Place
  | opened, c => if c = '?' then torn else ofChar c
  | quoted, c => if c = 'u' then quotedU else plain
  | quotedU, c => if c = '{' then code else ofChar c
  | code, c => if c = '}' then plain else code
  | bounds v, c =>
    if c = '}' then plain
    else if c.isDigit then bounds (Nat.ofDigitChars 10 [c] v)
    else bounds 0
  | torn, _ => plain
  | plain, c => ofChar c

/-- The place behind a text. -/
def after (k : Place) (s : List Char) : Place := s.foldl read k

/-- Whether a character opens a group, or closes one. -/
def weight (k : Place) (c : Char) : Int :=
  match k with
  | opened | quotedU | plain => if c = '(' then 1 else if c = ')' then -1 else 0
  | _ => 0

/-- How many of the groups that a text opens it leaves open. -/
def groups (k : Place) : List Char → Int
  | [] => 0
  | c :: s => k.weight c + (k.read c).groups s

@[simp] theorem after_nil (k : Place) : k.after [] = k := rfl

@[simp] theorem after_cons (k : Place) (c : Char) (s : List Char) : k.after (c :: s) = (k.read c).after s := rfl

theorem after_append (k : Place) (s t : List Char) : k.after (s ++ t) = (k.after s).after t :=
  List.foldl_append

@[simp] theorem groups_nil (k : Place) : k.groups [] = 0 := rfl

@[simp] theorem groups_cons (k : Place) (c : Char) (s : List Char) :
    k.groups (c :: s) = k.weight c + (k.read c).groups s := rfl

theorem groups_append (k : Place) (s t : List Char) : k.groups (s ++ t) = k.groups s + (k.after s).groups t := by
  induction s generalizing k with
  | nil => simp
  | cons c s ih => rw [List.cons_append, groups_cons, groups_cons, ih, after_cons, Int.add_assoc]

/-- A place where an expression may begin. -/
def Free (k : Place) : Prop := k = opened ∨ k = plain

/-- A place in the braces of a quantifier. -/
def InBounds (k : Place) : Prop := ∃ v, k = bounds v

/-- The groups of a text with braces and quoted characters, one of them left open. -/
example : plain.groups "a(\\(b\x7b1\x7d(?:)".toList = 1 := by decide

end Place

namespace Grammar

open Computability

/-! ## What texts do to the place -/

/-- The words of `L` lead from a place in `K` to one in `K'`, and leave no group open. -/
def Leads (K K' : Place → Prop) (L : Language Char) : Prop :=
  ∀ s ∈ L, ∀ k, K k → K' (k.after s) ∧ k.groups s = 0

variable {K K' K'' : Place → Prop} {L M : Language Char}

theorem Leads.mono (h : Leads K K' L) {J J' : Place → Prop} (hJ : ∀ k, J k → K k) (hJ' : ∀ k, K' k → J' k) :
    Leads J J' L := fun s hs k hk =>
  ⟨hJ' _ (h s hs k (hJ k hk)).1, (h s hs k (hJ k hk)).2⟩

/-- The words of `L` lead from a place in `K` to one in `K'`, with any number of groups left open. -/
def Passes (K K' : Place → Prop) (L : Language Char) : Prop := ∀ s ∈ L, ∀ k, K k → K' (k.after s)

theorem Leads.passes (h : Leads K K' L) : Passes K K' L := fun s hs k hk => (h s hs k hk).1

theorem passes_true : Passes K (fun _ => True) L := fun _ _ _ _ => trivial

theorem leads_zero : Leads K K' 0 := by
  rintro s ⟨⟩

theorem leads_one : Leads K K 1 := by
  rintro s rfl k hk
  exact ⟨hk, rfl⟩

theorem Leads.add (hL : Leads K K' L) (hM : Leads K K' M) : Leads K K' (L + M) := by
  intro s hs
  rcases hs with hs | hs
  · exact hL s hs
  · exact hM s hs

theorem Leads.mul (hL : Leads K K' L) (hM : Leads K' K'' M) : Leads K K'' (L * M) := by
  intro s hs k hk
  obtain ⟨u, hu, v, hv, rfl⟩ := Language.mem_mul.1 hs
  obtain ⟨h1, h2⟩ := hL u hu k hk
  obtain ⟨h3, h4⟩ := hM v hv _ h1
  rw [Place.after_append, Place.groups_append, h2, h4]
  exact ⟨h3, rfl⟩

theorem Leads.kstar (hL : Leads K K L) : Leads K K L∗ := by
  intro s hs
  obtain ⟨parts, rfl, hp⟩ := Language.mem_kstar.1 hs
  clear hs
  induction parts with
  | nil => exact leads_one [] rfl
  | cons u parts ih =>
    obtain ⟨hu, hp⟩ := List.forall_mem_cons.1 hp
    intro k hk
    obtain ⟨h1, h2⟩ := hL u hu k hk
    obtain ⟨h3, h4⟩ := ih hp _ h1
    rw [List.flatten_cons, Place.after_append, Place.groups_append, h2, h4]
    exact ⟨h3, rfl⟩

theorem leads_word {t : List Char} (h : ∀ k, K k → K' (k.after t) ∧ k.groups t = 0) : Leads K K' (word t) := by
  rintro s rfl
  exact h

theorem leads_oneOf {f : Char → Prop} (h : ∀ c, f c → ∀ k, K k → K' (k.read c) ∧ k.weight c = 0) :
    Leads K K' (oneOf f) := by
  rintro s ⟨c, hc, rfl⟩ k hk
  simpa using h c hc k hk

/-! ## Characters and sets -/

theorem leads_free_word {c : Char} (h : Place.ofChar c = .plain) (h' : c ≠ '?') (hc : c ≠ ')') :
    Leads Place.Free (· = .plain) (word [c]) := by
  refine leads_word ?_
  have hp : c ≠ '(' := by
    rintro rfl
    exact absurd h (by decide)
  rintro k (rfl | rfl) <;> simp [Place.read, Place.weight, h, h', hc, hp]

theorem free_of_eq_plain {k : Place} (h : k = .plain) : k.Free := .inr h

theorem Leads.free (h : Leads K (· = .plain) L) : Leads K Place.Free L :=
  h.mono (fun _ h => h) fun _ => free_of_eq_plain

/-- What leads from any free place to a plain one can be read over and over. -/
theorem Leads.kstar_free (h : Leads Place.Free (· = .plain) L) : Leads Place.Free Place.Free L∗ := h.free.kstar

theorem leads_dash : Leads Place.Free Place.Free (word ['-']) :=
  (leads_free_word rfl (by decide) (by decide)).free

theorem leads_openBracket : Leads Place.Free Place.Free (word ['[']) :=
  (leads_free_word rfl (by decide) (by decide)).free

theorem leads_barSign : Leads Place.Free Place.Free (word ['|']) :=
  (leads_free_word rfl (by decide) (by decide)).free

/-- Behind `\\u` or anything else a hexadecimal digit is an ordinary character. -/
theorem read_hexDigit {c : Char} (h : Hex.isDigit c) {k : Place} (hk : k = .plain ∨ k = .quotedU) :
    k.read c = .plain ∧ k.weight c = 0 := by
  have hne : ∀ x : Char, Hex.isDigit x = false → c ≠ x := by
    rintro x hx rfl
    rw [hx] at h
    cases h
  have h1 := hne '\\' (by decide)
  have h2 := hne '{' (by decide)
  have h3 := hne '(' (by decide)
  have h4 := hne '$' (by decide)
  have h5 := hne ')' (by decide)
  rcases hk with rfl | rfl <;> simp [Place.read, Place.ofChar, Place.weight, h1, h2, h3, h4, h5]

theorem leads_hexDigits : Leads (· = .plain) (· = .plain) (oneOf (Hex.isDigit ·))∗ :=
  (leads_oneOf fun _ hc _ hk => read_hexDigit hc (.inl hk)).kstar

theorem leads_code : Leads (· = .code) (· = .code) (oneOf (· ≠ '}'))∗ := by
  refine (leads_oneOf ?_).kstar
  rintro c hc _ rfl
  exact ⟨if_neg hc, rfl⟩

/-- What follows a backslash in the texts of characters. -/
def escape : Language Char := {s | ∃ a : Literal, a.Valid ∧ a.render = '\\' :: s}

theorem character_eq : character = oneOf (Alphabet.isReserved · = false) + word ['\\'] * escape := by
  ext s
  rw [mem_character, Language.mem_add, Language.mem_mul]
  constructor
  · rintro ⟨a, ha, rfl⟩
    cases a with
    | plain c => exact .inl ⟨c, ha, rfl⟩
    | _ => exact .inr ⟨_, rfl, _, ⟨_, ha, rfl⟩, rfl⟩
  · rintro (⟨c, hc, rfl⟩ | ⟨_, rfl, t, ⟨a, ha, h⟩, rfl⟩)
    · exact ⟨.plain c, hc, rfl⟩
    · exact ⟨a, ha, h.symm⟩

theorem leads_backslash : Leads Place.Free (· = .quoted) (word ['\\']) := by
  refine leads_word ?_
  rintro k (rfl | rfl) <;> exact ⟨rfl, rfl⟩

theorem leads_quoted {f : Char → Prop} (h : ∀ c, f c → c ≠ 'u') :
    Leads (· = .quoted) (· = .plain) (oneOf f) := by
  refine leads_oneOf ?_
  rintro c hc _ rfl
  exact ⟨if_neg (h c hc), rfl⟩

theorem leads_escape : Leads (· = .quoted) (· = .plain) escape := by
  rintro s ⟨a, ha, h⟩ _ rfl
  cases a with
  | plain c =>
    obtain ⟨rfl, -⟩ := List.cons.inj h
    exact absurd ha (by decide)
  | escaped c =>
    obtain ⟨-, rfl⟩ := List.cons.inj h
    exact leads_quoted (f := (· ≠ 'u')) (fun _ h => h) _ ⟨c, (Parser.ne_of_isEscapable ha).2.1, rfl⟩ _ rfl
  | control c =>
    obtain ⟨-, rfl⟩ := List.cons.inj h
    have hu : c ≠ 'u' := by
      rintro rfl
      exact absurd ha (by decide)
    exact leads_quoted (f := (· ≠ 'u')) (fun _ h => h) _ ⟨c, hu, rfl⟩ _ rfl
  | hex2 ds =>
    obtain ⟨-, rfl⟩ := List.cons.inj h
    obtain ⟨h1, h2⟩ := leads_hexDigits ds.toList (mem_kstar_oneOf.2 ha.2) _ rfl
    simp [Place.read, Place.weight, h1, h2]
  | hex4 ds =>
    obtain ⟨-, rfl⟩ := List.cons.inj h
    have hl : ds.toList.length = 4 := ha.1
    have hd : ∀ c ∈ ds.toList, Hex.isDigit c := ha.2
    generalize ds.toList = t at hl hd
    obtain ⟨d, t, rfl⟩ := List.exists_cons_of_length_pos (by omega : 0 < t.length)
    obtain ⟨hd, ht⟩ := List.forall_mem_cons.1 hd
    obtain ⟨h1, h2⟩ := read_hexDigit hd (.inr rfl)
    obtain ⟨h3, h4⟩ := leads_hexDigits t (mem_kstar_oneOf.2 ht) _ rfl
    have hu : Place.quoted.read 'u' = .quotedU := rfl
    rw [Place.after_cons, Place.after_cons, Place.groups_cons, Place.groups_cons, hu, h1, h2, h3, h4]
    exact ⟨rfl, rfl⟩
  | hexBraced ds =>
    obtain ⟨-, rfl⟩ := List.cons.inj h
    have hne : ∀ c ∈ ds.toList, c ≠ '}' := by
      rintro c hc rfl
      exact absurd (ha.2.2 _ hc) (by decide)
    obtain ⟨h1, h2⟩ := leads_code ds.toList (mem_kstar_oneOf.2 hne) _ rfl
    simp [Place.read, Place.weight, Place.after_append, Place.groups_append, h1, h2]

theorem leads_literal : Leads Place.Free (· = .plain) (oneOf (Alphabet.isReserved · = false)) := by
  refine leads_oneOf fun c hc k hk => ?_
  have hne : ∀ x, Alphabet.isReserved x → c ≠ x := fun x hx => Parser.ne_of_isReserved hc hx
  have h1 := hne '\\' (by decide)
  have h2 := hne '{' (by decide)
  have h3 := hne '(' (by decide)
  have h4 := hne '$' (by decide)
  have h5 := hne ')' (by decide)
  have h6 := hne '?' (by decide)
  rcases hk with rfl | rfl <;> simp [Place.read, Place.ofChar, Place.weight, h1, h2, h3, h4, h5, h6]

theorem leads_character : Leads Place.Free (· = .plain) character := by
  rw [character_eq]
  exact leads_literal.add (leads_backslash.mul leads_escape)

theorem leads_named : Leads Place.Free (· = .plain) named := by
  refine leads_backslash.mul (leads_quoted ?_)
  rintro _ h rfl
  exact absurd h (by decide)

theorem leads_setItem : Leads Place.Free (· = .plain) setItem :=
  (leads_named.add ((leads_character.free.mul leads_dash).mul leads_character)).add leads_character

theorem leads_caret : Leads Place.Free Place.Free (1 + word ['^']) :=
  leads_one.add (leads_free_word rfl (by decide) (by decide)).free

theorem leads_set : Leads Place.Free (· = .plain) set :=
  ((leads_openBracket.mul leads_caret).mul leads_setItem.kstar_free).mul
    (leads_free_word rfl (by decide) (by decide))

/-! ## Quantifiers -/

theorem leads_openBrace : Leads (· = .plain) (· = .bounds 0) (word ['{']) := by
  refine leads_word ?_
  rintro _ rfl
  exact ⟨rfl, rfl⟩

theorem leads_closeBrace : Leads Place.InBounds (· = .plain) (word ['}']) := by
  refine leads_word ?_
  rintro _ ⟨v, rfl⟩
  exact ⟨rfl, rfl⟩

/-- A character that is neither a digit nor the closing brace ends the run of digits. -/
theorem read_bounds {c : Char} (hd : c.isDigit = false) (hc : c ≠ '}') (v : Nat) :
    (Place.bounds v).read c = .bounds 0 := by
  simp [Place.read, hd, hc]

theorem leads_comma : Leads Place.InBounds (· = .bounds 0) (word [',']) := by
  refine leads_word ?_
  rintro _ ⟨v, rfl⟩
  exact ⟨rfl, rfl⟩

theorem read_blank {c : Char} (h : Text.isBlank c) (v : Nat) : (Place.bounds v).read c = .bounds 0 := by
  refine read_bounds (Parser.isDigit_of_isBlank h) ?_ v
  rintro rfl
  exact absurd h (by decide)

theorem leads_blanks : Leads (· = .bounds 0) (· = .bounds 0) blanks := by
  refine (leads_oneOf ?_).kstar
  rintro c hc _ rfl
  exact ⟨read_blank hc 0, rfl⟩

theorem leads_blanks_inBounds : Leads Place.InBounds Place.InBounds blanks := by
  refine (leads_oneOf ?_).kstar
  rintro c hc _ ⟨v, rfl⟩
  exact ⟨⟨0, read_blank hc v⟩, rfl⟩

/-- Behind digits the place knows their value. -/
theorem after_digits {ds : List Char} (h : ∀ c ∈ ds, c.isDigit) (v : Nat) :
    (Place.bounds v).after ds = .bounds (Nat.ofDigitChars 10 ds v) ∧ (Place.bounds v).groups ds = 0 := by
  induction ds generalizing v with
  | nil => exact ⟨rfl, rfl⟩
  | cons c ds ih =>
    obtain ⟨hc, hds⟩ := List.forall_mem_cons.1 h
    have hne : c ≠ '}' := by
      rintro rfl
      exact absurd hc (by decide)
    have hr : (Place.bounds v).read c = .bounds (Nat.ofDigitChars 10 [c] v) := by
      simp [Place.read, hc, hne]
    obtain ⟨h1, h2⟩ := ih hds (Nat.ofDigitChars 10 [c] v)
    rw [Place.after_cons, Place.groups_cons, hr, h1, h2]
    exact ⟨rfl, rfl⟩

theorem leads_number : Leads (· = .bounds 0) Place.InBounds number := by
  rintro s hs _ rfl
  obtain ⟨n, hn⟩ := mem_number.1 hs
  obtain ⟨h1, h2⟩ := after_digits hn.2.1 0
  exact ⟨⟨_, h1⟩, h2⟩

theorem leads_secondBound : Leads Place.InBounds Place.InBounds (1 + word [','] * blanks * (1 + number)) := by
  have h0 : Leads (· = .bounds 0) Place.InBounds 1 := leads_one.mono (fun _ h => h) fun _ h => ⟨0, h⟩
  exact leads_one.add ((leads_comma.mul leads_blanks).mul (h0.add leads_number))

theorem leads_braces : Leads (· = .plain) (· = .plain) braces :=
  ((((((leads_openBrace.mul leads_blanks).mul leads_number).mul leads_blanks_inBounds).mul
    leads_secondBound).mul leads_blanks_inBounds).mul leads_closeBrace)

theorem leads_suffix : Leads (· = .plain) (· = .plain) suffix := by
  have h : ∀ c : Char, Place.ofChar c = .plain → c ≠ ')' → c ≠ '(' → Leads (· = .plain) (· = .plain) (word [c]) := by
    intro c h hc hp
    refine leads_word ?_
    rintro _ rfl
    simp [Place.read, Place.weight, h, hc, hp]
  exact (((h '*' rfl (by decide) (by decide)).add (h '+' rfl (by decide) (by decide))).add
    (h '?' rfl (by decide) (by decide))).add leads_braces

/-! ## Expressions -/

/-- The opening of a group leads to a place where an expression may begin, with one more group open. -/
theorem after_opening (kind : GroupKind) {k : Place} (hk : k.Free) :
    (k.after kind.opening).Free ∧ k.groups kind.opening = 1 := by
  cases kind with
  | plain => rcases hk with rfl | rfl <;> exact ⟨.inr rfl, rfl⟩
  | capture => rcases hk with rfl | rfl <;> exact ⟨.inl rfl, rfl⟩

theorem leads_group (hL : Leads Place.Free Place.Free L) (kind : GroupKind) :
    Leads Place.Free (· = .plain) (word kind.opening * L * word [')']) := by
  intro s hs k hk
  obtain ⟨_, ⟨_, rfl, u, hu, rfl⟩, _, rfl, rfl⟩ := hs
  obtain ⟨h1, h2⟩ := after_opening kind hk
  obtain ⟨h3, h4⟩ := hL u hu _ h1
  simp only [Place.after_append, Place.groups_append, h2, h4]
  rcases h3 with h3 | h3 <;> rw [h3] <;> exact ⟨rfl, rfl⟩

theorem leads_atom (hL : Leads Place.Free Place.Free L) : Leads Place.Free (· = .plain) (atom L) := by
  have hw : ∀ c : Char, c ≠ 'u' → Leads Place.Free (· = .plain) (word ['$', c]) := by
    intro c hc
    refine leads_word ?_
    rintro k (rfl | rfl) <;> exact ⟨rfl, rfl⟩
  exact (((((((leads_group hL .plain).add (leads_group hL .capture)).add
    (leads_free_word rfl (by decide) (by decide))).add (hw '0' (by decide))).add (hw 'e' (by decide))).add
    leads_set).add leads_named).add leads_character

theorem leads_repetition (hL : Leads Place.Free Place.Free L) : Leads Place.Free (· = .plain) (repetition L) :=
  (leads_atom hL).mul (leads_one.add leads_suffix)

theorem leads_concatenation (hL : Leads Place.Free Place.Free L) :
    Leads Place.Free Place.Free (concatenation L) := (leads_repetition hL).kstar_free

theorem leads_bar (hL : Leads Place.Free Place.Free L) :
    Leads Place.Free Place.Free (word ['|'] * concatenation L) :=
  leads_barSign.mul (leads_concatenation hL)

theorem leads_alternation (hL : Leads Place.Free Place.Free L) : Leads Place.Free Place.Free (alternation L) :=
  (leads_concatenation hL).mul (leads_bar hL).kstar

theorem leads_inside : ∀ d, Leads Place.Free Place.Free (inside d)
  | 0 => leads_zero
  | d + 1 => leads_alternation (leads_inside d)

end Grammar
end RegexNotation
