/-
  What a rejected text could have gone on with.

  `Expected.Describes e t`: the description `e` stands for the token `t`.  Each description of an error is real:
  some pattern begins with the text up to the error and goes on with such a token.  There are three exceptions
  (`Expected.Excused`): a group that would be nested too deep has its own description, the openings of groups
  are wanted also where no more group may open, and a digit is wanted also behind a number that no digit may
  follow.

  `p.Continues K L d` says so of the parser for the words of `L`, run at a place in `K` where `d` more groups may
  be opened.  It holds of a sequence, a choice and a repetition if it holds of their parts.
-/
import RegexNotation.Proofs.Misses
import RegexNotation.Proofs.Places

namespace RegexNotation

open Computability

/-! ## Real descriptions -/

namespace Expected

/-- The description stands for the token `t`. -/
def Describes : Expected → List Char → Prop
  | token text, t => t = text.toList
  | literal, t => ∃ c, Alphabet.isReserved c = false ∧ t = [c]
  | hexDigit, t => ∃ c, Hex.isDigit c ∧ t = [c]
  | digit, t => ∃ c, c.isDigit ∧ t = [c]
  | setLetter, t => ∃ c, NamedSet.isName c ∧ t = [c]
  | escapable, t => ∃ c, Alphabet.isEscapable c ∧ t = [c]
  | controlLetter, t => ∃ c, Alphabet.isControlLetter c ∧ t = [c]
  | _, _ => False

/-- The exceptions: what is wanted behind `s`, read from the place `k` where `d` more groups may be opened,
    although nothing of the kind may follow. -/
def Excused (k : Place) (d : Nat) (s : List Char) : Expected → Prop
  | shallowGroup limit => limit = maxNesting
  | token text => (text = "(" ∨ text = "(?:") ∧ k.groups s = d
  | digit => ∃ v, k.after s = .bounds v ∧ 4294967295 < 10 * v
  | _ => False

theorem Excused.append {k : Place} {d d' : Nat} {s t : List Char} {e : Expected}
    (h : e.Excused (k.after s) d' t) (hd : k.groups s + d' = d) : e.Excused k d (s ++ t) := by
  cases e with
  | token text => exact ⟨h.1, by rw [Place.groups_append, h.2, hd]⟩
  | digit =>
    obtain ⟨v, hv, hlt⟩ := h
    exact ⟨v, by rw [Place.after_append, hv], hlt⟩
  | _ => exact h

end Expected

namespace Grammar

/-- What is wanted behind `s`, read from a place in `K`, is a next token of a word of `L`, or excused.  Besides,
    `s` does not end within a token. -/
def Resumes (K : Place → Prop) (L : Language Char) (d : Nat) (s : List Char) (e : Expected) : Prop :=
  ((∃ t u, e.Describes t ∧ s ++ (t ++ u) ∈ L) ∨ ∀ k, K k → e.Excused k d s) ∧ ∀ k, K k → k.after s ≠ .torn

variable {K K' : Place → Prop} {L M : Language Char} {d : Nat} {s t : List Char} {e : Expected}

theorem Resumes.mono (h : Resumes K L d s e) (hK : ∀ k, K' k → K k) (hM : L ≤ M) : Resumes K' M d s e := by
  refine ⟨?_, fun k hk => h.2 k (hK k hk)⟩
  rcases h.1 with ⟨t, u, ht, hu⟩ | hx
  · exact .inl ⟨t, u, ht, hM hu⟩
  · exact .inr fun k hk => hx k (hK k hk)

theorem Resumes.mul_right (h : Resumes K L d s e) (hM : ∃ m, m ∈ M) : Resumes K (L * M) d s e := by
  refine ⟨?_, h.2⟩
  rcases h.1 with ⟨t, u, ht, hu⟩ | hx
  · obtain ⟨m, hm⟩ := hM
    exact .inl ⟨t, u ++ m, ht, _, hu, m, hm, by simp⟩
  · exact .inr hx

theorem Resumes.append (hL : Leads K K' L) (hs : s ∈ L) (h : Resumes K' M d t e) :
    Resumes K (L * M) d (s ++ t) e := by
  constructor
  · rcases h.1 with ⟨u, v, hu, hv⟩ | hx
    · exact .inl ⟨u, v, hu, s, hs, _, hv, (List.append_assoc ..).symm⟩
    · refine .inr fun k hk => ?_
      obtain ⟨hk', hg⟩ := hL s hs k hk
      exact (hx _ hk').append (by rw [hg, Int.zero_add])
  · intro k hk
    rw [Place.after_append]
    exact h.2 _ (hL s hs k hk).1

theorem Resumes.kstar (h : Resumes K L d s e) : Resumes K L∗ d s e :=
  h.mono (fun _ h => h) le_kstar

theorem Resumes.append_kstar (hL : Leads K K L) (hs : s ∈ L) (h : Resumes K L∗ d t e) :
    Resumes K L∗ d (s ++ t) e :=
  (Resumes.append hL hs h).mono (fun _ h => h) fun _ ⟨_, hu, _, hv, h⟩ => h ▸ Parser.mem_kstar_append hu hv

theorem resumes_nil {u : List Char} (ht : e.Describes t) (hu : t ++ u ∈ L) (hK : ∀ k, K k → k ≠ .torn) :
    Resumes K L d [] e := ⟨.inl ⟨t, u, ht, hu⟩, hK⟩

end Grammar

namespace Parser

open Grammar

variable {α β : Type} {p q : Parser α} {K K' : Place → Prop} {L M : Language Char} {d : Nat}

/-- What the parser misses, run at a place in `K`, is a next token of a word of `L`, or excused. -/
def Continues (p : Parser α) (K : Place → Prop) (L : Language Char) (d : Nat) : Prop := p.Wants (Resumes K L d)

/-! ## Combinators -/

theorem Continues.mono (h : p.Continues K L d) (hK : ∀ k, K' k → K k) (hM : L ≤ M) : p.Continues K' M d :=
  Wants.mono h fun _ _ h => h.mono hK hM

theorem Continues.le (h : p.Continues K L d) (hM : L ≤ M) : p.Continues K M d := h.mono (fun _ h => h) hM

theorem continues_pure (a : α) : (pure a : Parser α).Continues K 1 d := wants_pure a

theorem continues_token (text : String) (hK : ∀ k, K k → k ≠ .torn) :
    (token text).Continues K (word text.toList) d :=
  wants_token (resumes_nil rfl (List.append_nil _) hK)

theorem continues_charWhere (f : Char → Bool) (e : Expected) {c : Char} (hc : f c) (he : e.Describes [c])
    (hK : ∀ k, K k → k ≠ .torn) : (charWhere f e).Continues K (oneOf (f ·)) d :=
  wants_charWhere (resumes_nil (u := []) he ⟨c, hc, rfl⟩ hK)

theorem Continues.bind {f : α → Parser β} (hp : p.Continues K L d) (hy : p.Yields L) (hL : Leads K K' L)
    (hf : ∀ a, (f a).Continues K' M d) (hM : ∃ m, m ∈ M) : (p >>= f).Continues K (L * M) d :=
  Wants.bind (Wants.mono hp fun _ _ h => h.mul_right hM) hy hf fun _ hs _ _ h => h.append hL hs

theorem Continues.map (hp : p.Continues K L d) (g : α → β) : (g <$> p).Continues K L d := Wants.map hp g

theorem Continues.orElse (hp : p.Continues K L d) (hq : q.Continues K M d) : (p <|> q).Continues K (L + M) d :=
  Wants.orElse (hp.le fun _ => .inl) (hq.le fun _ => .inr)

theorem Continues.many (hp : p.Continues K L d) (hy : p.Yields L) (hL : Leads K K L) (ha : p.Advances) :
    p.many.Continues K L∗ d :=
  Wants.many (Wants.mono hp fun _ _ h => h.kstar) hy ha fun _ hs _ _ h => h.append_kstar hL hs

theorem exists_mem_mul (hL : ∃ s, s ∈ L) (hM : ∃ s, s ∈ M) : ∃ s, s ∈ L * M := by
  obtain ⟨s, hs⟩ := hL
  obtain ⟨t, ht⟩ := hM
  exact ⟨s ++ t, s, hs, t, ht, rfl⟩

theorem exists_mem_word (t : List Char) : ∃ s, s ∈ word t := ⟨t, rfl⟩

theorem exists_mem_kstar (L : Language Char) : ∃ s, s ∈ L∗ := ⟨[], Language.nil_mem_kstar L⟩

/-! ## Characters -/

theorem ne_torn_of_free {k : Place} (h : k.Free) : k ≠ .torn := by
  rcases h with rfl | rfl <;> decide

theorem mem_times_hexDigit {lo hi : Nat} {ds : List Char} :
    ds ∈ times lo hi hexDigit ↔ lo ≤ ds.length ∧ ds.length ≤ hi ∧ ∀ c ∈ ds, Hex.isDigit c := by
  rw [hexDigit, mem_times_oneOf]
  simp only [isHexDigit_iff]

theorem isHexDigit_of_mem_replicate {n : Nat} : ∀ c ∈ List.replicate n '0', Hex.isDigit c := by
  intro c hc
  rw [List.eq_of_mem_replicate hc]
  decide

theorem exists_mem_times {lo hi : Nat} (h : lo ≤ hi) : ∃ s, s ∈ times lo hi hexDigit :=
  ⟨List.replicate lo '0', mem_times_hexDigit.2 ⟨by simp, by simpa using h, isHexDigit_of_mem_replicate⟩⟩

theorem continues_hexDigits {lo hi : Nat} (h : lo ≤ hi)
    (hK : ∀ s : List Char, (∀ c ∈ s, Hex.isDigit c) → ∀ k, K k → k.after s ≠ .torn) :
    (hexDigits lo hi).Continues K (times lo hi hexDigit) d := by
  intro c
  rw [run_hexDigits]
  refine (wants_upTo_charWhere Hex.isDigit .hexDigit hi c).mono ?_
  rintro _ e ⟨s, c', hc, ho, rfl, hl, hs⟩
  refine ⟨s, c', hc, ho, .inl ⟨['0'], List.replicate (lo - (s.length + 1)) '0', ⟨'0', by decide, rfl⟩, ?_⟩, hK s hs⟩
  have hlen : (s ++ (['0'] ++ List.replicate (lo - (s.length + 1)) '0')).length =
      s.length + 1 + (lo - (s.length + 1)) := by
    simp only [List.length_append, List.length_cons, List.length_nil, List.length_replicate]
    omega
  refine mem_times_hexDigit.2 ⟨by omega, by omega, ?_⟩
  simp only [List.forall_mem_append]
  exact ⟨hs, isHexDigit_of_mem_replicate (n := 1), isHexDigit_of_mem_replicate⟩

/-- The four or two digits of a code point. -/
theorem continues_hexFixed (text : String) (n : Nat) (hK : ∀ k, K k → k ≠ .torn)
    (hw : Leads K (fun k => k = .plain ∨ k = .quotedU) (word text.toList)) :
    (do token text; hexDigits n n : Parser String).Continues K (word text.toList * times n n hexDigit) d := by
  refine (continues_token text hK).bind (yields_token text) hw (fun _ => ?_) (exists_mem_times (Nat.le_refl n))
  refine continues_hexDigits (Nat.le_refl n) ?_
  intro s hs k hk
  rcases s with _ | ⟨c, s⟩
  · rcases hk with rfl | rfl <;> decide
  · obtain ⟨hc, hs⟩ := List.forall_mem_cons.1 hs
    rw [Place.after_cons, (read_hexDigit hc hk).1, (leads_hexDigits s (mem_kstar_oneOf.2 hs) _ rfl).1]
    decide

theorem leads_code_times (lo hi : Nat) : Leads (· = .code) (· = .code) (times lo hi hexDigit) := by
  intro s hs
  refine leads_code s (mem_kstar_oneOf.2 ?_)
  rintro c hc rfl
  exact absurd ((mem_times_hexDigit.1 hs).2.2 _ hc) (by decide)

theorem continues_hexBraced :
    (do token "u\x7b"; let ds ← hexDigits 1 6; token "\x7d"; return ds : Parser String).Continues (· = .quoted)
      (word ['u', '{'] * (times 1 6 hexDigit * word ['}'])) d := by
  have hopen : Leads (· = .quoted) (· = .code) (word ['u', '{']) := by
    refine leads_word ?_
    rintro _ rfl
    exact ⟨rfl, rfl⟩
  refine (continues_token "u\x7b" ?_).bind (yields_token "u\x7b") hopen (fun _ => ?_)
    (exists_mem_mul (exists_mem_times (by decide)) (exists_mem_word _))
  · rintro _ rfl
    decide
  refine (continues_hexDigits (by decide) ?_).bind (yields_hexDigits 1 6) (leads_code_times 1 6) (fun ds => ?_)
    ⟨['}'], rfl⟩
  · rintro s hs _ rfl
    rw [(leads_code s (mem_kstar_oneOf.2 ?_) _ rfl).1]
    · decide
    · rintro c hc rfl
      exact absurd (hs _ hc) (by decide)
  · refine (continues_token "\x7d" ?_).map fun _ => ds
    rintro _ rfl
    decide

theorem continues_escape : Parser.escape.Continues (· = .quoted) Grammar.escape d := by
  have hq : ∀ k, k = Place.quoted → k ≠ .torn := by
    rintro _ rfl
    decide
  have hmark : ∀ text : String, text.toList = ['u'] ∨ text.toList = ['x'] →
      Leads (· = .quoted) (fun k => k = .plain ∨ k = .quotedU) (word text.toList) := by
    intro text ht
    refine leads_word ?_
    rintro _ rfl
    rcases ht with ht | ht <;> rw [ht]
    · exact ⟨.inr rfl, rfl⟩
    · exact ⟨.inl rfl, rfl⟩
  refine Continues.le (((continues_charWhere Alphabet.isEscapable .escapable (c := 'a') (by decide) ⟨_, by decide, rfl⟩ hq).map
      Literal.escaped).orElse <|
    ((continues_charWhere Alphabet.isControlLetter .controlLetter (c := 'n') (by decide) ⟨_, by decide, rfl⟩ hq).map
      Literal.control).orElse <|
    ((continues_hexFixed "u" 4 hq (hmark _ (.inl rfl))).map Literal.hex4).orElse <|
    ((continues_hexFixed "x" 2 hq (hmark _ (.inr rfl))).map Literal.hex2).orElse <|
    continues_hexBraced.map Literal.hexBraced) ?_
  rintro s (⟨c, hc, rfl⟩ | ⟨c, hc, rfl⟩ | ⟨_, rfl, ds, hds, rfl⟩ | ⟨_, rfl, ds, hds, rfl⟩ |
    ⟨_, rfl, _, ⟨ds, hds, _, rfl, rfl⟩, rfl⟩)
  · exact ⟨.escaped c, hc, rfl⟩
  · exact ⟨.control c, hc, rfl⟩
  · obtain ⟨h1, h2, h3⟩ := mem_times_hexDigit.1 hds
    refine ⟨.hex4 (.ofList ds), ?_, by simp [Literal.render]⟩
    simpa [Literal.Valid] using ⟨Nat.le_antisymm h2 h1, h3⟩
  · obtain ⟨h1, h2, h3⟩ := mem_times_hexDigit.1 hds
    refine ⟨.hex2 (.ofList ds), ?_, by simp [Literal.render]⟩
    simpa [Literal.Valid] using ⟨Nat.le_antisymm h2 h1, h3⟩
  · obtain ⟨h1, h2, h3⟩ := mem_times_hexDigit.1 hds
    refine ⟨.hexBraced (.ofList ds), ?_, by simp [Literal.render]⟩
    simpa [Literal.Valid] using ⟨h1, h2, h3⟩

theorem continues_literal : literal.Continues Place.Free character d := by
  rw [character_eq]
  refine Continues.le (((continues_charWhere (!Alphabet.isReserved ·) .literal (c := 'a') (by decide)
    ⟨_, by decide, rfl⟩ fun _ => ne_torn_of_free).map Literal.plain).orElse
    ((continues_token "\\" fun _ => ne_torn_of_free).bind (yields_token _) leads_backslash
      (fun _ => continues_escape) ⟨['n'], .control 'n', by decide, rfl⟩)) ?_
  rintro s (⟨c, hc, rfl⟩ | hs)
  · exact .inl ⟨c, by simpa using hc, rfl⟩
  · exact .inr hs

theorem continues_setLetter : setLetter.Continues Place.Free named d := by
  have hq : ∀ k, k = Place.quoted → k ≠ .torn := by
    rintro _ rfl
    decide
  refine Continues.le ((continues_token "\\" fun _ => ne_torn_of_free).bind (yields_token _) leads_backslash
    (fun _ => continues_charWhere NamedSet.isName .setLetter (c := 'w') (by decide) ⟨_, by decide, rfl⟩ hq)
    ⟨['w'], 'w', by decide, rfl⟩) ?_
  rintro _ ⟨_, rfl, _, ⟨l, hl, rfl⟩, rfl⟩
  exact mem_named.2 ⟨l, hl, rfl⟩

/-! ## Sets -/

theorem exists_mem_character : ∃ m, m ∈ character := ⟨['a'], mem_character.2 ⟨.plain 'a', by decide, rfl⟩⟩

theorem continues_rangeFrom (a : Literal) :
    (rangeFrom a).Continues Place.Free (word ['-'] * character + 1) d := by
  exact (((continues_token "-" fun _ => ne_torn_of_free).bind (yields_token "-") leads_dash (fun _ => continues_literal)
    exists_mem_character).map (SetItem.range a)).orElse (continues_pure _)

theorem continues_setItem : Parser.setItem.Continues Place.Free Grammar.setItem d := by
  refine Continues.le ((continues_setLetter.map SetItem.named).orElse
    (continues_literal.bind yields_literal leads_character
      (fun a => (continues_rangeFrom a).mono (fun _ => free_of_eq_plain) le_rfl) ⟨[], .inr rfl⟩)) ?_
  rw [Grammar.setItem, mul_add, mul_one, ← mul_assoc, add_assoc]

theorem continues_caret : (((do token "^"; return true) <|> pure false : Parser Bool)).Continues Place.Free
    (1 + word ['^']) d :=
  (((continues_token "^" fun _ => ne_torn_of_free).map fun _ => true).orElse (continues_pure false)).le
    (add_comm _ _).le

theorem continues_set : Parser.set.Continues Place.Free Grammar.set d := by
  have hitems := exists_mem_mul (exists_mem_kstar Grammar.setItem) (exists_mem_word [']'])
  refine Continues.le ((continues_token "[" fun _ => ne_torn_of_free).bind (yields_token "[") leads_openBracket
    (fun _ => continues_caret.bind yields_caret leads_caret
      (fun negated => (continues_setItem.many yields_setItem
          leads_setItem.free advances_setItem).bind
        (yields_setItem.many advances_setItem) leads_setItem.kstar_free
        (fun items => (continues_token "]" fun _ => ne_torn_of_free).map fun _ => Regex.set negated items)
        (exists_mem_word _))
      hitems)
    (exists_mem_mul ⟨[], .inl rfl⟩ hitems)) ?_
  rw [Grammar.set, mul_assoc, mul_assoc]
  exact le_rfl

/-! ## Quantifiers -/

theorem ne_torn_of_inBounds {k : Place} (h : k.InBounds) : k ≠ .torn := by
  obtain ⟨v, rfl⟩ := h
  rintro ⟨⟩

theorem wants_bound : bound.Wants fun s e => e = .digit ∧ ∀ c ∈ s, c.isDigit := by
  have hc : digit.Wants fun s e => e = .digit ∧ ∀ c ∈ s, c.isDigit := wants_charWhere ⟨rfl, by rintro c ⟨⟩⟩
  have happ : ∀ s ∈ oneOf (Char.isDigit ·), ∀ (t : List Char) (e : Expected), (e = .digit ∧ ∀ c ∈ t, c.isDigit) →
      e = .digit ∧ ∀ c ∈ s ++ t, c.isDigit := by
    rintro _ ⟨x, hx, rfl⟩ t e ⟨he, ht⟩
    exact ⟨he, List.forall_mem_cons.2 ⟨hx, ht⟩⟩
  have hy := yields_charWhere Char.isDigit .digit
  have hd : digits.Wants fun s e => e = .digit ∧ ∀ c ∈ s, c.isDigit :=
    Wants.bind hc hy (fun d => (hc.many hy (advances_charWhere _ _) happ).map (d :: ·)) happ
  intro c
  rw [misses_bound]
  exact hd c

/-- A further digit may follow, `0` if nothing else, unless the number would become too large. -/
theorem continues_bound : bound.Continues (· = .bounds 0) number d := by
  refine wants_bound.mono ?_
  rintro s e ⟨rfl, hs⟩
  have hafter : ∀ k, k = Place.bounds 0 → k.after s = .bounds (Nat.ofDigitChars 10 s 0) := by
    rintro _ rfl
    exact (after_digits hs 0).1
  refine ⟨?_, fun k hk => ?_⟩
  · by_cases hv : 10 * Nat.ofDigitChars 10 s 0 ≤ 4294967295
    · have hd : ∀ c ∈ s, '0' ≤ c ∧ c ≤ '9' := fun c hc => by simpa [Char.isDigit, Char.le_def] using hs c hc
      refine .inl ⟨['0'], [], ⟨'0', by decide, rfl⟩, by simp, ?_, ?_⟩
      · simp only [List.append_nil, List.forall_mem_append, List.forall_mem_singleton]
        exact ⟨hd, by decide⟩
      · simpa [Nat.ofDigitChars_append, Nat.ofDigitChars_cons] using hv
    · exact .inr fun k hk => ⟨_, hafter k hk, Nat.lt_of_not_le hv⟩
  · rw [hafter k hk]
    rintro ⟨⟩

theorem exists_mem_number : ∃ m, m ∈ number := ⟨_, mem_number.2 ⟨0, isNumeral_boundDigits 0⟩⟩

theorem continues_boundsFrom (n : UInt32) :
    (boundsFrom n).Continues Place.InBounds (1 + word [','] * Grammar.blanks * (1 + number)) d := by
  have hsecond : (Quantifier.between n <$> bound <|> pure (.atLeast n) : Parser Quantifier).Continues
      (· = .bounds 0) (number + 1) d :=
    (continues_bound.map _).orElse (continues_pure _)
  have hblanks := Continues.bind (p := Parser.blanks) (wants_skipWhile _) yields_blanks leads_blanks
    (fun _ => hsecond) ⟨[], .inr rfl⟩
  have hcomma := (continues_token "," fun _ => ne_torn_of_inBounds).bind (yields_token ",") leads_comma
    (fun _ => hblanks) (exists_mem_mul (exists_mem_kstar _) ⟨[], .inr rfl⟩)
  refine (hcomma.orElse (continues_pure (Quantifier.exactly n))).le ?_
  rw [add_comm number, ← mul_assoc]
  exact (add_comm _ _).le

theorem continues_bounds : Parser.bounds.Continues (· = .plain) braces d := by
  have hclose := exists_mem_mul (exists_mem_kstar (oneOf (Text.isBlank ·))) (exists_mem_word ['}'])
  have htail := exists_mem_mul (exists_mem_kstar (oneOf (Text.isBlank ·))) (exists_mem_mul
    (L := 1 + word [','] * Grammar.blanks * (1 + number)) ⟨[], .inl rfl⟩ hclose)
  -- from the end: each step puts one more part in front
  have h1 (q : Quantifier) : (do token "\x7d"; return q : Parser Quantifier).Continues Place.InBounds
      (word ['}']) d := (continues_token "\x7d" fun _ => ne_torn_of_inBounds).map fun _ => q
  have h2 (q : Quantifier) := Continues.bind (p := Parser.blanks) (wants_skipWhile _) yields_blanks
    leads_blanks_inBounds (fun _ => h1 q) (exists_mem_word _)
  have h3 (n : UInt32) := (continues_boundsFrom n).bind (yields_boundsFrom n) leads_secondBound h2 hclose
  have h4 (n : UInt32) := Continues.bind (p := Parser.blanks) (wants_skipWhile _) yields_blanks
    leads_blanks_inBounds (fun _ => h3 n) (exists_mem_mul ⟨[], .inl rfl⟩ hclose)
  have h5 := continues_bound.bind yields_bound leads_number h4 htail
  have h6 := Continues.bind (p := Parser.blanks) (wants_skipWhile _) yields_blanks leads_blanks (fun _ => h5)
    (exists_mem_mul exists_mem_number htail)
  have h7 := (continues_token "\x7b" fun _ h => ne_torn_of_free (free_of_eq_plain h)).bind
    (yields_token "\x7b") leads_openBrace (fun _ => h6)
    (exists_mem_mul (exists_mem_kstar _) (exists_mem_mul exists_mem_number htail))
  refine h7.le ?_
  simp only [braces, mul_assoc]
  exact le_rfl

theorem continues_quantifier : quantifier.Continues (· = .plain) suffix d := by
  have hmark (text : String) (q : Quantifier) : (do token text; return q : Parser Quantifier).Continues
      (· = .plain) (word text.toList) d :=
    (continues_token text fun _ h => ne_torn_of_free (free_of_eq_plain h)).map fun _ => q
  refine ((hmark "*" .star).orElse <| (hmark "+" .plus).orElse <| (hmark "?" .opt).orElse continues_bounds).le ?_
  simp only [← add_assoc]
  exact le_rfl

/-! ## Groups -/

/-- Where no more groups may be opened, their openings are wanted all the same. -/
theorem continues_group_zero (kind : GroupKind) : (group (Parser.inside 0) kind).Continues Place.Free L 0 := by
  have hin : (do let e ← Parser.inside 0; token ")"; return .group kind e : Parser Regex).Wants fun s e =>
      s = [] ∧ e = .shallowGroup maxNesting :=
    Wants.bind (V := fun _ _ => True) (wants_miss ⟨rfl, rfl⟩) (yields_inside 0)
      (fun e => Wants.map (wants_token trivial) fun _ => Regex.group kind e) (by rintro s ⟨⟩)
  refine Wants.bind (wants_token ⟨.inr fun k _ => ⟨?_, rfl⟩, fun _ => ne_torn_of_free⟩) (yields_token _)
    (fun _ => hin) ?_
  · cases kind with
    | plain => exact .inr rfl
    | capture => exact .inl rfl
  · rintro _ rfl _ _ ⟨rfl, rfl⟩
    refine ⟨.inr fun _ _ => rfl, fun k hk => ?_⟩
    rw [List.append_nil, String.toList_ofList]
    exact ne_torn_of_free (after_opening kind hk).1

section
variable {inside : Parser Regex}

/-- Behind its opening, the inside of a group may open one group less. -/
theorem continues_group_succ (hin : inside.Continues Place.Free L d) (hy : inside.Yields L)
    (hL : Leads Place.Free Place.Free L) (hne : ∃ m, m ∈ L) (kind : GroupKind) :
    (group inside kind).Continues Place.Free (word kind.opening * L * word [')']) (d + 1) := by
  have hrest := Continues.bind hin hy hL
    (fun e => (continues_token ")" fun _ => ne_torn_of_free).map fun _ => Regex.group kind e) (exists_mem_word _)
  obtain ⟨m, hm⟩ := exists_mem_mul hne (exists_mem_word [')'])
  have hopen : (String.ofList kind.opening).toList = kind.opening := String.toList_ofList
  refine Wants.bind (wants_token (resumes_nil (u := m) rfl ?_ fun _ => ne_torn_of_free)) (yields_token _)
    (fun _ => hrest) ?_
  · rw [hopen, mul_assoc]
    exact ⟨_, rfl, m, hm, rfl⟩
  · rw [hopen]
    rintro _ rfl t e ⟨h, ht⟩
    constructor
    · rcases h with ⟨u, v, hu, hv⟩ | hx
      · refine .inl ⟨u, v, hu, ?_⟩
        rw [mul_assoc, List.append_assoc]
        exact ⟨_, rfl, _, hv, rfl⟩
      · refine .inr fun k hk => ?_
        obtain ⟨hk', hg⟩ := after_opening kind hk
        exact (hx _ hk').append (by rw [hg, Int.add_comm]; rfl)
    · intro k hk
      rw [Place.after_append]
      exact ht _ (after_opening kind hk).1

/-! ## Expressions -/

variable (hg : ∀ kind, (group inside kind).Continues Place.Free (word kind.opening * L * word [')']) d)
include hg

theorem continues_atom : (Parser.atom inside).Continues Place.Free (Grammar.atom L) d := by
  have hword (text : String) (e : Regex) : (do token text; return e : Parser Regex).Continues Place.Free
      (word text.toList) d := (continues_token text fun _ => ne_torn_of_free).map fun _ => e
  refine Continues.le ((hg .plain).orElse <| (hg .capture).orElse <| (hword "." .any).orElse <|
    (hword "$0" .never).orElse <| (hword "$e" .empty).orElse <| continues_set.orElse <|
    (continues_setLetter.map Regex.named).orElse (continues_literal.map Regex.literal)) ?_
  simp only [← add_assoc]
  exact le_rfl

variable (hy : inside.Yields L) (hL : Leads Place.Free Place.Free L)
include hy hL

theorem continues_repetition : (Parser.repetition inside).Continues Place.Free (Grammar.repetition L) d := by
  have hq (e : Regex) : (Regex.quantified e <$> quantifier <|> pure e : Parser Regex).Continues (· = .plain)
      (1 + suffix) d := ((continues_quantifier.map _).orElse (continues_pure e)).le (add_comm _ _).le
  exact (continues_atom hg).bind (yields_atom hy) (leads_atom hL) hq ⟨[], .inl rfl⟩

theorem continues_concatenation :
    (Parser.concatenation inside).Continues Place.Free (Grammar.concatenation L) d :=
  ((continues_repetition hg hy hL).many (yields_repetition hy)
    (leads_repetition hL).free (advances_repetition hy.consumes)).map _

theorem continues_alternation : (Parser.alternation inside).Continues Place.Free (Grammar.alternation L) d := by
  have hbar : (do token "|"; Parser.concatenation inside : Parser Regex).Continues Place.Free
      (word ['|'] * Grammar.concatenation L) d :=
    (continues_token "|" fun _ => ne_torn_of_free).bind (yields_token "|")
      leads_barSign
      (fun _ => continues_concatenation hg hy hL) (exists_mem_kstar _)
  exact (continues_concatenation hg hy hL).bind (yields_concatenation hy) (leads_concatenation hL)
    (fun e => (hbar.many (yields_bar hy) (leads_bar hL) (advances_bar hy.consumes)).map (Regex.choice e))
    (exists_mem_kstar _)

end

theorem continues_inside_group : ∀ (d : Nat) (kind : GroupKind), (group (Parser.inside d) kind).Continues
    Place.Free (word kind.opening * Grammar.inside d * word [')']) d
  | 0, kind => continues_group_zero kind
  | d + 1, kind => continues_group_succ
    (continues_alternation (continues_inside_group d) (yields_inside d) (leads_inside d)) (yields_inside (d + 1))
    (leads_inside (d + 1)) (exists_mem_mul (exists_mem_kstar _) (exists_mem_kstar _)) kind

/-- **What a pattern misses is real**, with the exceptions. -/
theorem continues_pattern : Parser.pattern.Continues Place.Free Grammar.pattern maxNesting :=
  continues_alternation (continues_inside_group _) (yields_inside _) (leads_inside _)

end Parser
end RegexNotation
