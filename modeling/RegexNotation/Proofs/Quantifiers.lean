/-
  What is read as a quantifier.

  A quantifier is read behind each of its texts, whatever follows (`reads_quantifier`).  Blanks and digits are
  read as far as they go: the text of a quantifier puts a character of another kind behind each run of them.
-/
import RegexNotation.Proofs.Characters

namespace RegexNotation.Parser

/-! ## Bounds -/

theorem boundOfDigits_eq_some {ds : List Char} {n : UInt32} :
    boundOfDigits ds = some n ↔ Nat.ofDigitChars 10 ds 0 = n.toNat := by
  simp only [boundOfDigits]
  constructor
  · intro h
    split at h
    · next hlt =>
      rw [← Option.some.inj h, UInt32.toNat_ofNat_of_lt' hlt]
    · cases h
  · intro h
    rw [h, if_pos n.toNat_lt, UInt32.ofNat_toNat]

theorem reads_digits : digits.Reads fun ds s r =>
    s = ds ∧ ds ≠ [] ∧ (∀ x ∈ ds, x.isDigit) ∧ ∀ x ∈ r.head?, x.isDigit = false := by
  refine ((reads_charWhere _ _).bind fun d =>
    ((reads_charWhere _ _).many (advances_charWhere _ _)).bind fun ds => reads_pure (d :: ds)).congr
    fun ds s r => ?_
  constructor
  · rintro ⟨d, _, _, rfl, ⟨rfl, hd⟩, es, t, _, rfl, ⟨he, hs⟩, rfl, rfl⟩
    obtain ⟨rfl, hx⟩ := each_char_iff.1 he
    exact ⟨by simp, by simp, List.forall_mem_cons.2 ⟨hd, hx⟩, stuck_char_iff.1 (by simpa using hs)⟩
  · rintro ⟨rfl, hne, hx, hr⟩
    obtain ⟨d, es, rfl⟩ := List.exists_cons_of_ne_nil hne
    obtain ⟨hd, hx⟩ := List.forall_mem_cons.1 hx
    exact ⟨d, [d], es, rfl, ⟨rfl, hd⟩, es, es, [], by simp,
      ⟨each_char_iff.2 ⟨rfl, hx⟩, stuck_char_iff.2 hr⟩, rfl, rfl⟩

theorem reads_bound : bound.Reads fun n s r => IsNumeral n s ∧ ∀ x ∈ r.head?, x.isDigit = false := by
  refine (reads_digits.accept boundOfDigits _).congr fun n s r => ?_
  constructor
  · rintro ⟨ds, hn, rfl, hne, hx, hr⟩
    exact ⟨⟨hne, hx, boundOfDigits_eq_some.1 hn⟩, hr⟩
  · rintro ⟨⟨hne, hx, hn⟩, hr⟩
    exact ⟨s, boundOfDigits_eq_some.2 hn, rfl, hne, hx, hr⟩

theorem reads_blanks : blanks.Reads fun _ s r => AllBlank s ∧ ∀ x ∈ r.head?, Text.isBlank x = false :=
  reads_skipWhile _

/-! ## Bounds in braces -/

theorem isDigit_of_isBlank {c : Char} (h : Text.isBlank c) : c.isDigit = false := by
  rw [← Bool.not_eq_true, Char.isDigit_iff_toNat]
  simp only [Text.isBlank, Text.blanks, List.any_cons, List.any_nil, Bool.or_eq_true, Bool.and_eq_true,
    decide_eq_true_eq, Char.le_def, UInt32.le_iff_toNat_le, Char.toNat] at h ⊢
  simp at h ⊢
  omega

theorem isBlank_of_isDigit {c : Char} (h : c.isDigit) : Text.isBlank c = false := by
  rw [← Bool.not_eq_true]
  intro hb
  rw [isDigit_of_isBlank hb] at h
  cases h

theorem head?_digits_append {ds : List Char} (hne : ds ≠ []) (hds : ∀ c ∈ ds, c.isDigit) (r : List Char) :
    ∀ x ∈ (ds ++ r).head?, x.isDigit := by
  obtain ⟨d, t, rfl⟩ := List.exists_cons_of_ne_nil hne
  rintro _ ⟨⟩
  exact hds d List.mem_cons_self

theorem head?_numeral_append {n : UInt32} {ds : List Char} (h : IsNumeral n ds) (r : List Char) :
    ∀ x ∈ (ds ++ r).head?, Text.isBlank x = false := fun x hx =>
  isBlank_of_isDigit (head?_digits_append h.1 h.2.1 r x hx)

theorem head?_blank_append {w r : List Char} (hw : AllBlank w)
    (hr : ∀ x ∈ r.head?, x.isDigit = false) : ∀ x ∈ (w ++ r).head?, x.isDigit = false := by
  rcases w with _ | ⟨y, w⟩
  · exact hr
  · rintro x ⟨⟩
    exact isDigit_of_isBlank (hw y List.mem_cons_self)

/-- What is read from a comma on, behind the first bound `n` and in front of `r`. -/
inductive CommaRead (n : UInt32) : Quantifier → List Char → List Char → Prop
  | atLeast {u r} : AllBlank u → (∀ x ∈ r.head?, Text.isBlank x = false) →
      Stuck (fun m s r => IsNumeral m s ∧ ∀ x ∈ r.head?, x.isDigit = false) r →
      CommaRead n (.atLeast n) (',' :: u) r
  | between {m u es r} : AllBlank u → IsNumeral m es → (∀ x ∈ r.head?, x.isDigit = false) →
      CommaRead n (.between n m) (',' :: (u ++ es)) r

theorem reads_boundsFrom (n : UInt32) : (boundsFrom n).Reads fun q s r =>
    CommaRead n q s r ∨ Stuck (CommaRead n) (s ++ r) ∧ q = Quantifier.exactly n ∧ s = [] := by
  have hc : (do token ","; blanks; Quantifier.between n <$> bound <|> pure (.atLeast n) :
      Parser Quantifier).Reads (CommaRead n) := by
    refine ((reads_token ",").bind fun _ => reads_blanks.bind fun _ =>
      (reads_bound.map (Quantifier.between n)).orElse (reads_pure (.atLeast n))).congr fun q s r => ?_
    constructor
    · rintro ⟨_, _, _, rfl, rfl, _, u, t, rfl, ⟨hu, hu'⟩, ⟨m, rfl, hm, hr⟩ | ⟨hs, rfl, rfl⟩⟩
      · exact CommaRead.between (u := u) hu hm hr
      · simp only [List.append_nil, List.nil_append] at hu' hs ⊢
        exact .atLeast hu hu' fun m s r' h hm => hs _ s r' h ⟨m, rfl, hm⟩
    · intro h
      cases h with
      | @atLeast u _ hu hu' hs =>
        exact ⟨(), [','], u, rfl, rfl, (), u, [], by simp, ⟨hu, hu'⟩,
          .inr ⟨fun _ s r' h ⟨m, _, hm⟩ => hs m s r' h hm, rfl, rfl⟩⟩
      | between hu hm hr =>
        exact ⟨(), [','], _, rfl, rfl, (), _, _, rfl, ⟨hu, head?_numeral_append hm r⟩,
          .inl ⟨_, rfl, hm, hr⟩⟩
  exact hc.orElse (reads_pure (Quantifier.exactly n))

theorem isDigit_head?_tail {n : UInt32} {q : Quantifier} {t : List Char} (ht : q.TailOf n t) (r : List Char) :
    ∀ x ∈ (t ++ r).head?, x.isDigit = false := by
  have hcons : ∀ {c : Char} {l : List Char}, c.isDigit = false → ∀ x ∈ (c :: l).head?, x.isDigit = false := by
    rintro c l hc x ⟨⟩
    exact hc
  cases ht with
  | exactly hw | atLeast hw _ | between hw _ _ _ =>
    rw [List.append_assoc]
    exact head?_blank_append hw (hcons (by decide))

/-- What is read behind the first bound. -/
theorem reads_tail (n : UInt32) :
    (do blanks; let q ← boundsFrom n; blanks; token "\x7d"; return q : Parser Quantifier).Reads
      fun q s _ => q.TailOf n s := by
  refine (reads_blanks.bind fun _ => (reads_boundsFrom n).bind fun q => reads_blanks.bind fun _ =>
    (reads_token _).bind fun _ => reads_pure q).congr fun q s r => ?_
  constructor
  · rintro ⟨_, w, _, rfl, ⟨hw, -⟩, q, _, _, rfl, hq, _, w', _, rfl, ⟨hw', -⟩, _, _, _, rfl, rfl, rfl, rfl⟩
    rcases hq with hq | ⟨-, rfl, rfl⟩
    · cases hq with
      | atLeast hu =>
        have := Quantifier.TailOf.atLeast (n := n) hw (hu.append hw')
        simpa using this
      | between hu hm =>
        have := Quantifier.TailOf.between (n := n) hw hu hm hw'
        simpa using this
    · have := Quantifier.TailOf.exactly (n := n) (hw.append hw')
      simpa using this
  · have hclose : ∀ x ∈ ('}' :: r).head?, Text.isBlank x = false := by
      rintro x ⟨⟩
      decide
    intro hq
    cases hq with
    | @exactly w hw =>
      refine ⟨(), w, ['}'], rfl, ⟨hw, hclose⟩, .exactly n, [], ['}'], rfl, .inr ⟨?_, rfl, rfl⟩,
        (), [], ['}'], rfl, ⟨.nil, hclose⟩, (), ['}'], [], rfl, rfl, rfl, rfl⟩
      rintro q s r' h hc
      cases hc <;> cases h
    | @atLeast w u hw hu =>
      refine ⟨(), w, _, rfl, ⟨hw, ?_⟩, .atLeast n, ',' :: u, ['}'], by simp, .inl (.atLeast hu hclose ?_),
        (), [], ['}'], rfl, ⟨.nil, hclose⟩, (), ['}'], [], rfl, rfl, rfl, rfl⟩
      · rintro x ⟨⟩
        decide
      · rintro m s r' h ⟨hm, -⟩
        obtain ⟨d, t, rfl⟩ := List.exists_cons_of_ne_nil hm.1
        obtain ⟨rfl, -⟩ := List.cons.inj h
        exact absurd (hm.2.1 _ List.mem_cons_self) (by decide)
    | @between m w u es u' hw hu hm hu' =>
      refine ⟨(), w, _, rfl, ⟨hw, ?_⟩, .between n m, ',' :: (u ++ es), u' ++ ['}'], by simp,
        .inl (.between hu hm ?_), (), u', ['}'], rfl, ⟨hu', hclose⟩, (), ['}'], [], rfl, rfl, rfl, rfl⟩
      · rintro x ⟨⟩
        decide
      · exact isDigit_head?_tail (n := n) (by simpa using Quantifier.TailOf.exactly hu') r

theorem reads_bounds : bounds.Reads fun q s _ => q.SpelledBy s ∧ s.head? = some '{' := by
  refine ((reads_token _).bind fun _ => reads_blanks.bind fun _ => reads_bound.bind fun n =>
    reads_tail n).congr fun q s r => ?_
  rw [Quantifier.spelledBy_braces_iff]
  constructor
  · rintro ⟨_, _, _, rfl, rfl, _, w, _, rfl, ⟨hw, -⟩, n, ds, t, rfl, ⟨hn, -⟩, ht⟩
    exact ⟨n, w, ds, t, rfl, hw, hn, ht⟩
  · rintro ⟨n, w, ds, t, rfl, hw, hn, ht⟩
    refine ⟨(), ['{'], _, rfl, rfl, (), w, _, rfl, ⟨hw, ?_⟩, n, ds, t, rfl, ⟨hn, isDigit_head?_tail ht r⟩, ht⟩
    rw [List.append_assoc]
    exact head?_numeral_append hn _

theorem reads_mark {text : String} {x : Char} (hx : text.toList = [x]) (q : Quantifier) :
    (do token text; return q : Parser Quantifier).Reads fun p s _ => p = q ∧ s = [x] := by
  refine ((reads_token text).bind fun _ => reads_pure q).congr fun p s r => ?_
  rw [hx]
  constructor
  · rintro ⟨_, _, _, rfl, rfl, rfl, rfl⟩
    exact ⟨rfl, rfl⟩
  · rintro ⟨rfl, rfl⟩
    exact ⟨(), [x], [], rfl, rfl, rfl, rfl⟩

/-- **What is read as a quantifier.** -/
theorem reads_quantifier : quantifier.Reads fun q s _ => q.SpelledBy s := by
  refine ((reads_mark (x := '*') (by decide) .star).orElse_apart
    ((reads_mark (x := '+') (by decide) .plus).orElse_apart
      ((reads_mark (x := '?') (by decide) .opt).orElse_apart reads_bounds ?_) ?_) ?_).congr
    fun q s r => ?_
  · rintro _ _ r q t r' ⟨-, rfl⟩ ⟨-, ht⟩ h
    obtain ⟨u, rfl⟩ := List.head?_eq_some_iff.1 ht
    exact absurd (List.cons.inj h).1 (by decide)
  · rintro _ _ r q t r' ⟨-, rfl⟩ (⟨-, rfl⟩ | ⟨-, ht⟩) h
    · exact absurd (List.cons.inj h).1 (by decide)
    · obtain ⟨u, rfl⟩ := List.head?_eq_some_iff.1 ht
      exact absurd (List.cons.inj h).1 (by decide)
  · rintro _ _ r q t r' ⟨-, rfl⟩ (⟨-, rfl⟩ | ⟨-, rfl⟩ | ⟨-, ht⟩) h
    · exact absurd (List.cons.inj h).1 (by decide)
    · exact absurd (List.cons.inj h).1 (by decide)
    · obtain ⟨u, rfl⟩ := List.head?_eq_some_iff.1 ht
      exact absurd (List.cons.inj h).1 (by decide)
  · constructor
    · rintro (⟨rfl, rfl⟩ | ⟨rfl, rfl⟩ | ⟨rfl, rfl⟩ | ⟨hq, -⟩)
      · exact .star
      · exact .plus
      · exact .opt
      · exact hq
    · intro hq
      cases hq with
      | star => exact .inl ⟨rfl, rfl⟩
      | plus => exact .inr (.inl ⟨rfl, rfl⟩)
      | opt => exact .inr (.inr (.inl ⟨rfl, rfl⟩))
      | exactly hw hn hw' => exact .inr (.inr (.inr ⟨.exactly hw hn hw', rfl⟩))
      | atLeast hw hn hw' hu => exact .inr (.inr (.inr ⟨.atLeast hw hn hw' hu, rfl⟩))
      | between hw hn hw' hu hm hu' =>
        exact .inr (.inr (.inr ⟨.between hw hn hw' hu hm hu', rfl⟩))

end RegexNotation.Parser
