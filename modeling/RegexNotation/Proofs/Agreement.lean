/-
  How far a pattern looks ahead.

  Every rule of the notation agrees on any two texts that begin alike (`Parser.Settles`), up to
  `settles_pattern`.  Two things are delicate: the opening `(?:` of groups, within which texts can part at two
  places, and the blanks of quantifiers, which nobody wants.
-/
import RegexNotation.Proofs.Forks

namespace RegexNotation

/-- A blank in braces that only the second text has. -/
theorem Fork.parted_of_blank {f : Fork} {K : Place → Prop} {m : Misses} {c : Char} (h : c ∈ f.second.rest.head?)
    (h' : c ∉ f.first.rest.head?) (hc : Text.isBlank c) (hK : ∀ k, K k → k.InBounds)
    (hm : f.offset ≤ m.offset) : f.Parted K m := by
  have hx := shared_eq_nil h h'
  simp only [second, first, hx, List.nil_append] at h h'
  refine ⟨[c], ⟨f.other.tail, List.cons_head?_tail h⟩, ?_, .inr ⟨?_, fun k hk => ?_⟩⟩
  · rintro ⟨l, hl⟩
    exact h' (by rw [← hl]; rfl)
  · rw [parting_of_shared_eq_nil hx]
    exact Nat.le_succ_of_le hm
  · obtain ⟨v, rfl⟩ := hK k hk
    rw [hx]
    exact .blank hc

/-- The texts part between `(?` and `:`. -/
def Fork.CutsColon (f : Fork) : Prop := f.shared = ['(', '?'] ∧ [':'] <+: f.other ∧ ¬ [':'] <+: f.one

namespace Parser

open Computability Grammar

variable {α : Type} {K K' : Place → Prop}

/-! ## Characters -/

theorem settles_hexDigits {lo hi : Nat} (h : lo ≤ hi) : (hexDigits lo hi).Settles K := by
  have hup := (settles_charWhere Hex.isDigit .hexDigit fun c hc => ⟨c, hc, rfl⟩).upTo (yields_charWhere _ _) hi
  refine ⟨fun f => ((hup.agrees f).mono fun _ _ => trivial).filterMap (run_hexDigits lo hi) fun hw => ?_,
    blames_hexDigits h, consumes_hexDigits lo hi⟩
  rw [run_hexDigits] at hw
  refine ⟨hw.1, fun ds d ho => ?_⟩
  by_cases hl : lo ≤ ds.length
  · exact hw.2 (String.ofList ds) d (by simp [Reading.filterMap, ho, hl])
  · -- too few digits are followed by something that is none
    rcases (blames_charWhere _ _).length_upTo hi _ ds d ho with hn | hn
    · omega
    · exact Nat.le_trans hn hw.1

theorem settles_hexFixed {text : String} {c : Char} (h : text.toList = [c]) (n : Nat) :
    (do token text; hexDigits n n : Parser String).Settles K :=
  (settles_sign h).bind (yields_token text) passes_true
    fun _ => settles_hexDigits (Nat.le_refl n)

theorem settles_hexBraced :
    (do token "u\x7b"; let ds ← hexDigits 1 6; token "\x7d"; return ds : Parser String).Settles (· = .quoted) := by
  have hopen : (token "u\x7b").Settles (· = .quoted) := by
    refine settles_pair (c := 'u') rfl (by decide) ?_
    rintro _ rfl
    exact .code
  exact hopen.bind (yields_token _) passes_true fun _ =>
    (settles_hexDigits (by decide)).bind (yields_hexDigits 1 6) passes_true fun ds =>
    (settles_sign rfl).map fun _ => ds

theorem settles_escape : Parser.escape.Settles (· = .quoted) :=
  ((settles_charWhere _ .escapable fun c hc => ⟨c, hc, rfl⟩).map Literal.escaped).orElse <|
  ((settles_charWhere _ .controlLetter fun c hc => ⟨c, hc, rfl⟩).map Literal.control).orElse <|
  ((settles_hexFixed rfl 4).map Literal.hex4).orElse <|
  ((settles_hexFixed rfl 2).map Literal.hex2).orElse <|
  settles_hexBraced.map Literal.hexBraced

theorem settles_literal : literal.Settles Place.Free :=
  ((settles_charWhere _ .literal fun c hc => ⟨c, by simpa using hc, rfl⟩).map Literal.plain).orElse <|
  (settles_sign rfl).bind (yields_token _) leads_backslash.passes fun _ => settles_escape

theorem settles_setLetter : setLetter.Settles Place.Free :=
  (settles_sign rfl).bind (yields_token _) passes_true fun _ =>
    settles_charWhere _ .setLetter fun c hc => ⟨c, hc, rfl⟩

/-! ## Sets -/

theorem settles_rangeFrom (a : Literal) : (rangeFrom a).Settles Place.Free :=
  (((settles_sign rfl).bind (yields_token "-") leads_dash.passes fun _ => settles_literal).map
    (SetItem.range a)).orElse (settles_pure _)

theorem settles_setItem : Parser.setItem.Settles Place.Free :=
  (settles_setLetter.map SetItem.named).orElse <|
  settles_literal.bind yields_literal leads_character.passes fun a =>
    (settles_rangeFrom a).mono fun _ => free_of_eq_plain

theorem settles_set : Parser.set.Settles Place.Free := by
  have hcaret : ((do token "^"; return true) <|> pure false : Parser Bool).Settles Place.Free :=
    ((settles_sign rfl).map fun _ => true).orElse (settles_pure false)
  have hitems : (many Parser.setItem).Settles Place.Free :=
    settles_setItem.many yields_setItem leads_setItem.free.passes advances_setItem
  exact (settles_sign rfl).bind (yields_token "[") leads_openBracket.passes fun _ =>
    hcaret.bind yields_caret leads_caret.passes fun negated =>
    hitems.bind (yields_setItem.many advances_setItem) leads_setItem.kstar_free.passes fun items =>
    (settles_sign rfl).map fun _ => Regex.set negated items

/-! ## Quantifiers -/

/-- Nobody wants a blank.  If the second text has one more where the texts part, then what follows the blanks has
    been missed in the first text. -/
theorem settles_blanks_bind {g : Unit → Parser α} (hL : Passes K K' Grammar.blanks)
    (hK : ∀ k, K' k → k.InBounds) (hg : ∀ u, (g u).Settles K') (hr : ∀ u, (g u).Reports) :
    (Parser.blanks >>= g).Settles K := by
  have hb : ∀ u, (g u).Blames := fun u => (hg u).blames
  have hc : ∀ u, (g u).Consumes := fun u => (hg u).consumes
  refine ⟨fun f hw => ?_, (blames_skipWhile _).bind (consumes_skipWhile _) hb, (consumes_skipWhile _).bind hc⟩
  have hwb := within_of_within_bind hb hc hw
  obtain ⟨⟨⟩, d, ho⟩ : ∃ u d, (Parser.blanks.run f.first).outcome = some (u, d) := ⟨(), _, rfl⟩
  obtain ⟨s, hd, hs, hone⟩ := (reads_blanks _ _ _).1 ho
  obtain ⟨f', hf, rfl⟩ := Fork.exists_behind hd (hwb.2 _ _ ho)
  by_cases hother : ∀ c ∈ f'.second.rest.head?, Text.isBlank c = false
  · -- both runs of blanks end where the first one does
    have hblanks : Parser.blanks.AgreesAt K f := by
      refine fun _ => .inl ⟨rfl, by rintro ⟨⟩, fun u c h => ?_⟩
      obtain ⟨-, rfl⟩ := Prod.mk.inj (Option.some.inj (h.symm.trans ho))
      exact ⟨s, f', hf, rfl, (reads_blanks _ _ _).2 ⟨s, hf.second, hs, hother⟩⟩
    exact hblanks.bind yields_blanks hL (fun u f' _ => (hg u).agrees f') hb hc hw
  · simp only [not_forall, Bool.not_eq_false] at hother
    obtain ⟨c, hc', hblank⟩ := hother
    have hn : c ∉ f'.first.rest.head? := by
      intro h
      have := hone c h
      rw [hblank] at this
      cases this
    have hp : f'.offset = f.parting := by
      rw [← hf.parting, Fork.parting_of_shared_eq_nil (Fork.shared_eq_nil hc' hn)]
    rw [run_bind, ho] at hw ⊢
    refine .inr (Fork.Parted.of_behind (Fork.parted_of_blank hc' hn hblank hK ?_) hf (hL s (mem_blanks.2 hs)))
    rcases hr () f'.first with ⟨a, e, he, hlt⟩ | hle
    · exact absurd (hw.2 a e he) (Nat.not_le.2 (hp ▸ hlt))
    · exact Nat.le_trans hle (Misses.le_offset_join_right ..)

theorem settles_bound : bound.Settles K := by
  have hdigit : digit.Settles fun _ => True := settles_charWhere _ .digit fun c hc => ⟨c, hc, rfl⟩
  have hdigits : digits.Settles fun _ => True :=
    hdigit.bind (yields_charWhere _ _) passes_true fun d =>
      (hdigit.many (yields_charWhere _ _) passes_true (advances_charWhere _ _)).map (d :: ·)
  exact (hdigits.accept advances_digits reaches_digits _ _).mono fun _ _ => trivial

theorem inBounds_zero {k : Place} (h : k = .bounds 0) : k.InBounds := ⟨0, h⟩

theorem settles_boundsFrom (n : UInt32) : (boundsFrom n).Settles Place.InBounds := by
  have hsecond : (Quantifier.between n <$> bound <|> pure (.atLeast n) : Parser Quantifier).Settles (· = .bounds 0) :=
    (settles_bound.map _).orElse (settles_pure _)
  exact ((settles_sign rfl).bind (yields_token ",") leads_comma.passes fun _ =>
    settles_blanks_bind leads_blanks.passes (fun _ => inBounds_zero) (fun _ => hsecond) fun _ =>
      ((advances_bound.map _).reports (blames_bound.map _)).orElse).orElse (settles_pure _)

theorem reports_boundsFrom (n : UInt32) : (boundsFrom n).Reports := by
  refine Reports.orElse (Advances.reports ((advances_token (by decide)).bind fun _ => ?_) ?_)
  · exact (consumes_skipWhile _).bind fun _ => (advances_bound.map _).consumes.orElse (consumes_pure _)
  · exact (blames_token _).bind (reads_token _).consumes fun _ =>
      (blames_skipWhile _).bind (consumes_skipWhile _) fun _ => (blames_pure _).orElse_right

theorem settles_bounds : Parser.bounds.Settles (· = .plain) := by
  -- from the end: each step puts one more part in front
  have h1 (q : Quantifier) : (do token "\x7d"; return q : Parser Quantifier).Settles Place.InBounds :=
    (settles_sign rfl).map fun _ => q
  have hr1 (q : Quantifier) : (do token "\x7d"; return q : Parser Quantifier).Reports :=
    ((advances_token (by decide)).map fun _ => q).reports (h1 q).blames
  have h2 (q : Quantifier) := settles_blanks_bind leads_blanks_inBounds.passes (fun _ h => h) (fun _ => h1 q)
    fun _ => hr1 q
  have h3 (n : UInt32) := (settles_boundsFrom n).bind (yields_boundsFrom n) leads_secondBound.passes h2
  have hr3 (n : UInt32) := (reports_boundsFrom n).bind (fun q => (h2 q).blames) fun q => (h2 q).consumes
  have h4 (n : UInt32) := settles_blanks_bind leads_blanks_inBounds.passes (fun _ h => h) (fun _ => h3 n)
    fun _ => hr3 n
  have h5 := settles_bound.bind yields_bound leads_number.passes h4
  have hr5 := (advances_bound.reports blames_bound).bind (fun n => (h4 n).blames) fun n => (h4 n).consumes
  have h6 := settles_blanks_bind leads_blanks.passes (fun _ => inBounds_zero) (fun _ => h5) fun _ => hr5
  exact (settles_sign rfl).bind (yields_token "\x7b") leads_openBrace.passes fun _ => h6

theorem settles_quantifier : quantifier.Settles (· = .plain) := by
  have hmark {text : String} {c : Char} (h : text.toList = [c]) (q : Quantifier) :
      (do token text; return q : Parser Quantifier).Settles (· = .plain) := (settles_sign h).map fun _ => q
  exact (hmark rfl .star).orElse <| (hmark rfl .plus).orElse <| (hmark rfl .opt).orElse settles_bounds

/-! ## Groups -/

theorem passes_opening (kind : GroupKind) :
    Passes Place.Free Place.Free (word (String.ofList kind.opening).toList) := by
  rw [String.toList_ofList]
  rintro _ rfl k hk
  exact (after_opening kind hk).1

theorem agreesAt_plainOpening {f : Fork} (h : ¬ f.CutsColon) :
    (token (.ofList GroupKind.plain.opening)).AgreesAt Place.Free f := by
  refine (readsWords_token _).agreesAt fun z hz hx hne hother hone => ?_
  rw [String.toList_ofList, GroupKind.opening] at hz
  rcases hs : f.shared with _ | ⟨a, _ | ⟨b, _ | ⟨c, x⟩⟩⟩
  · exact absurd hs hx
  · obtain ⟨rfl, rfl⟩ : a = '(' ∧ z = ['?', ':'] := by simpa [hs] using hz
    refine ⟨by decide, ?_⟩
    rintro k (rfl | rfl) <;> exact .group
  · obtain ⟨rfl, rfl, rfl⟩ : a = '(' ∧ b = '?' ∧ z = [':'] := by simpa [hs] using hz
    exact absurd ⟨hs, hother, hone⟩ h
  · have hz : x ++ z = [] := by simpa [hs] using congrArg (List.drop 3) hz
    exact absurd (List.append_eq_nil_iff.1 hz).2 hne

section
variable {inside : Parser Regex} {L : Language Char}

/-- A text that goes on with `(?`, but not with `(?:`, is not read as the first kind of group. -/
theorem outcome_plainGroup (hy : inside.Yields L) {c : Cursor} {l : List Char} (hc : c.rest = '(' :: '?' :: l)
    (h : ¬ [':'] <+: l) : ((group inside .plain).run c).outcome = none := by
  rcases ho : ((group inside .plain).run c).outcome with _ | ⟨e, d⟩
  · rfl
  · obtain ⟨_, ⟨_, ⟨_, rfl, u, -, rfl⟩, v, -, rfl⟩, hd, -⟩ := yields_group hy .plain c e d ho
    rw [hc] at hd
    simp only [GroupKind.opening, List.cons_append, List.cons.injEq, true_and] at hd
    exact absurd ⟨_, hd.symm⟩ h

/-- Behind the opening of the second kind, the inside of the group misses something. -/
theorem lt_misses_captureGroup (hi : ∀ c, c.offset ≤ (inside.run c).misses.offset) {c : Cursor} {l : List Char}
    (hc : c.rest = '(' :: l) : c.offset < ((group inside .capture).run c).misses.offset := by
  have ho : ((token (.ofList GroupKind.capture.opening)).run c).outcome = some ((), ⟨c.offset + 1, l⟩) :=
    (reads_token _ c () _).2 ⟨['('], ⟨hc, rfl⟩, String.toList_ofList.symm⟩
  rw [group, run_bind, ho]
  exact Nat.le_trans (hi ⟨c.offset + 1, l⟩)
    (Nat.le_trans (offset_misses_bind inside _ _) (Misses.le_offset_join_right ..))

variable (hi : inside.Settles Place.Free) (hy : inside.Yields L) (hL : Leads Place.Free Place.Free L)
include hi hy hL

theorem settles_groupEnd (kind : GroupKind) :
    (do let e ← inside; token ")"; return .group kind e : Parser Regex).Settles Place.Free :=
  hi.bind hy hL.passes fun e => (settles_sign rfl).map fun _ => Regex.group kind e

theorem settles_captureGroup : (group inside .capture).Settles Place.Free :=
  (settles_sign rfl).bind (yields_token _) (passes_opening .capture) fun _ => settles_groupEnd hi hy hL .capture

theorem agreesAt_plainGroup {f : Fork} (h : ¬ f.CutsColon) : (group inside .plain).AgreesAt Place.Free f :=
  have hend := settles_groupEnd hi hy hL .plain
  (agreesAt_plainOpening h).bind (yields_token _) (passes_opening .plain) (fun _ f' _ => hend.agrees f')
    (fun _ => hend.blames) fun _ => hend.consumes

theorem settles_atom (hr : inside.Reaches) : (Parser.atom inside).Settles Place.Free := by
  have hword (text : String) {c : Char} (h : text.toList = [c]) (e : Regex) :
      (do token text; return e : Parser Regex).Settles Place.Free := (settles_sign h).map fun _ => e
  have hdollar (text : String) {c : Char} (h : text.toList = ['$', c]) (e : Regex) :
      (do token text; return e : Parser Regex).Settles Place.Free := by
    refine (settles_pair h (by decide) ?_).map fun _ => e
    rintro k (rfl | rfl) <;> exact .torn
  have htail := (settles_captureGroup hi hy hL).orElse <| (hword "." rfl .any).orElse <|
    (hdollar "$0" rfl .never).orElse <| (hdollar "$e" rfl .empty).orElse <| settles_set.orElse <|
    (settles_setLetter.map Regex.named).orElse (settles_literal.map Regex.literal)
  refine ⟨fun f => ?_, htail.blames.orElse_right, (advances_atom hi.consumes).consumes⟩
  by_cases h : f.CutsColon
  · -- the first text has a group of the second kind here, whose inside misses something behind the `(`
    obtain ⟨hs, hother, hone⟩ := h
    have hrest : f.first.rest = '(' :: '?' :: f.one := by rw [Fork.first, hs]; rfl
    have hlt := lt_misses_captureGroup (hi.blames.le_misses hr hi.consumes) hrest
    refine fun _ => .inr ⟨[':'], hother, hone, .inr ⟨?_, ?_⟩⟩
    · rw [Parser.atom, run_orElse, outcome_plainGroup hy hrest hone, Fork.parting, hs]
      show f.first.offset + 1 + 1 ≤ _
      exact Nat.succ_le_succ (Nat.le_trans hlt
        (Nat.le_trans (offset_misses_orElse _ _ f.first) (Misses.le_offset_join_right ..)))
    · rintro k (rfl | rfl) <;> rw [hs] <;> exact .torn
  · exact (agreesAt_plainGroup hi hy hL h).orElse (htail.agrees f)

/-! ## Expressions -/

variable (hr : inside.Reaches)
include hr

theorem settles_repetition : (Parser.repetition inside).Settles Place.Free :=
  (settles_atom hi hy hL hr).bind (yields_atom hy) (leads_atom hL).passes fun e =>
    (settles_quantifier.map (Regex.quantified e)).orElse (settles_pure e)

theorem settles_concatenation : (Parser.concatenation inside).Settles Place.Free :=
  ((settles_repetition hi hy hL hr).many (yields_repetition hy) (leads_repetition hL).free.passes
    (advances_repetition hi.consumes)).map Regex.concat

theorem settles_bar : (do token "|"; Parser.concatenation inside : Parser Regex).Settles Place.Free :=
  (settles_sign rfl).bind (yields_token "|") leads_barSign.passes fun _ => settles_concatenation hi hy hL hr

theorem settles_alternation : (Parser.alternation inside).Settles Place.Free :=
  (settles_concatenation hi hy hL hr).bind (yields_concatenation hy) (leads_concatenation hL).passes fun e =>
    ((settles_bar hi hy hL hr).many (yields_bar hy) (leads_bar hL).passes (advances_bar hi.consumes)).map
      (Regex.choice e)

end

theorem settles_inside : ∀ d, (Parser.inside d).Settles Place.Free
  | 0 => settles_miss _
  | d + 1 => settles_alternation (settles_inside d) (yields_inside d) (leads_inside d) (reaches_inside d)

/-- **A pattern agrees on any two texts that begin alike.** -/
theorem settles_pattern : Parser.pattern.Settles Place.Free :=
  settles_alternation (settles_inside _) (yields_inside _) (leads_inside _) (reaches_inside _)

end Parser
end RegexNotation
