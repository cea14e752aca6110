/-
  Patterns one behind the other.

  A tree that was read is a list of alternatives, each of them a list of repetitions (`Regex.alternatives`), and both
  lists lean to the left in it (`Regex.ofAlternatives`).

  * `parse_eq_ok_iff_alternatives`: a text is read as the tree of such a list iff it spells the alternatives, with
    bars between them;
  * `AlternativesWritten.bar_append`, `AlternativesWritten.append`: two texts make one, behind a bar, or with the
    alternatives joined that meet.  What is read of one text does not depend on the other;
  * `exists_parse_append_eq_ok`: hence patterns are read one by one, also inside a group.
-/
import RegexNotation.Proofs.Patterns

namespace RegexNotation

open Regex (Written)

/-! ## Trees as lists -/

namespace Regex

/-- The repetitions of a concatenation. -/
def items : Regex → List Regex
  | blank => []
  | cat l r => l.items ++ [r]
  | e => [e]

/-- The alternatives of an expression, each as its repetitions. -/
def alternatives : Regex → List (List Regex)
  | alt l r => l.alternatives ++ [r.items]
  | e => [e.items]

/-- The expression with the given alternatives. -/
def ofAlternatives : List (List Regex) → Regex
  | [] => .blank
  | es :: ess => choice (concat es) (ess.map concat)

theorem items_foldl_cat (e : Regex) (es : List Regex) : (es.foldl .cat e).items = e.items ++ es := by
  induction es generalizing e with
  | nil => simp
  | cons f es ih => rw [List.foldl_cons, ih, items]; simp

theorem alternatives_choice (e : Regex) (es : List Regex) :
    (choice e es).alternatives = e.alternatives ++ es.map items := by
  unfold choice
  induction es generalizing e with
  | nil => simp
  | cons f es ih => rw [List.foldl_cons, ih, alternatives]; simp

theorem Fits.items_eq {e : Regex} (h : e.Fits .repetition) : e.items = [e] := by
  cases h with
  | atom h => cases h <;> rfl
  | quantified => rfl

theorem Fits.alternatives_eq {e : Regex} (h : e.Fits .concatenation) : e.alternatives = [e.items] := by
  cases h with
  | blank => rfl
  | sequence h =>
    cases h with
    | cat => rfl
    | repetition h =>
      cases h with
      | atom h => cases h <;> rfl
      | quantified => rfl

end Regex

/-! ## Their texts -/

namespace Parser

/-- The text of repetitions in a row. -/
def ItemsWritten (d : Nat) (es : List Regex) (s : List Char) : Prop :=
  Each (fun e s _ => Written .repetition d e s) es s []

/-- The text of alternatives, with bars between them. -/
inductive AlternativesWritten (d : Nat) : List (List Regex) → List Char → Prop
  | single {es s} : ItemsWritten d es s → AlternativesWritten d [es] s
  | bar {es ess s t} : ItemsWritten d es s → AlternativesWritten d ess t →
      AlternativesWritten d (es :: ess) (s ++ '|' :: t)

variable {d : Nat} {es : List Regex} {ess : List (List Regex)} {s t : List Char}

theorem written_concatenation {e : Regex} :
    Written .concatenation d e s ↔ ∃ es, e = .concat es ∧ ItemsWritten d es s := by
  have hend : ∀ x ∈ ([] : List Char).head?, x = '|' ∨ x = ')' := by rintro x ⟨⟩
  rw [← concatenationRead_iff hend]
  unfold ConcatenationRead ItemsWritten
  simp only [each_repetition_iff fun x hx => .inr (hend x hx), stuck_repetition hend, and_true]

theorem ItemsWritten.items_concat (h : ItemsWritten d es s) : (Regex.concat es).items = es := by
  cases h with
  | nil => rfl
  | cons he _ =>
    rw [Regex.concat, Regex.items_foldl_cat, he.1.items_eq]
    rfl

theorem ItemsWritten.alternatives_concat (h : ItemsWritten d es s) :
    (Regex.concat es).alternatives = [es] := by
  have hw := written_concatenation.2 ⟨es, rfl, h⟩
  rw [hw.1.alternatives_eq, h.items_concat]

theorem AlternativesWritten.map_items_map_concat (h : AlternativesWritten d ess s) :
    (ess.map Regex.concat).map Regex.items = ess := by
  induction h with
  | single h => simp [h.items_concat]
  | bar h _ ih => rw [List.map_cons, List.map_cons, h.items_concat, ih]

/-- The tree of the alternatives of a text has these alternatives. -/
theorem AlternativesWritten.alternatives_ofAlternatives (h : AlternativesWritten d ess s) :
    (Regex.ofAlternatives ess).alternatives = ess := by
  cases h with
  | single h => exact h.alternatives_concat
  | bar h ht =>
    rw [Regex.ofAlternatives, Regex.alternatives_choice, h.alternatives_concat, ht.map_items_map_concat]
    rfl

theorem AlternativesWritten.exists_bars (h : AlternativesWritten d ess s) :
    ∃ es fss u t, ess = es :: fss ∧ s = u ++ t ∧ ItemsWritten d es u ∧
      Each (fun e s _ => BarWritten d e s) (fss.map .concat) t [] := by
  induction h with
  | @single es s h => exact ⟨es, [], s, [], rfl, by simp, h, .nil⟩
  | @bar es _ s _ h _ ih =>
    obtain ⟨fs, fss, u, t, rfl, rfl, hu, ht⟩ := ih
    have hb : BarWritten d (.concat fs) ('|' :: u) := ⟨u, rfl, written_concatenation.2 ⟨fs, rfl, hu⟩⟩
    exact ⟨es, fs :: fss, s, '|' :: u ++ t, rfl, by simp, h, .cons hb ht⟩

theorem exists_alternativesWritten {fs : List Regex} (h : ItemsWritten d es s)
    (ht : Each (fun e s _ => BarWritten d e s) fs t []) :
    ∃ ess : List (List Regex), fs = ess.map .concat ∧ AlternativesWritten d (es :: ess) (s ++ t) := by
  generalize ([] : List Char) = r at ht
  induction ht generalizing es s with
  | nil => exact ⟨[], rfl, by simpa using .single h⟩
  | cons hb _ ih =>
    obtain ⟨u, rfl, hu⟩ := hb
    obtain ⟨gs, rfl, hgs⟩ := written_concatenation.1 hu
    obtain ⟨ess, rfl, hess⟩ := ih hgs
    exact ⟨gs :: ess, rfl, .bar h hess⟩

theorem written_alternation_iff_alternatives {e : Regex} :
    Written .alternation d e s ↔ ∃ ess, e = .ofAlternatives ess ∧ AlternativesWritten d ess s := by
  rw [written_alternation, spine_iff []]
  constructor
  · rintro ⟨e₀, fs, u, t, rfl, rfl, h₀, ht⟩
    obtain ⟨es, rfl, hu⟩ := written_concatenation.1 h₀
    obtain ⟨ess, rfl, h⟩ := exists_alternativesWritten hu ht
    exact ⟨es :: ess, rfl, h⟩
  · rintro ⟨ess, rfl, h⟩
    obtain ⟨es, fss, u, t, rfl, rfl, hu, ht⟩ := h.exists_bars
    exact ⟨_, _, u, t, rfl, rfl, written_concatenation.2 ⟨es, rfl, hu⟩, ht⟩

/-! ## One behind the other -/

theorem AlternativesWritten.bar_append {fss : List (List Regex)} (h : AlternativesWritten d ess s)
    (h' : AlternativesWritten d fss t) : AlternativesWritten d (ess ++ fss) (s ++ '|' :: t) := by
  induction h with
  | single h => exact .bar h h'
  | bar h _ ih =>
    rw [List.append_assoc]
    exact .bar h ih

/-- The last alternative of the first text and the first one of the second become one. -/
theorem AlternativesWritten.append {fss : List (List Regex)} (h : AlternativesWritten d ess s)
    (h' : AlternativesWritten d fss t) : ∃ ass as bs bss, ess = ass ++ [as] ∧ fss = bs :: bss ∧
      AlternativesWritten d (ass ++ (as ++ bs) :: bss) (s ++ t) := by
  induction h with
  | @single as s h =>
    cases h' with
    | @single bs _ h' => exact ⟨[], as, bs, [], rfl, rfl, .single (Each.append h h')⟩
    | @bar bs bss _ _ h' ht =>
      refine ⟨[], as, bs, bss, rfl, rfl, ?_⟩
      rw [← List.append_assoc]
      exact .bar (Each.append h h') ht
  | @bar es _ s _ h _ ih =>
    obtain ⟨ass, as, bs, bss, rfl, rfl, ih⟩ := ih
    refine ⟨es :: ass, as, bs, bss, rfl, rfl, ?_⟩
    rw [List.append_assoc]
    exact .bar h ih

end Parser

/-! ## Patterns -/

namespace Regex

theorem parse_eq_ok_iff_alternatives {text : String} {e : Regex} : parse text = .ok e ↔
    ∃ ess, e = ofAlternatives ess ∧ Parser.AlternativesWritten maxNesting ess text.toList := by
  rw [parse_eq_ok_iff, WellFormed, and_assoc]
  exact Parser.written_alternation_iff_alternatives

/-- A pattern in a group is read as the group of its tree, with or without a quantifier behind it. -/
theorem parse_group {text : String} {e : Regex} (h : parse text = .ok e) (hn : e.nesting < maxNesting)
    (kind : GroupKind) : parse (.ofList kind.opening ++ text ++ ")") = .ok (group kind e) ∧
      ∀ q s, Quantifier.SpelledBy q s →
        parse (.ofList kind.opening ++ text ++ ")" ++ .ofList s) = .ok (quantified (group kind e) q) := by
  obtain ⟨⟨hf, -⟩, hs⟩ := parse_eq_ok_iff.1 h
  have hg : (group kind e).SpelledBy (kind.opening ++ (text.toList ++ [')'])) := ⟨text.toList, hs, rfl⟩
  have ha : (group kind e).Fits .atom := .group hf
  constructor
  · refine parse_eq_ok_iff.2 ⟨⟨.concatenation (.sequence (.repetition (.atom ha))), hn⟩, ?_⟩
    simpa using hg
  · intro q s hq
    refine parse_eq_ok_iff.2 ⟨⟨.concatenation (.sequence (.repetition (.quantified ha))), hn⟩, ?_⟩
    exact ⟨_, s, hg, hq, by simp⟩

/-- **Patterns are read one by one.**  Behind a bar, the alternatives of the second pattern follow those of the
    first.  Without a bar, the alternatives that meet become one.  In a group, a pattern is read as on its own. -/
theorem exists_parse_append_eq_ok {p q : String} {e f : Regex} (hp : parse p = .ok e) (hq : parse q = .ok f) :
    (∃ g, parse (p ++ "|" ++ q) = .ok g ∧ g.alternatives = e.alternatives ++ f.alternatives ∧
      g = ofAlternatives g.alternatives) ∧
    (∃ g ass as bs bss, parse (p ++ q) = .ok g ∧ e.alternatives = ass ++ [as] ∧ f.alternatives = bs :: bss ∧
      g.alternatives = ass ++ (as ++ bs) :: bss ∧ g = ofAlternatives g.alternatives) ∧
    (e.nesting ≤ 255 → ∀ kind : GroupKind, parse (.ofList kind.opening ++ p ++ ")") = .ok (group kind e) ∧
      ∀ r s, Quantifier.SpelledBy r s →
        parse (.ofList kind.opening ++ p ++ ")" ++ .ofList s) = .ok (quantified (group kind e) r)) := by
  refine ⟨?_, ?_, fun hn kind => parse_group hp (Nat.lt_succ_of_le hn) kind⟩
  all_goals
    obtain ⟨ess, rfl, hess⟩ := parse_eq_ok_iff_alternatives.1 hp
    obtain ⟨fss, rfl, hfss⟩ := parse_eq_ok_iff_alternatives.1 hq
    rw [hess.alternatives_ofAlternatives, hfss.alternatives_ofAlternatives]
  · have hg := hess.bar_append hfss
    refine ⟨ofAlternatives (ess ++ fss), parse_eq_ok_iff_alternatives.2 ⟨_, rfl, ?_⟩, ?_, ?_⟩
    · simpa using hg
    · exact hg.alternatives_ofAlternatives
    · rw [hg.alternatives_ofAlternatives]
  · obtain ⟨ass, as, bs, bss, rfl, rfl, hg⟩ := hess.append hfss
    refine ⟨ofAlternatives (ass ++ (as ++ bs) :: bss), ass, as, bs, bss,
      parse_eq_ok_iff_alternatives.2 ⟨_, rfl, ?_⟩, rfl, rfl, ?_, ?_⟩
    · rwa [String.toList_append]
    · exact hg.alternatives_ofAlternatives
    · rw [hg.alternatives_ofAlternatives]

theorem exists_parse_append_eq_ok_at :
    let a := literal (.plain 'a')
    let b := quantified (literal (.plain 'b')) .star
    let c := literal (.plain 'c')
    parse "a|b*" = .ok (alt a b) ∧ parse "ca|" = .ok (alt (cat c a) blank) ∧
      (∃ g, parse ("a|b*" ++ "|" ++ "ca|") = .ok g ∧ g.alternatives = [[a], [b], [c, a], []]) ∧
      (∃ g, parse ("a|b*" ++ "ca|") = .ok g ∧ g.alternatives = [[a], [b, c, a], []]) ∧ (alt a b).nesting ≤ 255 ∧
      parse (.ofList GroupKind.plain.opening ++ "a|b*" ++ ")" ++ .ofList ['+']) =
        .ok (quantified (group .plain (alt a b)) .plus) := by
  intro a b c
  have hp : parse "a|b*" = .ok (alt a b) := by decide +kernel
  have hq : parse "ca|" = .ok (alt (cat c a) blank) := by decide +kernel
  have hn : (alt a b).nesting ≤ 255 := Nat.zero_le 255
  obtain ⟨⟨g, hg, ha, -⟩, ⟨g', ass, as, bs, bss, hg', he, hf, ha', -⟩, hgroup⟩ := exists_parse_append_eq_ok hp hq
  refine ⟨hp, hq, ⟨g, hg, ha⟩, ⟨g', hg', ?_⟩, hn, (hgroup hn .plain).2 .plus ['+'] .plus⟩
  have he : [[a]] ++ [[b]] = ass ++ [as] := he
  obtain ⟨rfl, has⟩ := List.append_inj' he rfl
  cases has
  cases hf
  exact ha'

end Regex
end RegexNotation
