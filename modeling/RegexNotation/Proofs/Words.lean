/-
  The texts that parsers read are words of the grammar.

  `p.Yields L`: wherever `p` succeeds, the text it has read is a word of `L`.  Unlike `Reads` this says nothing of
  what follows the text, so it needs no condition on where a parser stands, and each combinator has the
  operation on languages of its name.  So the inside of a group, however deep, is one of the grammar
  (`yields_inside`).
-/
import Mathlib.Order.CompletePartialOrder
import RegexNotation.Proofs.Grammar

namespace RegexNotation.Parser

open Computability Grammar

variable {α β : Type} {p q : Parser α} {L M : Language Char}

/-- What the parser reads is a word of `L`. -/
def Yields (p : Parser α) (L : Language Char) : Prop :=
  ∀ c a c', (p.run c).outcome = some (a, c') → ∃ s ∈ L, c.Behind s c'

/-! ## Combinators -/

theorem Reads.yields {R : α → List Char → List Char → Prop} (h : p.Reads R)
    (hR : ∀ a s r, R a s r → s ∈ L) : p.Yields L := by
  intro c a c' ho
  obtain ⟨s, hs, ha⟩ := (h c a c').1 ho
  exact ⟨s, hR a s _ ha, hs⟩

theorem Yields.consumes (h : p.Yields L) : p.Consumes := by
  intro c a c' ho
  obtain ⟨s, -, hs⟩ := h c a c' ho
  exact ⟨s, hs⟩

theorem Yields.mono (h : p.Yields L) (hM : L ≤ M) : p.Yields M := by
  intro c a c' ho
  obtain ⟨s, hs, hc⟩ := h c a c' ho
  exact ⟨s, hM hs, hc⟩

theorem yields_pure (a : α) : (pure a : Parser α).Yields 1 :=
  (reads_pure a).yields fun _ _ _ h => h.2

theorem yields_token (text : String) : (token text).Yields (word text.toList) :=
  (reads_token text).yields fun _ _ _ h => h

theorem yields_charWhere (f : Char → Bool) (e : Expected) : (charWhere f e).Yields (oneOf (f ·)) :=
  (reads_charWhere f e).yields fun x _ _ h => ⟨x, h.2, h.1⟩

theorem Yields.bind {f : α → Parser β} (hp : p.Yields L) (hf : ∀ a, (f a).Yields M) :
    (p >>= f).Yields (L * M) := by
  intro c b c'' h
  obtain ⟨a, c', h1, h2⟩ := outcome_bind h
  obtain ⟨s, hs, hc⟩ := hp _ _ _ h1
  obtain ⟨t, ht, hd⟩ := hf _ _ _ _ h2
  exact ⟨s ++ t, ⟨s, hs, t, ht, rfl⟩, hc.trans hd⟩

theorem Yields.map (hp : p.Yields L) (g : α → β) : (g <$> p).Yields L :=
  (hp.bind fun a => yields_pure (g a)).mono (mul_one L).le

theorem Yields.orElse (hp : p.Yields L) (hq : q.Yields M) : (p <|> q).Yields (L + M) := by
  intro c a c' h
  rw [run_orElse] at h
  split at h
  · obtain ⟨s, hs, hc⟩ := hp c a c' h
    exact ⟨s, .inl hs, hc⟩
  · obtain ⟨s, hs, hc⟩ := hq c a c' h
    exact ⟨s, .inr hs, hc⟩

theorem mem_kstar_append {u v : List Char} (hu : u ∈ L) (hv : v ∈ L∗) : u ++ v ∈ L∗ := by
  obtain ⟨parts, rfl, hp⟩ := Language.mem_kstar.1 hv
  exact Language.mem_kstar.2 ⟨u :: parts, rfl, List.forall_mem_cons.2 ⟨hu, hp⟩⟩

theorem Yields.many (hp : p.Yields L) (ha : p.Advances) : p.many.Yields L∗ := by
  intro c as c' h
  induction hn : c.rest.length using Nat.strongRecOn generalizing c as with
  | _ n ih =>
    subst hn
    rw [many_eq ha c] at h
    rcases ho : (p.run c).outcome with _ | ⟨a, d⟩
    · simp only [ho, Option.some.injEq, Prod.mk.injEq] at h
      obtain ⟨-, rfl⟩ := h
      exact ⟨[], Language.nil_mem_kstar L, .refl c⟩
    · simp only [ho, Option.map_eq_some_iff, Prod.mk.injEq] at h
      obtain ⟨⟨as', _⟩, h, -, rfl⟩ := h
      obtain ⟨s, hs, hc⟩ := hp c a d ho
      obtain ⟨t, ht, hd⟩ := ih _ (ha.length_lt ho) d as' h rfl
      exact ⟨s ++ t, mem_kstar_append hs ht, hc.trans hd⟩

/-! ## The rules -/

theorem yields_hexDigits (lo hi : Nat) : (hexDigits lo hi).Yields (times lo hi hexDigit) := by
  refine (reads_hexDigits lo hi).yields fun ds s r h => mem_times_oneOf.2 ⟨h.2.2.1, h.2.2.2.1, fun c hc => ?_⟩
  exact isHexDigit_iff.1 (h.2.1 c hc)

theorem yields_literal : literal.Yields character :=
  reads_literal.yields fun a _ _ h => mem_character.2 ⟨a, h⟩

theorem yields_setLetter : setLetter.Yields named :=
  reads_setLetter.yields fun l _ _ h => mem_named.2 ⟨l, h.2, h.1⟩

theorem yields_setItem : Parser.setItem.Yields Grammar.setItem := by
  refine reads_setItem.yields fun i s r h => mem_setItem.2 ⟨i, ?_⟩
  cases h with
  | named hl => exact ⟨hl, rfl⟩
  | range ha hb => exact ⟨⟨ha, hb⟩, rfl⟩
  | single ha => exact ⟨ha, rfl⟩

theorem yields_caret :
    (((do token "^"; return true) <|> pure false : Parser Bool)).Yields (1 + word ['^']) :=
  ((((yields_token "^").bind fun _ => yields_pure true).mono (mul_one _).le).orElse
    (yields_pure false)).mono (add_comm _ _).le

theorem yields_set : Parser.set.Yields Grammar.set :=
  reads_set.yields fun _ _ _ ⟨negated, items, _, h⟩ => mem_set.2 ⟨negated, items, h⟩

theorem yields_blanks : Parser.blanks.Yields Grammar.blanks :=
  reads_blanks.yields fun _ _ _ h => mem_blanks.2 h.1

theorem yields_bound : bound.Yields number :=
  reads_bound.yields fun n _ _ h => mem_number.2 ⟨n, h.1⟩

theorem yields_boundsFrom (n : UInt32) :
    (boundsFrom n).Yields (1 + word [','] * Grammar.blanks * (1 + number)) := by
  have h := (yields_token ",").bind fun _ => yields_blanks.bind fun _ =>
    (yields_bound.map (Quantifier.between n)).orElse (yields_pure (Quantifier.atLeast n))
  refine (h.orElse (yields_pure (Quantifier.exactly n))).mono ?_
  rw [add_comm number, ← mul_assoc]
  exact (add_comm _ _).le

theorem yields_quantifier : quantifier.Yields suffix :=
  reads_quantifier.yields fun q _ _ h => mem_suffix.2 ⟨q, h⟩

section
variable {inside : Parser Regex}

theorem yields_group (hi : inside.Yields L) (kind : GroupKind) :
    (group inside kind).Yields (word kind.opening * L * word [')']) := by
  refine ((yields_token _).bind fun _ => hi.bind fun e => (yields_token ")").bind fun _ =>
    yields_pure (Regex.group kind e)).mono ?_
  rw [String.toList_ofList, mul_one, ← mul_assoc]
  rfl

theorem yields_atom (hi : inside.Yields L) : (Parser.atom inside).Yields (Grammar.atom L) := by
  have hword : ∀ text (e : Regex), (do token text; return e : Parser Regex).Yields (word text.toList) :=
    fun text e => ((yields_token text).bind fun _ => yields_pure e).mono (mul_one _).le
  have h := (yields_group hi .plain).orElse <| (yields_group hi .capture).orElse <| (hword "." .any).orElse <|
    (hword "$0" .never).orElse <| (hword "$e" .empty).orElse <| yields_set.orElse <|
    (yields_setLetter.map Regex.named).orElse (yields_literal.map Regex.literal)
  refine h.mono ?_
  simp only [← add_assoc]
  rfl

theorem yields_repetition (hi : inside.Yields L) : (Parser.repetition inside).Yields (Grammar.repetition L) :=
  (yields_atom hi).bind fun e =>
    ((yields_quantifier.map (Regex.quantified e)).orElse (yields_pure e)).mono (add_comm _ _).le

theorem yields_concatenation (hi : inside.Yields L) :
    (Parser.concatenation inside).Yields (Grammar.concatenation L) :=
  ((yields_repetition hi).many (advances_repetition hi.consumes)).map _

theorem yields_bar (hi : inside.Yields L) :
    (do token "|"; Parser.concatenation inside : Parser Regex).Yields (word ['|'] * Grammar.concatenation L) :=
  (yields_token "|").bind fun _ => yields_concatenation hi

theorem yields_alternation (hi : inside.Yields L) :
    (Parser.alternation inside).Yields (Grammar.alternation L) :=
  ((yields_concatenation hi).bind fun e => ((yields_bar hi).many (advances_bar hi.consumes)).map (Regex.choice e))

theorem yields_inside : ∀ d, (Parser.inside d).Yields (Grammar.inside d)
  | 0 => by rintro c a c' ⟨⟩
  | d + 1 => yields_alternation (yields_inside d)

end

end RegexNotation.Parser
