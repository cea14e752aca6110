/-
  What the combinators of parsers read.

  `p.Reads R` says of a parser exactly when it succeeds: it gives `a` and stops behind the text `s`, in front
  of `r`, iff `R a s r`.  What follows a text is part of the relation because a parser may look at it before
  it stops.

  * Each combinator has one lemma, which makes the relation of the whole from those of its parts
    (`Reads.bind`, `Reads.orElse`, `Reads.upTo`, `Reads.many`);
  * `Stuck R l` says that nothing is read at the front of `l`: there the second part of a choice has its turn,
    and a repetition stops;
  * `Reads.orElse_apart` is the choice between parsers no two of whose texts begin alike, where the order does
    not matter.
-/
import Mathlib.Data.List.TakeWhile
import RegexNotation.Parser.Lemmas

namespace RegexNotation

namespace Cursor

theorem behind_append_iff {c c' : Cursor} {s t : List Char} :
    c.Behind (s ++ t) c' ↔ ∃ d, c.Behind s d ∧ d.Behind t c' := by
  constructor
  · rintro ⟨h1, h2⟩
    refine ⟨⟨c.offset + utf8Length s, t ++ c'.rest⟩, ⟨by simpa using h1, rfl⟩, rfl, ?_⟩
    rw [h2, utf8Length_append, Nat.add_assoc]
  · rintro ⟨d, h1, h2⟩
    exact h1.trans h2

theorem behind_nil_iff {c c' : Cursor} : c.Behind [] c' ↔ c' = c := by
  constructor
  · rintro ⟨h1, h2⟩
    obtain ⟨o, r⟩ := c
    obtain ⟨o', r'⟩ := c'
    simp only [utf8Length, List.nil_append, Nat.add_zero] at h1 h2
    rw [h1, h2]
  · rintro rfl
    exact .refl c'

end Cursor

namespace Parser

variable {α β : Type} {p q : Parser α} {R S : α → List Char → List Char → Prop}

/-- Nothing at the front of `l` is related. -/
def Stuck (R : α → List Char → List Char → Prop) (l : List Char) : Prop :=
  ∀ a s r, l = s ++ r → ¬ R a s r

/-- **What a parser reads.**  It gives `a` behind `s` and in front of `r` iff `R a s r`. -/
def Reads (p : Parser α) (R : α → List Char → List Char → Prop) : Prop :=
  ∀ c a c', (p.run c).outcome = some (a, c') ↔ ∃ s, c.Behind s c' ∧ R a s c'.rest

/-- The values of a list, read one behind the other. -/
inductive Each (R : α → List Char → List Char → Prop) : List α → List Char → List Char → Prop
  | nil {r} : Each R [] [] r
  | cons {a as s t r} : R a s (t ++ r) → Each R as t r → Each R (a :: as) (s ++ t) r

/-! ## Runs -/

theorem Reads.congr (hp : p.Reads R) (h : ∀ a s r, R a s r ↔ S a s r) : p.Reads S := by
  intro c a c'
  rw [hp c a c']
  exact exists_congr fun s => and_congr_right fun _ => h a s c'.rest

theorem Reads.consumes (hp : p.Reads R) : p.Consumes := by
  intro c a c' h
  obtain ⟨s, hc, -⟩ := (hp c a c').1 h
  exact ⟨s, hc⟩

/-- A parser fails where it is stuck, and only there. -/
theorem Reads.outcome_eq_none (hp : p.Reads R) (c : Cursor) :
    (p.run c).outcome = none ↔ Stuck R c.rest := by
  constructor
  · intro hn a s r hl hR
    have := (hp c a ⟨c.offset + Cursor.utf8Length s, r⟩).2 ⟨s, ⟨hl, rfl⟩, hR⟩
    rw [hn] at this
    cases this
  · intro hs
    rcases h : (p.run c).outcome with _ | ⟨a, c'⟩
    · rfl
    · obtain ⟨s, hc, hR⟩ := (hp c a c').1 h
      exact absurd hR (hs a s c'.rest hc.1)

theorem Reads.exists_of_ne_none (hp : p.Reads R) {c : Cursor} (h : (p.run c).outcome ≠ none) :
    ∃ a s r, c.rest = s ++ r ∧ R a s r := by
  rcases ho : (p.run c).outcome with _ | ⟨a, c'⟩
  · exact absurd ho h
  · obtain ⟨s, hc, hR⟩ := (hp c a c').1 ho
    exact ⟨a, s, c'.rest, hc.1, hR⟩

/-! ## Sequence and choice -/

theorem reads_pure (a : α) : (pure a : Parser α).Reads fun b s _ => b = a ∧ s = [] := by
  intro c b c'
  simp only [run_pure, Option.some.injEq, Prod.mk.injEq]
  constructor
  · rintro ⟨rfl, rfl⟩
    exact ⟨[], .refl c, rfl, rfl⟩
  · rintro ⟨s, hc, rfl, rfl⟩
    exact ⟨rfl, (Cursor.behind_nil_iff.1 hc).symm⟩

theorem Reads.bind {f : α → Parser β} {T : α → β → List Char → List Char → Prop} (hp : p.Reads R)
    (hf : ∀ a, (f a).Reads (T a)) :
    (p >>= f).Reads fun b u r => ∃ a s t, u = s ++ t ∧ R a s (t ++ r) ∧ T a b t r := by
  intro c b c''
  constructor
  · intro h
    obtain ⟨a, c', h1, h2⟩ := outcome_bind h
    obtain ⟨s, hs, hR⟩ := (hp _ _ _).1 h1
    obtain ⟨t, ht, hT⟩ := (hf _ _ _ _).1 h2
    exact ⟨s ++ t, hs.trans ht, a, s, t, rfl, ht.1 ▸ hR, hT⟩
  · rintro ⟨_, hu, a, s, t, rfl, hR, hT⟩
    obtain ⟨c', hs, ht⟩ := Cursor.behind_append_iff.1 hu
    have h1 := (hp c a c').2 ⟨s, hs, ht.1 ▸ hR⟩
    rw [run_bind, h1]
    exact (hf a c' b c'').2 ⟨t, ht, hT⟩

theorem Reads.map (hp : p.Reads R) (g : α → β) :
    (g <$> p).Reads fun b s r => ∃ a, b = g a ∧ R a s r := by
  refine (hp.bind fun a => reads_pure (g a)).congr fun b u r => ?_
  constructor
  · rintro ⟨a, s, t, rfl, hR, rfl, rfl⟩
    exact ⟨a, rfl, by simpa using hR⟩
  · rintro ⟨a, rfl, hR⟩
    exact ⟨a, u, [], by simp, by simpa using hR, rfl, rfl⟩

theorem Reads.orElse (hp : p.Reads R) (hq : q.Reads S) :
    (p <|> q).Reads fun a s r => R a s r ∨ Stuck R (s ++ r) ∧ S a s r := by
  intro c a c'
  rw [run_orElse]
  rcases h : (p.run c).outcome with _ | ⟨b, d⟩
  · have hs := (hp.outcome_eq_none c).1 h
    constructor
    · intro hr
      obtain ⟨s, hc, hS⟩ := (hq c a c').1 hr
      exact ⟨s, hc, .inr ⟨hc.1 ▸ hs, hS⟩⟩
    · rintro ⟨s, hc, hR | ⟨-, hS⟩⟩
      · exact absurd hR (hs a s c'.rest hc.1)
      · exact (hq c a c').2 ⟨s, hc, hS⟩
  · obtain ⟨t, hd, hb⟩ := (hp c b d).1 h
    constructor
    · intro hr
      obtain ⟨s, hc, hR⟩ := (hp c a c').1 hr
      exact ⟨s, hc, .inl hR⟩
    · rintro ⟨s, hc, hR | ⟨hs, -⟩⟩
      · exact (hp c a c').2 ⟨s, hc, hR⟩
      · exact absurd hb (hs b t d.rest (hc.1 ▸ hd.1))

/-- The order of a choice does not matter when no text of one part begins like a text of the other. -/
theorem Reads.orElse_apart (hp : p.Reads R) (hq : q.Reads S)
    (hne : ∀ a s r b t r', R a s r → S b t r' → s ++ r ≠ t ++ r') :
    (p <|> q).Reads fun a s r => R a s r ∨ S a s r := by
  refine (hp.orElse hq).congr fun a s r => ?_
  constructor
  · rintro (hR | ⟨-, hS⟩)
    · exact .inl hR
    · exact .inr hS
  · rintro (hR | hS)
    · exact .inl hR
    · exact .inr ⟨fun b t r' he hR => hne b t r' a s r hR hS he.symm, hS⟩

theorem Reads.accept (hp : p.Reads R) (f : α → Option β) (e : Expected) :
    (p.accept f e).Reads fun b s r => ∃ a, f a = some b ∧ R a s r := by
  intro c b c'
  simp only [Parser.accept]
  rcases h : (p.run c).outcome with _ | ⟨a, d⟩
  · have hs := (hp.outcome_eq_none c).1 h
    constructor
    · rintro ⟨⟩
    · rintro ⟨s, hc, a, -, hR⟩
      exact absurd hR (hs a s c'.rest hc.1)
  · obtain ⟨t, hd, hR⟩ := (hp c a d).1 h
    constructor
    · intro hr
      rcases hf : f a with _ | b'
      · simp [hf] at hr
      · simp only [hf, Option.some.injEq, Prod.mk.injEq] at hr
        obtain ⟨rfl, rfl⟩ := hr
        exact ⟨t, hd, a, hf, hR⟩
    · rintro ⟨s, hc, a', hf, hR'⟩
      have := (hp c a' c').2 ⟨s, hc, hR'⟩
      rw [h] at this
      obtain ⟨rfl, rfl⟩ := Prod.mk.inj (Option.some.inj this)
      simp [hf]

theorem reads_guard (b : Prop) [Decidable b] :
    (guard b : Parser Unit).Reads fun _ s _ => b ∧ s = [] := by
  unfold guard
  split
  · next hb => exact (reads_pure ()).congr fun _ _ _ => by simp [hb]
  · next hb =>
    intro c a c'
    constructor
    · rintro ⟨⟩
    · rintro ⟨_, _, h, _⟩
      exact absurd h hb

/-! ## Characters -/

theorem strip?_append (t r : List Char) (o : Nat) :
    Cursor.strip? t ⟨o, t ++ r⟩ = some ⟨o + Cursor.utf8Length t, r⟩ := by
  induction t generalizing o with
  | nil => simp [Cursor.strip?, Cursor.utf8Length]
  | cons x t ih =>
    rw [List.cons_append, Cursor.strip?, if_pos rfl, ih, Cursor.utf8Length, Nat.add_assoc]

theorem reads_token (text : String) : (token text).Reads fun _ s _ => s = text.toList := by
  intro c _ c'
  simp only [token]
  constructor
  · intro h
    split at h
    · next d hd =>
      cases h
      exact ⟨_, Cursor.behind_of_strip? hd, rfl⟩
    · cases h
  · rintro ⟨_, ⟨h1, h2⟩, rfl⟩
    obtain ⟨o, l⟩ := c
    simp only at h1 h2
    rw [h1, strip?_append, ← h2]

theorem reads_charWhere (f : Char → Bool) (e : Expected) :
    (charWhere f e).Reads fun x s _ => s = [x] ∧ f x := by
  rintro ⟨o, _ | ⟨x, xs⟩⟩ y c'
  · constructor
    · rintro ⟨⟩
    · rintro ⟨_, ⟨h, -⟩, rfl, -⟩
      cases h
  · simp only [charWhere]
    constructor
    · intro h
      split at h
      · next hx =>
        cases h
        exact ⟨[x], Cursor.Behind.cons (.refl _), rfl, hx⟩
      · cases h
    · rintro ⟨_, ⟨h1, h2⟩, rfl, hy⟩
      simp only [List.cons_append, List.nil_append, List.cons.injEq] at h1
      obtain ⟨rfl, rfl⟩ := h1
      rw [if_pos hy]
      simp only [Cursor.utf8Length, Nat.add_zero] at h2
      rw [← h2]

theorem skipWhile_append {f : Char → Bool} {s r : List Char} (hs : ∀ x ∈ s, f x)
    (hr : ∀ x ∈ r.head?, f x = false) (o : Nat) :
    Cursor.skipWhile f o (s ++ r) = ⟨o + Cursor.utf8Length s, r⟩ := by
  induction s generalizing o with
  | nil =>
    rcases r with _ | ⟨x, xs⟩
    · rfl
    · rw [List.nil_append, Cursor.skipWhile, if_neg (by simp [hr x rfl])]
      rfl
  | cons x s ih =>
    rw [List.cons_append, Cursor.skipWhile, if_pos (hs x List.mem_cons_self),
      ih fun y hy => hs y (List.mem_cons_of_mem x hy), Cursor.utf8Length, Nat.add_assoc]

theorem head?_rest_skipWhile (f : Char → Bool) (o : Nat) (l : List Char) :
    ∀ x ∈ (Cursor.skipWhile f o l).rest.head?, f x = false := by
  induction l generalizing o with
  | nil => rintro x ⟨⟩
  | cons y l ih =>
    rw [Cursor.skipWhile]
    split
    · exact ih _
    · next hy =>
      rintro x ⟨⟩
      simpa using hy

theorem reads_skipWhile (f : Char → Bool) :
    (skipWhile f).Reads fun _ s r => (∀ x ∈ s, f x) ∧ ∀ x ∈ r.head?, f x = false := by
  intro c _ c'
  constructor
  · rintro ⟨⟩
    exact ⟨_, Cursor.behind_skipWhile f c.offset c.rest, fun x => List.mem_takeWhile_imp,
      head?_rest_skipWhile f c.offset c.rest⟩
  · rintro ⟨s, ⟨h1, h2⟩, hs, hr⟩
    simp only [skipWhile, h1, skipWhile_append hs hr, ← h2]

/-! ## Repetition -/

theorem outcome_upTo_ne_none (p : Parser α) (n : Nat) (c : Cursor) :
    ((p.upTo n).run c).outcome ≠ none := by
  cases n with
  | zero => simp [Parser.upTo]
  | succ n =>
    rw [Parser.upTo, run_orElse]
    split
    · next h => simp [h]
    · simp

theorem Reads.upTo (hp : p.Reads R) (n : Nat) :
    (p.upTo n).Reads fun as s r => Each R as s r ∧ as.length ≤ n ∧ (as.length < n → Stuck R r) := by
  induction n with
  | zero =>
    refine (reads_pure []).congr fun as s r => ?_
    constructor
    · rintro ⟨rfl, rfl⟩
      exact ⟨.nil, Nat.le_refl _, fun h => absurd h (Nat.lt_irrefl _)⟩
    · rintro ⟨h, hl, -⟩
      cases h with
      | nil => exact ⟨rfl, rfl⟩
      | cons => simp at hl
  | succ n ih =>
    refine ((hp.bind fun a => ih.bind fun as => reads_pure (a :: as)).orElse (reads_pure [])).congr
      fun as s r => ?_
    constructor
    · rintro (⟨a, s, _, rfl, hR, as, t, _, rfl, ⟨he, hl, hs⟩, rfl, rfl⟩ | ⟨hs, rfl, rfl⟩)
      · simp only [List.append_nil] at hR
        refine ⟨.cons (by simpa using hR) (by simpa using he), by simpa using hl, fun h => ?_⟩
        exact hs (by simpa using h)
      · refine ⟨.nil, Nat.zero_le _, fun _ a s r' hl hR => ?_⟩
        -- the rest of the rounds cannot fail, so a first round would have been read
        obtain ⟨as, t, r'', rfl, hU⟩ := ih.exists_of_ne_none (outcome_upTo_ne_none p n ⟨0, r'⟩)
        exact hs _ (s ++ t) r'' (by simpa using hl) ⟨a, s, t, rfl, hR, as, t, [], by simp,
          by simpa using hU, rfl, rfl⟩
    · rintro ⟨he, hl, hs⟩
      cases he with
      | nil =>
        refine .inr ⟨?_, rfl, rfl⟩
        rintro _ _ r' hl ⟨a, s, t, rfl, hR, -⟩
        exact hs (Nat.succ_pos n) a s (t ++ r') (by simpa using hl) hR
      | @cons a as s t _ hR he =>
        refine .inl ⟨a, s, t, rfl, hR, as, t, [], by simp, ⟨by simpa using he, ?_, fun h => ?_⟩, rfl, rfl⟩
        · simpa using hl
        · exact hs (by simpa using h)

theorem Reads.many (hp : p.Reads R) (ha : p.Advances) :
    p.many.Reads fun as s r => Each R as s r ∧ Stuck R r := by
  intro c as c'
  induction hn : c.rest.length using Nat.strongRecOn generalizing c as with
  | _ n ih =>
    subst hn
    rw [many_eq ha c]
    rcases h : (p.run c).outcome with _ | ⟨a, d⟩
    · have hs := (hp.outcome_eq_none c).1 h
      constructor
      · rintro ⟨⟩
        exact ⟨[], .refl _, .nil, hs⟩
      · rintro ⟨s, hc, he, -⟩
        cases he with
        | nil => rw [Cursor.behind_nil_iff.1 hc]
        | cons hR _ => exact absurd hR (hs _ _ _ (by simpa using hc.1))
    · have hih := fun as => ih _ (ha.length_lt h) d as rfl
      obtain ⟨t, hd, hR⟩ := (hp c a d).1 h
      constructor
      · intro hr
        simp only [Option.map_eq_some_iff, Prod.mk.injEq] at hr
        obtain ⟨⟨as, _⟩, hr, rfl, rfl⟩ := hr
        obtain ⟨u, hu, he, hs⟩ := (hih as).1 hr
        exact ⟨t ++ u, hd.trans hu, .cons (hu.1 ▸ hR) he, hs⟩
      · rintro ⟨s, hc, he, hs⟩
        cases he with
        | nil =>
          rw [← Cursor.behind_nil_iff.1 hc] at hd
          exact absurd hR (hs _ _ _ hd.1)
        | cons hR' he =>
          obtain ⟨d', hd', hu⟩ := Cursor.behind_append_iff.1 hc
          have := (hp c _ d').2 ⟨_, hd', hu.1 ▸ hR'⟩
          rw [h] at this
          obtain ⟨rfl, rfl⟩ := Prod.mk.inj (Option.some.inj this)
          show (p.many.run d).outcome.map _ = _
          rw [(hih _).2 ⟨_, hu, he, hs⟩]
          rfl

end Parser
end RegexNotation
