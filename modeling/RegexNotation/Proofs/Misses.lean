/-
  What runs leave behind as missed.

  * `p.Blames`: a run that fails has missed something where it began, or further on;
  * `p.Reaches`: a run that succeeds has missed something where it stopped, or further on: it stopped because it
    could not go on;
  * `p.Wants W`: whatever a run has missed, it was `e` behind a text `s` with `W s e`.

  A pattern blames and reaches, so the place of an error is always that of the furthest miss
  (`reaches_pattern`).
-/
import RegexNotation.Proofs.Words

namespace RegexNotation

/-! ## Joined misses -/

/-- All misses, with their place, satisfy `Φ`; there are some unless nothing was ever missed. -/
def Misses.All (m : Misses) (Φ : Nat → Expected → Prop) : Prop :=
  (m.wanted = [] → m.offset = 0) ∧ ∀ e ∈ m.wanted, Φ m.offset e

namespace Misses

variable {a b : Misses} {Φ Ψ : Nat → Expected → Prop}

theorem all_none : none.All Φ := ⟨fun _ => rfl, by rintro e ⟨⟩⟩

theorem All.mono (h : a.All Φ) (hΨ : ∀ o e, Φ o e → Ψ o e) : a.All Ψ :=
  ⟨h.1, fun e he => hΨ _ e (h.2 e he)⟩

theorem All.join (ha : a.All Φ) (hb : b.All Φ) : (a.join b).All Φ := by
  unfold Misses.join
  split
  · exact hb
  split
  · exact ha
  · next h1 h2 =>
    have ho : a.offset = b.offset := by omega
    refine ⟨fun h => ha.1 (List.append_eq_nil_iff.1 h).1, fun e he => ?_⟩
    rcases List.mem_append.1 he with he | he
    · exact ha.2 e he
    · have := hb.2 e he
      rwa [← ho] at this

theorem le_offset_join_left (a b : Misses) : a.offset ≤ (a.join b).offset := by
  rw [offset_join]
  exact Nat.le_max_left ..

theorem le_offset_join_right (a b : Misses) : b.offset ≤ (a.join b).offset := by
  rw [offset_join]
  exact Nat.le_max_right ..

end Misses

/-- The same reading with the values that `f` makes of those it accepts, and no others. -/
def Reading.filterMap {α β : Type} (r : Reading α) (f : α → Option β) : Reading β :=
  ⟨r.outcome.bind fun x => (f x.1).map (·, x.2), r.misses⟩

namespace Cursor

theorem Behind.le {c c' : Cursor} {s : List Char} (h : c.Behind s c') : c.offset ≤ c'.offset := by
  rw [h.2]
  exact Nat.le_add_right ..

theorem Behind.lt {c c' : Cursor} {x : Char} {s : List Char} (h : c.Behind (x :: s) c') :
    c.offset < c'.offset := by
  have := x.utf8Size_pos
  rw [h.2, utf8Length]
  omega

end Cursor

namespace Parser

open Computability

variable {α β : Type} {p q : Parser α}

/-! ## Blame -/

/-- A run that fails has missed something where it began or further on. -/
def Blames (p : Parser α) : Prop := ∀ c, (p.run c).outcome = none → c.offset ≤ (p.run c).misses.offset

/-- A run that succeeds has missed something where it stopped or further on. -/
def Reaches (p : Parser α) : Prop :=
  ∀ c a c', (p.run c).outcome = some (a, c') → c'.offset ≤ (p.run c).misses.offset

/-- A run moves on, or it has missed something where it began or further on. -/
def Reports (p : Parser α) : Prop :=
  ∀ c, (∃ a c', (p.run c).outcome = some (a, c') ∧ c.offset < c'.offset) ∨ c.offset ≤ (p.run c).misses.offset

theorem Consumes.le (hp : p.Consumes) {c c' : Cursor} {a : α} (h : (p.run c).outcome = some (a, c')) :
    c.offset ≤ c'.offset := by
  obtain ⟨s, hs⟩ := hp c a c' h
  exact hs.le

theorem Advances.reports (ha : p.Advances) (hb : p.Blames) : p.Reports := by
  intro c
  rcases h : (p.run c).outcome with _ | ⟨a, c'⟩
  · exact .inr (hb c h)
  · obtain ⟨x, s, hs⟩ := ha c a c' h
    exact .inl ⟨a, c', rfl, hs.lt⟩

theorem Reports.bind {f : α → Parser β} (hp : p.Reports) (hb : ∀ a, (f a).Blames) (hc : ∀ a, (f a).Consumes) :
    (p >>= f).Reports := by
  intro c
  rw [run_bind]
  rcases hp c with ⟨a, d, ho, hlt⟩ | hle
  · simp only [ho]
    rcases ho' : ((f a).run d).outcome with _ | ⟨b, d'⟩
    · exact .inr (Nat.le_trans (Nat.le_of_lt hlt) (Nat.le_trans (hb a d ho') (Misses.le_offset_join_right ..)))
    · exact .inl ⟨b, d', rfl, Nat.lt_of_lt_of_le hlt ((hc a).le ho')⟩
  · rcases ho : (p.run c).outcome with _ | ⟨a, d⟩
    · exact .inr hle
    · exact .inr (Nat.le_trans hle (Misses.le_offset_join_left ..))

theorem Reports.orElse (hp : p.Reports) : (p <|> q).Reports := by
  intro c
  rw [run_orElse]
  rcases h : (p.run c).outcome with _ | ⟨a, c'⟩
  · rcases hp c with ⟨a, c', h', -⟩ | h'
    · rw [h] at h'
      cases h'
    · exact .inr (Nat.le_trans h' (Misses.le_offset_join_left ..))
  · simpa [h] using hp c

theorem blames_pure (a : α) : (pure a : Parser α).Blames := by rintro c ⟨⟩

theorem blames_miss (e : Expected) : (miss e : Parser α).Blames := fun _ _ => Nat.le_refl _

theorem blames_token (text : String) : (token text).Blames := by
  intro c h
  simp only [token] at h ⊢
  split
  · next hs => simp [hs] at h
  · exact Nat.le_refl _

theorem blames_charWhere (f : Char → Bool) (e : Expected) : (charWhere f e).Blames := by
  rintro ⟨o, _ | ⟨x, xs⟩⟩ h
  · exact Nat.le_refl _
  · simp only [charWhere] at h ⊢
    split
    · next hx => simp [hx] at h
    · exact Nat.le_refl _

theorem blames_skipWhile (f : Char → Bool) : (skipWhile f).Blames := by rintro c ⟨⟩

theorem Blames.bind {f : α → Parser β} (hp : p.Blames) (hc : p.Consumes) (hf : ∀ a, (f a).Blames) :
    (p >>= f).Blames := by
  intro c h
  rw [run_bind] at h ⊢
  rcases ho : (p.run c).outcome with _ | ⟨a, c'⟩
  · exact hp c ho
  · simp only [ho] at h ⊢
    exact Nat.le_trans (hc.le ho) (Nat.le_trans (hf a c' h) (Misses.le_offset_join_right ..))

theorem Blames.map (hp : p.Blames) (g : α → β) : (g <$> p).Blames := by
  intro c h
  rw [run_map] at h ⊢
  exact hp c (Option.map_eq_none_iff.1 h)

theorem Blames.orElse_left (hp : p.Blames) : (p <|> q).Blames := by
  intro c h
  rw [run_orElse] at h ⊢
  rcases ho : (p.run c).outcome with _ | ⟨a, c'⟩
  · exact Nat.le_trans (hp c ho) (Misses.le_offset_join_left ..)
  · simp only [ho] at h
    cases h

theorem Blames.orElse_right (hq : q.Blames) : (p <|> q).Blames := by
  intro c h
  rw [run_orElse] at h ⊢
  rcases ho : (p.run c).outcome with _ | ⟨a, c'⟩
  · simp only [ho] at h
    exact Nat.le_trans (hq c h) (Misses.le_offset_join_right ..)
  · simp only [ho] at h
    cases h

theorem Advances.blames_many (hp : p.Advances) : p.many.Blames := by
  intro c h
  obtain ⟨as, c', h', -⟩ := outcome_many hp c
  rw [h] at h'
  cases h'

theorem Reaches.bind {f : α → Parser β} (hf : ∀ a, (f a).Reaches) : (p >>= f).Reaches := by
  intro c b c'' h
  obtain ⟨a, c', h1, h2⟩ := outcome_bind h
  rw [run_bind, h1]
  exact Nat.le_trans (hf a c' b c'' h2) (Misses.le_offset_join_right ..)

theorem Reaches.map (hp : p.Reaches) (g : α → β) : (g <$> p).Reaches := by
  intro c b c' h
  rw [run_map] at h ⊢
  simp only [Option.map_eq_some_iff, Prod.mk.injEq] at h
  obtain ⟨⟨a, _⟩, h, -, rfl⟩ := h
  exact hp c a _ h

/-- A repetition stops where one more round fails. -/
theorem Advances.reaches_many (hp : p.Advances) (hb : p.Blames) : p.many.Reaches := by
  intro c as c' h
  induction hn : c.rest.length using Nat.strongRecOn generalizing c as with
  | _ n ih =>
    subst hn
    rw [many_eq hp c] at h ⊢
    rcases ho : (p.run c).outcome with _ | ⟨a, d⟩
    · simp only [ho, Option.some.injEq, Prod.mk.injEq] at h
      obtain ⟨-, rfl⟩ := h
      exact hb c ho
    · simp only [ho, Option.map_eq_some_iff, Prod.mk.injEq] at h
      obtain ⟨⟨as', _⟩, h, -, rfl⟩ := h
      exact Nat.le_trans (ih _ (hp.length_lt ho) d as' h rfl) (Misses.le_offset_join_right ..)

/-! ## More misses -/

theorem offset_misses_bind (p : Parser α) (f : α → Parser β) (c : Cursor) :
    (p.run c).misses.offset ≤ ((p >>= f).run c).misses.offset := by
  rw [run_bind]
  split
  · exact Nat.le_refl _
  · exact Misses.le_offset_join_left ..

theorem offset_misses_orElse (p q : Parser α) (c : Cursor) :
    (p.run c).misses.offset ≤ ((p <|> q).run c).misses.offset := by
  rw [run_orElse]
  split
  · exact Nat.le_refl _
  · exact Misses.le_offset_join_left ..

/-- A parser that blames and reaches always misses something. -/
theorem Blames.le_misses (hb : p.Blames) (hr : p.Reaches) (hc : p.Consumes) (c : Cursor) :
    c.offset ≤ (p.run c).misses.offset := by
  rcases ho : (p.run c).outcome with _ | ⟨a, d⟩
  · exact hb c ho
  · exact Nat.le_trans (hc.le ho) (hr c a d ho)

/-! ## What is wanted -/

/-- Whatever a run has missed, it was `e` behind a text `s` with `W s e`. -/
def Wants (p : Parser α) (W : List Char → Expected → Prop) : Prop :=
  ∀ c, (p.run c).misses.All fun o e => ∃ s c', c.Behind s c' ∧ o = c'.offset ∧ W s e

variable {W V : List Char → Expected → Prop} {L : Language Char}

theorem Wants.mono (hp : p.Wants W) (h : ∀ s e, W s e → V s e) : p.Wants V := fun c =>
  (hp c).mono fun _ _ ⟨s, c', hc, ho, hW⟩ => ⟨s, c', hc, ho, h _ _ hW⟩

theorem wants_pure (a : α) : (pure a : Parser α).Wants W := fun _ => Misses.all_none

theorem wants_skipWhile (f : Char → Bool) : (skipWhile f).Wants W := fun _ => Misses.all_none

theorem all_miss {c : Cursor} {e : Expected} (h : W [] e) :
    Misses.All ⟨c.offset, [e]⟩ fun o e => ∃ s c', c.Behind s c' ∧ o = c'.offset ∧ W s e := by
  refine ⟨by rintro ⟨⟩, ?_⟩
  intro e' he'
  rw [List.mem_singleton.1 he']
  exact ⟨[], c, .refl c, rfl, h⟩

theorem wants_miss {e : Expected} (h : W [] e) : (miss e : Parser α).Wants W := fun _ => all_miss h

theorem wants_token {text : String} (h : W [] (.token text)) : (token text).Wants W := by
  intro c
  simp only [token]
  split
  · exact Misses.all_none
  · exact all_miss h

theorem wants_charWhere {f : Char → Bool} {e : Expected} (h : W [] e) : (charWhere f e).Wants W := by
  rintro ⟨o, _ | ⟨x, xs⟩⟩
  · exact all_miss h
  · simp only [charWhere]
    split
    · exact Misses.all_none
    · exact all_miss h

/-- The second part of a sequence begins behind a text of the first. -/
theorem Wants.bind {f : α → Parser β} (hp : p.Wants W) (hy : p.Yields L) (hf : ∀ a, (f a).Wants V)
    (h : ∀ s ∈ L, ∀ t e, V t e → W (s ++ t) e) : (p >>= f).Wants W := by
  intro c
  rw [run_bind]
  rcases ho : (p.run c).outcome with _ | ⟨a, c'⟩
  · exact hp c
  · obtain ⟨s, hs, hc⟩ := hy c a c' ho
    refine (hp c).join ((hf a c').mono ?_)
    rintro _ e ⟨t, d, hd, rfl, hV⟩
    exact ⟨s ++ t, d, hc.trans hd, rfl, h s hs t e hV⟩

theorem Wants.map (hp : p.Wants W) (g : α → β) : (g <$> p).Wants W := by
  intro c
  rw [run_map]
  exact hp c

theorem Wants.orElse (hp : p.Wants W) (hq : q.Wants W) : (p <|> q).Wants W := by
  intro c
  rw [run_orElse]
  split
  · exact hp c
  · exact (hp c).join (hq c)

theorem Wants.many (hp : p.Wants W) (hy : p.Yields L) (ha : p.Advances)
    (h : ∀ s ∈ L, ∀ t e, W t e → W (s ++ t) e) : p.many.Wants W := by
  intro c
  induction hn : c.rest.length using Nat.strongRecOn generalizing c with
  | _ n ih =>
    subst hn
    rw [many_eq ha c]
    rcases ho : (p.run c).outcome with _ | ⟨a, d⟩
    · exact hp c
    · obtain ⟨s, hs, hc⟩ := hy c a d ho
      refine (hp c).join ((ih _ (ha.length_lt ho) d rfl).mono ?_)
      rintro _ e ⟨t, d', hd, rfl, hW⟩
      exact ⟨s ++ t, d', hc.trans hd, rfl, h s hs t e hW⟩

/-- What would have been the next of at most `n` characters of a kind. -/
theorem wants_upTo_charWhere (f : Char → Bool) (e : Expected) (n : Nat) :
    ((charWhere f e).upTo n).Wants fun s e' => e' = e ∧ s.length < n ∧ ∀ c ∈ s, f c := by
  induction n with
  | zero => exact wants_pure []
  | succ n ih =>
    have hend : ∀ a : Char, (do let as ← (charWhere f e).upTo n; pure (a :: as) : Parser (List Char)).Wants
        fun s e' => e' = e ∧ s.length < n ∧ ∀ c ∈ s, f c := fun a => ih.map (a :: ·)
    refine (Wants.bind ?_ (yields_charWhere f e) hend ?_).orElse (wants_pure [])
    · exact wants_charWhere ⟨rfl, Nat.succ_pos n, by rintro c ⟨⟩⟩
    · rintro _ ⟨x, hx, rfl⟩ t e' ⟨he, hl, ht⟩
      exact ⟨he, Nat.succ_lt_succ hl, List.forall_mem_cons.2 ⟨hx, ht⟩⟩

/-! ## Refused values -/

theorem run_hexDigits (lo hi : Nat) (c : Cursor) :
    (hexDigits lo hi).run c = (((charWhere Hex.isDigit .hexDigit).upTo hi).run c).filterMap fun ds =>
      if lo ≤ ds.length then some (.ofList ds) else none := by
  rw [hexDigits, run_bind, Reading.filterMap]
  rcases (((charWhere Hex.isDigit .hexDigit).upTo hi).run c).outcome with _ | ⟨ds, c'⟩
  · rfl
  · by_cases hl : lo ≤ ds.length <;> simp [run_bind, guard, hl, Misses.join_none]

/-- Fewer than `n` rounds stop where one more fails. -/
theorem Blames.length_upTo (hp : p.Blames) : ∀ (n : Nat) (c : Cursor) (as : List α) (c' : Cursor),
    ((p.upTo n).run c).outcome = some (as, c') → as.length = n ∨ c'.offset ≤ ((p.upTo n).run c).misses.offset
  | 0, c, as, c', h => by
    obtain ⟨rfl, rfl⟩ := Prod.mk.inj (Option.some.inj h)
    exact .inl rfl
  | n + 1, c, as, c', h => by
    rw [Parser.upTo, run_orElse] at h ⊢
    rcases ho : ((do let a ← p; let as ← p.upTo n; pure (a :: as) : Parser (List α)).run c).outcome with
      _ | ⟨bs, d⟩
    · simp only [ho, run_pure, Option.some.injEq, Prod.mk.injEq] at h ⊢
      obtain ⟨rfl, rfl⟩ := h
      refine .inr (Nat.le_trans ?_ (Misses.le_offset_join_left ..))
      rcases hp1 : (p.run c).outcome with _ | ⟨a, d⟩
      · rw [run_bind, hp1]
        exact hp c hp1
      · have hne := outcome_upTo_ne_none p n d
        simp only [run_bind, hp1] at ho
        rcases h2 : ((p.upTo n).run d).outcome with _ | ⟨bs, d'⟩
        · exact absurd h2 hne
        · simp [h2] at ho
    · simp only [ho, Option.some.injEq, Prod.mk.injEq] at h ⊢
      obtain ⟨rfl, rfl⟩ := h
      obtain ⟨a, d', h1, h2⟩ := outcome_bind ho
      obtain ⟨bs', d'', h3, h4⟩ := outcome_bind h2
      obtain ⟨rfl, rfl⟩ := Prod.mk.inj (Option.some.inj h4)
      rcases hp.length_upTo n d' bs' d'' h3 with hl | hl
      · exact .inl (congrArg (· + 1) hl)
      · refine .inr ?_
        rw [run_bind, h1]
        refine Nat.le_trans ?_ (Misses.le_offset_join_right ..)
        rw [run_bind, h3]
        exact Nat.le_trans hl (Misses.le_offset_join_left ..)

/-- A value that is refused changes nothing in what was missed: reading it has missed something further on. -/
theorem run_accept (ha : p.Advances) (hr : p.Reaches) (f : α → Option β) (e : Expected) (c : Cursor) :
    (p.accept f e).run c = (p.run c).filterMap f := by
  simp only [Parser.accept, Reading.filterMap]
  rcases ho : (p.run c).outcome with _ | ⟨a, c'⟩
  · rfl
  · rcases hf : f a with _ | b
    · obtain ⟨x, s, hs⟩ := ha c a c' ho
      have hlt : c.offset < (p.run c).misses.offset := Nat.lt_of_lt_of_le hs.lt (hr c a c' ho)
      simp [hf, Misses.join, hlt, Nat.not_lt.2 (Nat.le_of_lt hlt)]
    · simp [hf]

/-! ## The rules -/

theorem blames_hexDigits {lo hi : Nat} (h : lo ≤ hi) : (hexDigits lo hi).Blames := by
  intro c hn
  rw [run_hexDigits] at hn ⊢
  rcases ho : (((charWhere Hex.isDigit .hexDigit).upTo hi).run c).outcome with _ | ⟨ds, c'⟩
  · exact absurd ho (outcome_upTo_ne_none _ _ _)
  · have hc := ((advances_charWhere Hex.isDigit .hexDigit).upTo hi).le ho
    rcases (blames_charWhere _ _).length_upTo hi c ds c' ho with hl | hl
    · simp [Reading.filterMap, ho, hl, h] at hn
    · exact Nat.le_trans hc hl

theorem blames_digits : digits.Blames :=
  (blames_charWhere _ _).bind (advances_charWhere _ _).consumes fun _ =>
    (advances_charWhere _ _).blames_many.map _

theorem reaches_digits : digits.Reaches :=
  .bind fun d => ((advances_charWhere _ _).reaches_many (blames_charWhere _ _)).map (d :: ·)

theorem misses_bound (c : Cursor) : (bound.run c).misses = (digits.run c).misses :=
  congrArg Reading.misses (run_accept advances_digits reaches_digits _ _ c)

theorem blames_bound : bound.Blames := by
  intro c _
  rw [misses_bound]
  exact blames_digits.le_misses reaches_digits advances_digits.consumes c

section
variable {inside : Parser Regex}

theorem blames_concatenation (hc : inside.Consumes) : (concatenation inside).Blames :=
  (advances_repetition hc).blames_many.map _

theorem blames_bar (hc : inside.Consumes) : (do token "|"; concatenation inside : Parser Regex).Blames :=
  (blames_token "|").bind (reads_token _).consumes fun _ => blames_concatenation hc

theorem reaches_alternation (hc : inside.Consumes) : (alternation inside).Reaches :=
  .bind fun e => ((advances_bar hc).reaches_many (blames_bar hc)).map (Regex.choice e)

end

theorem reaches_inside : ∀ d, (Parser.inside d).Reaches
  | 0 => by rintro c a c' ⟨⟩
  | d + 1 => reaches_alternation (consumes_inside d)

theorem reaches_pattern : Parser.pattern.Reaches := reaches_alternation (consumes_inside _)

end Parser
end RegexNotation
