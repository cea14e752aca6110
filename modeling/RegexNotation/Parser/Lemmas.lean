/-
  How parsers run.

  * `run_pure`, `run_bind`, `run_orElse` and the like say what a run of each combinator is;
  * `Consumes` and `Advances` hold of the parsers that stop behind some text, and behind at least one
    character; sequence, choice and repetition keep them;
  * `many_eq` unfolds `many` once, for a parser that advances: the room that `manyFrom` counts down never runs
    out.
-/
import RegexNotation.Parser.Basic

namespace RegexNotation

namespace Cursor

/-- The number of bytes of a text in UTF-8. -/
def utf8Length : List Char → Nat
  | [] => 0
  | c :: s => c.utf8Size + utf8Length s

theorem utf8Length_append (s t : List Char) : utf8Length (s ++ t) = utf8Length s + utf8Length t := by
  induction s with
  | nil => exact (Nat.zero_add _).symm
  | cons c s ih => rw [List.cons_append, utf8Length, utf8Length, ih, Nat.add_assoc]

/-- The place `c'` is the one behind the text `s`, read from `c`. -/
def Behind (c : Cursor) (s : List Char) (c' : Cursor) : Prop :=
  c.rest = s ++ c'.rest ∧ c'.offset = c.offset + utf8Length s

theorem Behind.refl (c : Cursor) : c.Behind [] c := ⟨rfl, rfl⟩

theorem Behind.trans {c c' c'' : Cursor} {s t : List Char} (h : c.Behind s c') (h' : c'.Behind t c'') :
    c.Behind (s ++ t) c'' :=
  ⟨by rw [h.1, h'.1, List.append_assoc], by rw [h'.2, h.2, utf8Length_append, Nat.add_assoc]⟩

theorem Behind.cons {o : Nat} {x : Char} {xs s : List Char} {c' : Cursor}
    (h : Behind ⟨o + x.utf8Size, xs⟩ s c') : Behind ⟨o, x :: xs⟩ (x :: s) c' :=
  ⟨congrArg (x :: ·) h.1, by rw [h.2, utf8Length, Nat.add_assoc]⟩

theorem behind_of_strip? {t : List Char} {c c' : Cursor} (h : c.strip? t = some c') :
    c.Behind t c' := by
  induction t generalizing c with
  | nil => obtain rfl := Option.some.inj h; exact .refl c
  | cons x t ih =>
    obtain ⟨o, _ | ⟨y, ys⟩⟩ := c
    · cases h
    · rw [strip?] at h
      split at h
      · next hxy => subst hxy; exact (ih h).cons
      · cases h

theorem behind_skipWhile (p : Char → Bool) (o : Nat) (l : List Char) :
    Behind ⟨o, l⟩ (l.takeWhile p) (skipWhile p o l) := by
  induction l generalizing o with
  | nil => exact .refl _
  | cons x xs ih =>
    rw [skipWhile, List.takeWhile_cons]
    split
    · exact (ih _).cons
    · exact .refl _

end Cursor

namespace Parser

variable {α β : Type}

/-! ## Runs -/

@[simp] theorem run_pure (a : α) (c : Cursor) :
    (pure a : Parser α).run c = ⟨some (a, c), .none⟩ := rfl

theorem run_bind (p : Parser α) (f : α → Parser β) (c : Cursor) :
    (p >>= f).run c = match (p.run c).outcome with
      | none => ⟨none, (p.run c).misses⟩
      | some (a, c') => ⟨((f a).run c').outcome, (p.run c).misses.join ((f a).run c').misses⟩ := rfl

theorem run_map (g : α → β) (p : Parser α) (c : Cursor) :
    (g <$> p).run c = ⟨(p.run c).outcome.map fun (a, c') => (g a, c'), (p.run c).misses⟩ := by
  show (p >>= fun a => pure (g a)).run c = _
  rw [run_bind]
  rcases (p.run c).outcome with _ | ⟨a, c'⟩
  · rfl
  · simp [Misses.join_none]

theorem run_orElse (p q : Parser α) (c : Cursor) :
    (p <|> q).run c = match (p.run c).outcome with
      | some _ => p.run c
      | none => ⟨(q.run c).outcome, (p.run c).misses.join (q.run c).misses⟩ := rfl

section
variable {p q : Parser α} {f : α → Parser β} {c c' : Cursor} {a : α} {m : Misses}

theorem run_bind_of_eq_some (h : p.run c = ⟨some (a, c'), m⟩) :
    (p >>= f).run c = ⟨((f a).run c').outcome, m.join ((f a).run c').misses⟩ := by
  rw [run_bind, h]

theorem run_bind_of_eq_none (h : p.run c = ⟨none, m⟩) : (p >>= f).run c = ⟨none, m⟩ := by
  rw [run_bind, h]

theorem run_orElse_of_eq_some (h : p.run c = ⟨some (a, c'), m⟩) : (p <|> q).run c = ⟨some (a, c'), m⟩ := by
  rw [run_orElse, h]

theorem run_orElse_of_eq_none (h : p.run c = ⟨none, m⟩) :
    (p <|> q).run c = ⟨(q.run c).outcome, m.join (q.run c).misses⟩ := by
  rw [run_orElse, h]

theorem run_map_of_eq_some (g : α → β) (h : p.run c = ⟨some (a, c'), m⟩) : (g <$> p).run c = ⟨some (g a, c'), m⟩ := by
  rw [run_map, h]
  rfl

theorem run_map_of_eq_none (g : α → β) (h : p.run c = ⟨none, m⟩) : (g <$> p).run c = ⟨none, m⟩ := by
  rw [run_map, h]
  rfl

end

@[simp] theorem run_failure (c : Cursor) : (failure : Parser α).run c = ⟨none, .none⟩ := rfl

@[simp] theorem run_miss (e : Expected) (c : Cursor) :
    (miss e : Parser α).run c = ⟨none, ⟨c.offset, [e]⟩⟩ := rfl

theorem run_token_of_eq_some {t : String} {c c' : Cursor} (h : c.strip? t.toList = some c') :
    (token t).run c = ⟨some ((), c'), .none⟩ := by
  simp only [token, h]

theorem run_token_of_eq_none {t : String} {c : Cursor} (h : c.strip? t.toList = none) :
    (token t).run c = ⟨none, ⟨c.offset, [.token t]⟩⟩ := by
  simp only [token, h, run_miss]

/-! ## Laws -/

theorem ext {p q : Parser α} (h : ∀ c, p.run c = q.run c) : p = q := congrArg Parser.mk (funext h)

theorem id_map (p : Parser α) : id <$> p = p :=
  ext fun c => by
    rw [run_map]
    rcases p.run c with ⟨_ | ⟨a, c'⟩, m⟩ <;> rfl

theorem map_orElse (g : α → β) (p q : Parser α) : g <$> (p <|> q) = (g <$> p <|> g <$> q) :=
  ext fun c => by
    rcases hp : p.run c with ⟨_ | ⟨a, c'⟩, m⟩
    · rw [run_map, run_orElse_of_eq_none hp, run_orElse_of_eq_none (run_map_of_eq_none g hp), run_map]
    · rw [run_map_of_eq_some g (run_orElse_of_eq_some hp), run_orElse_of_eq_some (run_map_of_eq_some g hp)]

theorem orElse_assoc (p q r : Parser α) : ((p <|> q) <|> r) = (p <|> (q <|> r)) :=
  ext fun c => by
    rcases hp : p.run c with ⟨_ | ⟨a, c'⟩, m⟩
    · rcases hq : q.run c with ⟨_ | ⟨a, c'⟩, m'⟩ <;> simp [run_orElse, hp, hq, Misses.join_assoc]
    · simp [run_orElse, hp]

theorem map_token (g : α → β) (t : String) (a : α) :
    g <$> (do token t; return a : Parser α) = (do token t; return g a) :=
  ext fun c => by
    rcases h : c.strip? t.toList with _ | c'
    · have hp := run_token_of_eq_none h
      rw [run_map_of_eq_none g (run_bind_of_eq_none hp), run_bind_of_eq_none hp]
    · have hp := run_token_of_eq_some h
      rw [run_map, run_bind_of_eq_some hp, run_bind_of_eq_some hp]
      rfl

/-! ## Moving forward -/

/-- Whenever the parser succeeds, it stops behind some text. -/
def Consumes (p : Parser α) : Prop :=
  ∀ c a c', (p.run c).outcome = some (a, c') → ∃ s, c.Behind s c'

/-- Whenever the parser succeeds, it stops behind at least one character. -/
def Advances (p : Parser α) : Prop :=
  ∀ c a c', (p.run c).outcome = some (a, c') → ∃ x s, c.Behind (x :: s) c'

theorem Advances.consumes {p : Parser α} (h : p.Advances) : p.Consumes := fun c a c' hr =>
  let ⟨x, s, hs⟩ := h c a c' hr
  ⟨x :: s, hs⟩

theorem Advances.length_lt {p : Parser α} (h : p.Advances) {c c' : Cursor} {a : α}
    (hr : (p.run c).outcome = some (a, c')) : c'.rest.length < c.rest.length := by
  obtain ⟨x, s, hs, _⟩ := h c a c' hr
  rw [hs]
  simp only [List.cons_append, List.length_cons, List.length_append]
  omega

theorem consumes_pure (a : α) : (pure a : Parser α).Consumes := by
  rintro c _ _ ⟨⟩
  exact ⟨[], .refl c⟩

theorem advances_failure : (failure : Parser α).Advances := by rintro _ _ _ ⟨⟩

theorem advances_miss (e : Expected) : (miss e : Parser α).Advances := by rintro _ _ _ ⟨⟩

/-- A sequence succeeds with the second part, run where the first one stopped. -/
theorem outcome_bind {p : Parser α} {f : α → Parser β} {c c'' : Cursor} {b : β}
    (h : ((p >>= f).run c).outcome = some (b, c'')) :
    ∃ a c', (p.run c).outcome = some (a, c') ∧ ((f a).run c').outcome = some (b, c'') := by
  rw [run_bind] at h
  split at h
  · cases h
  · next a c' hp => exact ⟨a, c', hp, h⟩

theorem Consumes.bind {p : Parser α} {f : α → Parser β} (hp : p.Consumes)
    (hf : ∀ a, (f a).Consumes) : (p >>= f).Consumes := by
  intro c b c'' h
  obtain ⟨a, c', h1, h2⟩ := outcome_bind h
  obtain ⟨s, hs⟩ := hp _ _ _ h1
  obtain ⟨t, ht⟩ := hf _ _ _ _ h2
  exact ⟨s ++ t, hs.trans ht⟩

/-- A sequence advances if its first part does. -/
theorem Advances.bind {p : Parser α} {f : α → Parser β} (hp : p.Advances)
    (hf : ∀ a, (f a).Consumes) : (p >>= f).Advances := by
  intro c b c'' h
  obtain ⟨a, c', h1, h2⟩ := outcome_bind h
  obtain ⟨x, s, hs⟩ := hp _ _ _ h1
  obtain ⟨t, ht⟩ := hf _ _ _ _ h2
  exact ⟨x, s ++ t, hs.trans ht⟩

theorem Consumes.map {p : Parser α} (hp : p.Consumes) (g : α → β) : (g <$> p).Consumes :=
  hp.bind fun a => consumes_pure (g a)

theorem Advances.map {p : Parser α} (hp : p.Advances) (g : α → β) : (g <$> p).Advances :=
  hp.bind fun a => consumes_pure (g a)

theorem Consumes.orElse {p q : Parser α} (hp : p.Consumes) (hq : q.Consumes) :
    (p <|> q).Consumes := by
  intro c a c' h
  rw [run_orElse] at h
  split at h
  · exact hp c a c' h
  · exact hq c a c' h

theorem Advances.orElse {p q : Parser α} (hp : p.Advances) (hq : q.Advances) :
    (p <|> q).Advances := by
  intro c a c' h
  rw [run_orElse] at h
  split at h
  · exact hp c a c' h
  · exact hq c a c' h

theorem consumes_guard (b : Prop) [Decidable b] : (guard b : Parser Unit).Consumes := by
  unfold guard
  split
  · exact consumes_pure ()
  · exact advances_failure.consumes

theorem Advances.accept {p : Parser α} (hp : p.Advances) (f : α → Option β) (e : Expected) :
    (p.accept f e).Advances := by
  intro c b c' h
  simp only [Parser.accept] at h
  split at h
  · cases h
  · next a c'' hr =>
    split at h
    · cases h
      exact hp c a c' hr
    · cases h

theorem advances_token {text : String} (ht : text.toList ≠ []) : (token text).Advances := by
  intro c a c' h
  simp only [token] at h
  split at h
  · next c'' hs =>
    cases h
    obtain ⟨x, s, hx⟩ := List.exists_cons_of_ne_nil ht
    exact ⟨x, s, hx ▸ Cursor.behind_of_strip? hs⟩
  · cases h

theorem advances_charWhere (p : Char → Bool) (e : Expected) : (charWhere p e).Advances := by
  rintro ⟨o, _ | ⟨x, xs⟩⟩ a c' h
  · cases h
  · simp only [charWhere] at h
    split at h
    · cases h
      exact ⟨x, [], Cursor.Behind.cons (.refl _)⟩
    · cases h

theorem consumes_skipWhile (p : Char → Bool) : (skipWhile p).Consumes := by
  rintro c _ _ ⟨⟩
  exact ⟨_, Cursor.behind_skipWhile p c.offset c.rest⟩

/-! ## Repetition -/

theorem Advances.upTo {p : Parser α} (hp : p.Advances) : ∀ n, (p.upTo n).Consumes
  | 0 => consumes_pure []
  | n + 1 =>
    .orElse (hp.consumes.bind fun a => (hp.upTo n).bind fun as => consumes_pure (a :: as))
      (consumes_pure [])

/-- The values and misses of the rounds before come in front, however much room there is. -/
theorem manyFrom_eq {p : Parser α} (hp : p.Advances) (done : List α) (m : Misses)
    (room room' : List Char) (c : Cursor) (hc : c.rest.length ≤ room.length)
    (hc' : c.rest.length ≤ room'.length) :
    manyFrom p done m room c =
      ⟨(manyFrom p [] .none room' c).outcome.map fun (as, c') => (done.reverse ++ as, c'),
        m.join (manyFrom p [] .none room' c).misses⟩ := by
  induction hn : c.rest.length using Nat.strongRecOn generalizing done m room room' c with
  | _ n ih =>
    subst hn
    rcases h : (p.run c).outcome with _ | ⟨a, c'⟩
    · unfold manyFrom
      simp [h, Misses.none_join]
    · have hlt := hp.length_lt h
      obtain ⟨x, room, rfl⟩ := List.exists_cons_of_length_pos (Nat.lt_of_lt_of_le (by omega) hc)
      obtain ⟨y, room', rfl⟩ := List.exists_cons_of_length_pos (Nat.lt_of_lt_of_le (by omega) hc')
      simp only [List.length_cons] at hc hc'
      rw [manyFrom, manyFrom]
      simp only [h]
      rw [ih _ hlt (a :: done) _ room room' c' (by omega) (by omega) rfl,
        ih _ hlt [a] _ room' room' c' (by omega) (by omega) rfl]
      simp [Misses.none_join, Misses.join_assoc, Function.comp_def]

theorem many_eq {p : Parser α} (hp : p.Advances) (c : Cursor) :
    p.many.run c = match (p.run c).outcome with
      | none => ⟨some ([], c), (p.run c).misses⟩
      | some (a, c') =>
        ⟨(p.many.run c').outcome.map fun (as, c'') => (a :: as, c''),
          (p.run c).misses.join (p.many.run c').misses⟩ := by
  rcases h : (p.run c).outcome with _ | ⟨a, c'⟩
  · simp only [many]
    unfold manyFrom
    simp [h, Misses.none_join]
  · have hlt := hp.length_lt h
    rcases hr : c.rest with _ | ⟨x, xs⟩
    · simp [hr] at hlt
    · simp only [many, hr]
      rw [manyFrom]
      simp only [h]
      rw [manyFrom_eq hp [a] _ xs c'.rest c' (by simp [hr] at hlt; omega) (Nat.le_refl _)]
      simp [Misses.none_join]

/-- Repetition never fails, and stops where one more round would. -/
theorem outcome_many {p : Parser α} (hp : p.Advances) (c : Cursor) :
    ∃ as c', (p.many.run c).outcome = some (as, c') ∧ (p.run c').outcome = none ∧
      ∃ s, c.Behind s c' := by
  induction hn : c.rest.length using Nat.strongRecOn generalizing c with
  | _ n ih =>
    subst hn
    rw [many_eq hp c]
    rcases h : (p.run c).outcome with _ | ⟨a, c'⟩
    · exact ⟨[], c, rfl, h, [], .refl c⟩
    · obtain ⟨as, c'', h1, h2, s, hs⟩ := ih _ (hp.length_lt h) c' rfl
      obtain ⟨x, t, ht⟩ := hp c a c' h
      exact ⟨a :: as, c'', by simp [h1], h2, x :: t ++ s, ht.trans hs⟩

theorem Advances.many {p : Parser α} (hp : p.Advances) : p.many.Consumes := by
  intro c as c' h
  obtain ⟨as', c'', h', _, hs⟩ := outcome_many hp c
  rw [h] at h'
  cases h'
  exact hs

end Parser
end RegexNotation
