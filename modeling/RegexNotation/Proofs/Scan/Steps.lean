/-
  What a piece of a run does.

  * `State.Step` is all that a state does at once: the position moves, something is missed, or the depth changes.  After
    each step the trail begins with the position and the furthest miss (`State.Step.recorded`), and so it holds those
    of every state between the ends of a run (`State.Steps.mem_trail`);
  * `Gives` says of a program what it gives from a place of the text, where it stops and what it has missed by then;
    it composes as programs do (`Gives.bind`);
  * `Does` says that a program gives what is read at a place, or else nothing and stops at a given place; its rules
    are those by which the productions are put together;
  * `Follows` is the case that matters: whatever place a program begins at, it gives what a parser reads there, and
    is back at that place if this is nothing.  `Follows.exists_gives_loop` takes it through loops.
-/
import Mathlib.Logic.Relation
import RegexNotation.Proofs.Scan.Basic
import RegexNotation.Proofs.Overflows

namespace RegexNotation

open Cursor (utf8Length)

variable {text : List Char} {c c' : Cursor} {n : Nat}

/-! ## Places in a text -/

/-- The place is one of the text. -/
def Cursor.On (text : List Char) (c : Cursor) : Prop := ∃ x, Cursor.Behind ⟨0, text⟩ x c

theorem Cursor.On.behind {s : List Char} (h : c.On text) (hs : c.Behind s c') : c'.On text := by
  obtain ⟨x, hx⟩ := h
  exact ⟨x ++ s, hx.trans hs⟩

theorem Cursor.On.length_le (h : c.On text) : c.rest.length ≤ text.length := by
  obtain ⟨x, hx, -⟩ := h
  rw [show text = x ++ c.rest from hx, List.length_append]
  exact Nat.le_add_left ..

theorem tailAt?_eq_some_iff {r : List Char} : tailAt? n text = some r ↔ ∃ x, text = x ++ r ∧ n = utf8Length x := by
  constructor
  · intro h
    induction text generalizing n with
    | nil =>
      rcases n with _ | n
      · obtain rfl := Option.some.inj h
        exact ⟨[], rfl, rfl⟩
      · cases h
    | cons x l ih =>
      rcases n with _ | n
      · obtain rfl := Option.some.inj h
        exact ⟨[], rfl, rfl⟩
      · rw [tailAt?] at h
        split at h
        · next hle =>
          obtain ⟨y, rfl, hy⟩ := ih h
          refine ⟨x :: y, rfl, ?_⟩
          rw [utf8Length]
          omega
        · cases h
  · rintro ⟨x, rfl, rfl⟩
    induction x with
    | nil => cases r <;> rfl
    | cons x l ih =>
      have hpos := x.utf8Size_pos
      obtain ⟨k, hk⟩ : ∃ k, x.utf8Size + utf8Length l = k + 1 := ⟨_, (Nat.sub_add_cancel (by omega)).symm⟩
      rw [utf8Length, hk, List.cons_append, tailAt?, if_pos (by omega), ← hk, Nat.add_sub_cancel_left]
      exact ih

theorem Cursor.On.tailAt? (h : c.On text) : tailAt? c.offset text = some c.rest := by
  obtain ⟨x, hx, ho⟩ := h
  exact tailAt?_eq_some_iff.2 ⟨x, hx, by rw [ho, Nat.zero_add]⟩

/-- A character begins at the byte `n`, or the text ends there. -/
def Boundary (text : List Char) (n : Nat) : Prop := ∃ r, tailAt? n text = some r

theorem Cursor.On.boundary (h : c.On text) : Boundary text c.offset := ⟨c.rest, h.tailAt?⟩

namespace Scan

variable {α β : Type} {d : Nat} {m m' : Misses} {s s' s'' : State}

/-! ## States -/

namespace State

/-- The state is at the place `c` of the text, `d` groups deep. -/
structure At (text : List Char) (d : Nat) (c : Cursor) (s : State) : Prop where
  on : c.On text
  pos : s.pos = c.offset
  depth : s.depth = d

/-- A miss is further on than all before it, or at the furthest of them, or is not remembered. -/
theorem miss_cases (e : Expected) (s : State) :
    (s.furthest < s.pos ∧
      s.miss e = { s with furthest := s.pos, expected := [e], trail := (s.pos, s.pos) :: s.trail }) ∨
    (s.furthest = s.pos ∧ s.miss e = { s with expected := e.insert s.expected }) ∨
    (s.pos < s.furthest ∧ s.miss e = s) := by
  rcases Nat.lt_trichotomy s.furthest s.pos with hlt | heq | hlt
  · exact .inl ⟨hlt, by simp [miss, mark, hlt, Expected.insert]⟩
  · exact .inr (.inl ⟨heq, by simp [miss, heq]⟩)
  · exact .inr (.inr ⟨hlt, by simp [miss, Nat.not_lt.2 (Nat.le_of_lt hlt), Nat.ne_of_lt hlt]⟩)

theorem pos_miss (e : Expected) (s : State) : (s.miss e).pos = s.pos := by
  rcases s.miss_cases e with ⟨-, h⟩ | ⟨-, h⟩ | ⟨-, h⟩ <;> rw [h]

theorem depth_miss (e : Expected) (s : State) : (s.miss e).depth = s.depth := by
  rcases s.miss_cases e with ⟨-, h⟩ | ⟨-, h⟩ | ⟨-, h⟩ <;> rw [h]

/-- What `moveTo` and `fail` do to a state, and `deeper` on both sides of what it runs.  Nothing else changes one. -/
inductive Step : State → State → Prop
  | move (s : State) (n : Nat) : Step s { s with pos := n }.mark
  | miss (s : State) (e : Expected) : Step s (s.miss e)
  | nest (s : State) (d : Nat) : Step s { s with depth := d }

/-- Any number of steps. -/
def Steps : State → State → Prop := Relation.ReflTransGen Step

/-- The newest entry of the trail is the position and the furthest miss. -/
def Recorded (s : State) : Prop := s.trail.head? = some (s.pos, s.furthest)

theorem recorded_start : start.Recorded := rfl

/-- Each step is recorded. -/
theorem Step.recorded (h : Step s s') (hs : s.Recorded) : s'.Recorded := by
  cases h with
  | move n => rfl
  | miss e =>
    rcases s.miss_cases e with ⟨-, h⟩ | ⟨-, h⟩ | ⟨-, h⟩ <;> rw [h]
    · rfl
    · exact hs
    · exact hs
  | nest d => exact hs

theorem Step.trail_suffix (h : Step s s') : s.trail <:+ s'.trail := by
  cases h with
  | move n => exact List.suffix_cons ..
  | miss e =>
    rcases s.miss_cases e with ⟨-, h⟩ | ⟨-, h⟩ | ⟨-, h⟩ <;> rw [h]
    exact List.suffix_cons ..
  | nest d => exact List.suffix_refl _

theorem Steps.recorded (h : s.Steps s') (hs : s.Recorded) : s'.Recorded := by
  induction h with
  | refl => exact hs
  | tail _ hstep ih => exact hstep.recorded ih

theorem Steps.trail_suffix (h : s.Steps s') : s.trail <:+ s'.trail := by
  induction h with
  | refl => exact List.suffix_refl _
  | tail _ hstep ih => exact ih.trans hstep.trail_suffix

/-- **The trail holds every state on the way.** -/
theorem Steps.mem_trail (h : s.Steps s') (h' : s'.Steps s'') (hs : s.Recorded) :
    (s'.pos, s'.furthest) ∈ s''.trail :=
  h'.trail_suffix.subset (List.mem_of_mem_head? (h.recorded hs))

/-- What the state remembers. -/
def misses (s : State) : Misses := ⟨s.furthest, s.expected⟩

/-- A piece of a run from `s` to `s'` adds the misses `m`, and goes nowhere but to places of the text. -/
structure Adds (text : List Char) (s : State) (m : Misses) (s' : State) : Prop where
  steps : s.Steps s'
  furthest : s'.furthest = max s.furthest m.offset
  expected : ∀ e, e ∈ s'.expected ↔ e ∈ (s.misses.join m).wanted
  sorted : Expected.Sorted s.expected → Expected.Sorted s'.expected
  boundary : s'.furthest = s.furthest ∨ Boundary text s'.furthest
  trail : ∀ k ∈ s'.trail, k ∈ s.trail ∨ Boundary text k.1 ∧ (k.2 = s.furthest ∨ Boundary text k.2)

theorem Adds.offset_join (h : s.Adds text m s') : (s.misses.join m).offset = s'.furthest := by
  rw [Misses.offset_join, h.furthest]
  rfl

theorem Adds.refl (text : List Char) (s : State) : s.Adds text .none s where
  steps := .refl
  furthest := (Nat.max_eq_left (Nat.zero_le _)).symm
  expected e := by rw [Misses.join_none]; rfl
  sorted := id
  boundary := .inl rfl
  trail _ := .inl

theorem Adds.trans (h : s.Adds text m s') (h' : s'.Adds text m' s'') : s.Adds text (m.join m') s'' where
  steps := h.steps.trans h'.steps
  furthest := by rw [h'.furthest, h.furthest, Misses.offset_join, Nat.max_assoc]
  expected e := by
    rw [h'.expected, ← Misses.join_assoc, Misses.mem_wanted_join, Misses.mem_wanted_join, h.offset_join, ← h.expected]
    rfl
  sorted hs := h'.sorted (h.sorted hs)
  boundary := by
    rcases h'.boundary with h1 | h1
    · rw [h1]
      exact h.boundary
    · exact .inr h1
  trail k hk := by
    rcases h'.trail k hk with h1 | ⟨h1, h2⟩
    · exact h.trail k h1
    · refine .inr ⟨h1, ?_⟩
      rcases h2 with h2 | h2
      · rw [h2]
        exact h.boundary
      · exact .inr h2

end State

/-! ## Programs -/

/-- From the place `c`, `d` groups deep, the program gives `a`, stops at `c'`, and has missed `m`. -/
def Gives (text : List Char) (d : Nat) (p : Scan α) (c : Cursor) (a : α) (c' : Cursor) (m : Misses) : Prop :=
  ∀ s : State, s.At text d c → ∃ s', p text s = some (a, s') ∧ s'.At text d c' ∧ s.Adds text m s'

variable {p : Scan α} {f : α → Scan β} {a : α} {b : β} {c₁ c₂ : Cursor}

theorem gives_pure (a : α) (c : Cursor) : Gives text d (pure a) c a c .none := fun s hs =>
  ⟨s, rfl, hs, .refl text s⟩

theorem Gives.bind (h : Gives text d p c a c₁ m) (h' : c₁.On text → Gives text d (f a) c₁ b c₂ m') :
    Gives text d (p >>= f) c b c₂ (m.join m') := by
  intro s hs
  obtain ⟨s₁, h1, hat, hadds⟩ := h s hs
  obtain ⟨s₂, h2, hat', hadds'⟩ := h' hat.on s₁ hat
  refine ⟨s₂, ?_, hat', hadds.trans hadds'⟩
  show (p text s).bind _ = _
  rw [h1]
  exact h2

/-- A program stops at a place of the text. -/
theorem Gives.on (h : Gives text d p c a c' m) (hc : c.On text) : c'.On text := by
  obtain ⟨s', -, hat, -⟩ := h ⟨c.offset, d, 0, [], []⟩ ⟨hc, rfl, rfl⟩
  exact hat.on

/-- Nothing is missed in the first part. -/
theorem Gives.bind_none (h : Gives text d p c a c₁ .none) (h' : c₁.On text → Gives text d (f a) c₁ b c₂ m) :
    Gives text d (p >>= f) c b c₂ m := by
  have := h.bind h'
  rwa [Misses.none_join] at this

/-- Nothing is missed in the second part. -/
theorem Gives.bind_of_none (h : Gives text d p c a c₁ m) (h' : c₁.On text → Gives text d (f a) c₁ b c₂ .none) :
    Gives text d (p >>= f) c b c₂ m := by
  have := h.bind h'
  rwa [Misses.join_none] at this

theorem gives_position (c : Cursor) : Gives text d position c c.offset c .none := fun s hs =>
  ⟨s, by rw [← hs.pos]; rfl, hs, .refl text s⟩

theorem gives_depth (c : Cursor) : Gives text d depth c d c .none := fun s hs =>
  ⟨s, by rw [← hs.depth]; rfl, hs, .refl text s⟩

theorem gives_rest (c : Cursor) : Gives text d rest c c.rest c .none := fun s hs =>
  ⟨s, by rw [rest, hs.pos, hs.on.tailAt?]; rfl, hs, .refl text s⟩

theorem gives_peek (c : Cursor) : Gives text d peek c c.rest.head? c .none :=
  (gives_rest c).bind_none fun _ => gives_pure _ _

/-- Moving to a place of the text adds nothing but a mark. -/
theorem gives_moveTo (h : c'.On text) (c : Cursor) : Gives text d (moveTo c'.offset) c () c' .none := by
  intro s hs
  refine ⟨_, rfl, ⟨h, rfl, hs.depth⟩, ?_⟩
  have hr := State.Adds.refl text s
  refine ⟨.single (.move s _), hr.furthest, hr.expected, id, .inl rfl, ?_⟩
  rintro k (_ | ⟨_, hk⟩)
  · exact .inr ⟨h.boundary, .inl rfl⟩
  · exact .inl hk

theorem gives_moveBack (h : c'.On text) (c : Cursor) :
    Gives text d (do moveTo c'.offset; return none : Scan (Option α)) c none c' .none :=
  (gives_moveTo h c).bind_none fun _ => gives_pure none c'

theorem gives_advance {s : List Char} (h : c.Behind s c') : Gives text d (advance (utf8Length s)) c () c' .none :=
  (gives_position c).bind_none fun hc => by
    rw [← h.2]
    exact gives_moveTo (hc.behind h) c

/-- A miss is remembered unless it is behind the furthest one. -/
theorem State.At.adds_miss (h : s.At text d c) (e : Expected) : s.Adds text ⟨c.offset, [e]⟩ (s.miss e) := by
  rw [← h.pos]
  have hpos : Boundary text s.pos := by
    rw [h.pos]
    exact h.on.boundary
  have hsteps : s.Steps (s.miss e) := .single (.miss s e)
  rcases s.miss_cases e with ⟨hlt, hmiss⟩ | ⟨heq, hmiss⟩ | ⟨hlt, hmiss⟩ <;> rw [hmiss] at hsteps ⊢
  · refine ⟨hsteps, (Nat.max_eq_right (Nat.le_of_lt hlt)).symm, fun e' => ?_, fun _ => List.pairwise_singleton ..,
      .inr hpos, ?_⟩
    · rw [State.misses, Misses.join_of_lt hlt]
    · rintro k (_ | ⟨_, hk⟩)
      · exact .inr ⟨hpos, .inr hpos⟩
      · exact .inl hk
  · refine ⟨hsteps, ?_, fun e' => ?_, fun hs => Expected.sorted_insert hs e, .inl rfl, fun k hk => .inl hk⟩
    · exact (Nat.max_eq_left (Nat.le_of_eq heq.symm)).symm
    · rw [State.misses, Misses.mem_wanted_join]
      simp [Expected.mem_insert, heq, or_comm]
  · refine ⟨hsteps, (Nat.max_eq_left (Nat.le_of_lt hlt)).symm, fun e' => ?_, id, .inl rfl, fun k hk => .inl hk⟩
    rw [State.misses, Misses.join_of_gt hlt]

theorem gives_fail (e : Expected) (c : Cursor) : Gives text d (fail e) c () c ⟨c.offset, [e]⟩ := fun s hs =>
  ⟨_, rfl, ⟨hs.on, (s.pos_miss e).trans hs.pos, (s.depth_miss e).trans hs.depth⟩, hs.adds_miss e⟩

/-- One group deeper nothing else changes. -/
theorem gives_deeper (h : Gives text (d + 1) p c a c' m) : Gives text d (deeper p) c a c' m := by
  intro s hs
  obtain ⟨s', h1, hat, hadds⟩ := h { s with depth := s.depth + 1 } ⟨hs.on, hs.pos, congrArg (· + 1) hs.depth⟩
  refine ⟨{ s' with depth := s'.depth - 1 }, ?_, ⟨hat.on, hat.pos, ?_⟩,
    ⟨(hadds.steps.head (.nest s _)).tail (.nest s' _), hadds.furthest, hadds.expected, hadds.sorted, hadds.boundary,
      hadds.trail⟩⟩
  · rw [deeper, h1]
    rfl
  · show s'.depth - 1 = d
    rw [hat.depth, Nat.add_sub_cancel]

/-! ## Reading -/

/-- The program gives what has been read, or nothing, and stops at `back` if it is nothing. -/
def Does (text : List Char) (d : Nat) (p : Scan (Option α)) (c : Cursor) (r : Reading α) (back : Cursor) : Prop :=
  Gives text d p c (r.outcome.map Prod.fst) ((r.outcome.map Prod.snd).getD back) r.misses

/-- Wherever it begins, the program gives what the parser reads there, and is back there if this is nothing. -/
def Follows (text : List Char) (d : Nat) (p : Scan (Option α)) (q : Parser α) : Prop :=
  ∀ c, c.On text → Does text d p c (q.run c) c

/-- Wherever it begins, the program gives what the parser reads there, and is anywhere if this is nothing. -/
def Strays (text : List Char) (d : Nat) (p : Scan (Option α)) (q : Parser α) : Prop :=
  ∀ c, c.On text → ∃ back, Does text d p c (q.run c) back

/-- Wherever it begins, the program gives what the parser reads there, and this is never nothing. -/
def Always (text : List Char) (d : Nat) (p : Scan α) (q : Parser α) : Prop :=
  ∀ c, c.On text → ∃ a c' m, q.run c = ⟨some (a, c'), m⟩ ∧ Gives text d p c a c' m

theorem Follows.strays {p : Scan (Option α)} {q : Parser α} (h : Follows text d p q) : Strays text d p q :=
  fun c hc => ⟨c, h c hc⟩

theorem follows_eatIf (f : Char → Bool) (e : Expected) : Follows text d (eatIf f e) (.charWhere f e) := by
  rintro ⟨o, l⟩ -
  have hpeek : Gives text d peek ⟨o, l⟩ l.head? ⟨o, l⟩ .none := gives_peek _
  have hmiss (h : l.head?.filter f = none) : Gives text d (eatIf f e) ⟨o, l⟩ none ⟨o, l⟩ ⟨o, [e]⟩ :=
    hpeek.bind_none fun _ => by
      rw [h]
      exact (gives_fail e _).bind_of_none fun _ => gives_pure none _
  rcases l with _ | ⟨x, l⟩
  · exact hmiss rfl
  · by_cases hx : f x
    · simp only [Does, Parser.charWhere, hx, if_pos]
      refine hpeek.bind_none fun _ => ?_
      simp only [List.head?_cons, Option.filter_some, hx, if_pos]
      exact (gives_advance (s := [x]) (.cons (.refl _))).bind_none fun _ => gives_pure (some x) _
    · simp only [Does, Parser.charWhere, hx]
      exact hmiss (by simp [hx])

theorem isPrefixOf_eq_isSome_strip? (t : List Char) (c : Cursor) : t.isPrefixOf c.rest = (c.strip? t).isSome := by
  induction t generalizing c with
  | nil => rfl
  | cons x t ih =>
    obtain ⟨o, _ | ⟨y, l⟩⟩ := c
    · rfl
    · rw [Cursor.strip?, List.isPrefixOf_cons_cons, ih ⟨o + y.utf8Size, l⟩]
      by_cases hxy : x = y <;> simp [hxy]

theorem gives_eat_of_eq_some {t : String} (h : c.strip? t.toList = some c') : Gives text d (eat t) c true c' .none :=
  (gives_rest c).bind_none fun _ => by
    rw [isPrefixOf_eq_isSome_strip?, h]
    exact (gives_advance (Cursor.behind_of_strip? h)).bind_none fun _ => gives_pure true _

theorem gives_eat_of_eq_none {t : String} (h : c.strip? t.toList = none) :
    Gives text d (eat t) c false c ⟨c.offset, [.token t]⟩ :=
  (gives_rest c).bind_none fun _ => by
    rw [isPrefixOf_eq_isSome_strip?, h]
    exact (gives_fail _ c).bind_of_none fun _ => gives_pure false _

/-! ## Rules -/

section
variable {back : Cursor} {r : Reading α} {t : String}

theorem does_pure (a : α) (c : Cursor) : Does text d (pure (some a)) c ((pure a : Parser α).run c) back :=
  gives_pure (some a) c

theorem does_position {f : Nat → Scan (Option α)} (h : c.On text → Does text d (f c.offset) c r back) :
    Does text d (position >>= f) c r back :=
  (gives_position c).bind_none h

theorem does_moveTo {p : Scan (Option α)} (hc : c'.On text) (h : Does text d p c' r back) :
    Does text d (do moveTo c'.offset; p) c r back :=
  (gives_moveTo hc c).bind_none fun _ => h

/-- What may follow the characters `t`, which have to come next. -/
theorem does_eat_bind {f : Bool → Scan (Option α)} {q : Parser α}
    (htrue : ∀ c', c'.On text → Does text d (f true) c' (q.run c') back)
    (hfalse : c.On text → Gives text d (f false) c none back .none) :
    Does text d (eat t >>= f) c ((do Parser.token t; q : Parser α).run c) back := by
  rcases hs : c.strip? t.toList with _ | c'
  · rw [Parser.run_bind_of_eq_none (Parser.run_token_of_eq_none hs)]
    exact (gives_eat_of_eq_none hs).bind_of_none hfalse
  · rw [Parser.run_bind_of_eq_some (Parser.run_token_of_eq_some hs), Misses.none_join]
    exact (gives_eat_of_eq_some hs).bind_none (htrue c')

/-- The characters `t`, or else something else. -/
theorem does_eat_orElse {f : Bool → Scan (Option α)} {a : α} {q : Parser α}
    (htrue : ∀ c', Gives text d (f true) c' (some a) c' .none)
    (hfalse : c.On text → Does text d (f false) c (q.run c) back) :
    Does text d (eat t >>= f) c (((do Parser.token t; return a) <|> q : Parser α).run c) back := by
  rcases hs : c.strip? t.toList with _ | c'
  · rw [Parser.run_orElse_of_eq_none (Parser.run_bind_of_eq_none (Parser.run_token_of_eq_none hs))]
    exact (gives_eat_of_eq_none hs).bind hfalse
  · rw [Parser.run_orElse_of_eq_some (Parser.run_bind_of_eq_some (Parser.run_token_of_eq_some hs)), Misses.none_join]
    exact (gives_eat_of_eq_some hs).bind_none fun _ => htrue c'

variable {p : Scan (Option α)} {q : Parser α} {f : Option α → Scan (Option β)}

/-- What may follow a value of `p`, which has to come next. -/
theorem Does.bind {q' : α → Parser β} (hp : Does text d p c (q.run c') c₁)
    (hsome : ∀ a c', c'.On text → Does text d (f (some a)) c' ((q' a).run c') back)
    (hnone : c₁.On text → Gives text d (f none) c₁ none back .none) :
    Does text d (p >>= f) c ((q >>= q').run c') back := by
  rcases hr : q.run c' with ⟨_ | ⟨a, c''⟩, m⟩
  · rw [Parser.run_bind_of_eq_none hr]
    rw [hr] at hp
    exact Gives.bind_of_none hp hnone
  · rw [Parser.run_bind_of_eq_some hr]
    rw [hr] at hp
    exact Gives.bind hp (hsome a c'')

/-- A value of `p` as it is. -/
theorem Does.bind_pure {f : Option α → Scan (Option α)} (hp : Does text d p c (q.run c') c₁)
    (hsome : ∀ a c', Gives text d (f (some a)) c' (some a) c' .none)
    (hnone : c₁.On text → Gives text d (f none) c₁ none back .none) : Does text d (p >>= f) c (q.run c') back := by
  rcases hr : q.run c' with ⟨_ | ⟨a, c''⟩, m⟩
  · rw [hr] at hp
    exact Gives.bind_of_none hp hnone
  · rw [hr] at hp
    exact Gives.bind_of_none hp fun _ => hsome a c''

/-- A value of `p`, or else something else. -/
theorem Does.orElse {q' : Parser β} {g : α → β} (hp : Does text d p c (q.run c') c₁)
    (hsome : ∀ a c', Gives text d (f (some a)) c' (some (g a)) c' .none)
    (hnone : c₁.On text → Does text d (f none) c₁ (q'.run c') back) :
    Does text d (p >>= f) c ((g <$> q <|> q').run c') back := by
  rcases hr : q.run c' with ⟨_ | ⟨a, c''⟩, m⟩
  · rw [Parser.run_orElse_of_eq_none (Parser.run_map_of_eq_none g hr)]
    rw [hr] at hp
    exact Gives.bind hp hnone
  · rw [Parser.run_orElse_of_eq_some (Parser.run_map_of_eq_some g hr)]
    rw [hr] at hp
    exact Gives.bind_of_none hp fun _ => hsome a c''

theorem Does.orElse_self {q' : Parser α} {f : Option α → Scan (Option α)} (hp : Does text d p c (q.run c') c₁)
    (hsome : ∀ a c', Gives text d (f (some a)) c' (some a) c' .none)
    (hnone : c₁.On text → Does text d (f none) c₁ (q'.run c') back) :
    Does text d (p >>= f) c ((q <|> q').run c') back := by
  rw [← Parser.id_map q]
  exact hp.orElse hsome hnone

/-- What may follow a program that always gives something. -/
theorem Always.does_bind {p : Scan α} {f : α → Scan (Option β)} {q' : α → Parser β} (hp : Always text d p q)
    (hc : c.On text) (hf : ∀ a c', c'.On text → Does text d (f a) c' ((q' a).run c') back) :
    Does text d (p >>= f) c ((q >>= q').run c) back := by
  obtain ⟨a, c', m, hrun, h⟩ := hp c hc
  rw [Parser.run_bind_of_eq_some hrun]
  exact Gives.bind h (hf a c')

end

/-- Whether the characters `t` come next. -/
theorem always_eat (t : String) : Always text d (eat t) ((do Parser.token t; return true) <|> pure false) := by
  intro c _
  rcases hs : c.strip? t.toList with _ | c'
  · refine ⟨false, c, _, ?_, gives_eat_of_eq_none hs⟩
    rw [Parser.run_orElse_of_eq_none (Parser.run_bind_of_eq_none (Parser.run_token_of_eq_none hs)), Parser.run_pure]
    simp only [Misses.join_none]
  · refine ⟨true, c', .none, ?_, gives_eat_of_eq_some hs⟩
    rw [Parser.run_orElse_of_eq_some (Parser.run_bind_of_eq_some (Parser.run_token_of_eq_some hs)), Parser.run_pure]
    simp only [Misses.join_none]

theorem Always.bind {p : Scan α} {q : Parser α} {f : α → Scan β} {q' : α → Parser β} (hp : Always text d p q)
    (hf : ∀ a, Always text d (f a) (q' a)) : Always text d (p >>= f) (q >>= q') := by
  intro c hc
  obtain ⟨a, c₁, m, hrun, h⟩ := hp c hc
  obtain ⟨b, c₂, m', hrun', h'⟩ := hf a c₁ (h.on hc)
  refine ⟨b, c₂, m.join m', ?_, Gives.bind h fun _ => h'⟩
  rw [Parser.run_bind_of_eq_some hrun, hrun']

/-! ## Straying -/

section
variable {p : Scan (Option α)} {q : Parser α} {t : String}

theorem strays_pure (a : α) : Strays text d (pure (some a)) (pure a) := fun c _ => ⟨c, does_pure a c⟩

theorem strays_eat_bind {f : Bool → Scan (Option α)} (htrue : Strays text d (f true) q)
    (hfalse : ∀ c, Gives text d (f false) c none c .none) : Strays text d (eat t >>= f) (do Parser.token t; q) := by
  intro c hc
  rcases hs : c.strip? t.toList with _ | c'
  · refine ⟨c, ?_⟩
    rw [Parser.run_bind_of_eq_none (Parser.run_token_of_eq_none hs)]
    exact (gives_eat_of_eq_none hs).bind_of_none fun _ => hfalse c
  · obtain ⟨back, h⟩ := htrue c' (hc.behind (Cursor.behind_of_strip? hs))
    refine ⟨back, ?_⟩
    rw [Parser.run_bind_of_eq_some (Parser.run_token_of_eq_some hs), Misses.none_join]
    exact (gives_eat_of_eq_some hs).bind_none fun _ => h

theorem Strays.bind {q' : α → Parser β} {f : Option α → Scan (Option β)} (hp : Strays text d p q)
    (hsome : ∀ a, Strays text d (f (some a)) (q' a)) (hnone : ∀ c, Gives text d (f none) c none c .none) :
    Strays text d (p >>= f) (q >>= q') := by
  intro c hc
  obtain ⟨c₁, h⟩ := hp c hc
  rcases hr : q.run c with ⟨_ | ⟨a, c'⟩, m⟩
  · refine ⟨c₁, ?_⟩
    rw [Parser.run_bind_of_eq_none hr]
    rw [hr] at h
    exact Gives.bind_of_none h fun _ => hnone c₁
  · rw [hr] at h
    obtain ⟨back, h'⟩ := hsome a c' (Gives.on h hc)
    refine ⟨back, ?_⟩
    rw [Parser.run_bind_of_eq_some hr]
    exact Gives.bind h fun _ => h'

/-- What may follow a program that always gives something. -/
theorem Always.strays_bind {p : Scan α} {f : α → Scan (Option β)} {q' : α → Parser β} (hp : Always text d p q)
    (hf : ∀ a, Strays text d (f a) (q' a)) : Strays text d (p >>= f) (q >>= q') := by
  intro c hc
  obtain ⟨a, c₁, m, hrun, h⟩ := hp c hc
  obtain ⟨back, h'⟩ := hf a c₁ (h.on hc)
  refine ⟨back, ?_⟩
  rw [Parser.run_bind_of_eq_some hrun]
  exact Gives.bind h fun _ => h'

end

/-! ## Loops -/

section
variable {p : Scan (Option α)} {q : Parser α}

/-- A loop repeats what a parser repeats, and ends within one round more than there are characters. -/
theorem Follows.exists_gives_loop (hp : Follows text d p q) (hq : q.Advances) (f : β → α → β) (hc : c.On text)
    (hn : c.rest.length < n) (b : β) : ∃ as c' m, q.many.run c = ⟨some (as, c'), m⟩ ∧
      Gives text d (loop p f n b) c (as.foldl f b) c' m := by
  -- on the rounds: each one but the last leaves fewer characters
  induction n generalizing c b with
  | zero => exact absurd hn (Nat.not_lt_zero _)
  | succ n ih =>
    have hround := hp c hc
    rcases hr : q.run c with ⟨_ | ⟨a, c₁⟩, m⟩
    · rw [hr] at hround
      refine ⟨[], c, m, by rw [Parser.many_eq hq, hr], ?_⟩
      exact Gives.bind_of_none hround fun _ => gives_pure b c
    · rw [hr] at hround
      have ho : (q.run c).outcome = some (a, c₁) := by rw [hr]
      have hlt := hq.length_lt ho
      obtain ⟨x, s, hs⟩ := hq c a c₁ ho
      obtain ⟨as, c', m', hmany, hloop⟩ := ih (hc.behind hs) (by omega) (f b a)
      refine ⟨a :: as, c', m.join m', ?_, Gives.bind hround fun _ => hloop⟩
      rw [Parser.many_eq hq, hr]
      simp [hmany]

theorem Follows.always_collect (hp : Follows text d p q) (hq : q.Advances) (f : β → α → β) (b : β) :
    Always text d (collect p f b) ((fun as => as.foldl f b) <$> q.many) := by
  intro c hc
  obtain ⟨as, c', m, hmany, hloop⟩ := hp.exists_gives_loop hq f hc (Nat.lt_succ_of_le hc.length_le) b
  exact ⟨as.foldl f b, c', m, Parser.run_map_of_eq_some _ hmany, hloop⟩

theorem Follows.always_list (hp : Follows text d p q) (hq : q.Advances) : Always text d (list p) q.many := by
  intro c hc
  obtain ⟨as, c', m, hmany, hlist⟩ :=
    hp.exists_gives_loop hq (fun as a => as ++ [a]) hc (Nat.lt_succ_of_le hc.length_le) []
  rw [List.foldl_append_eq_append, List.nil_append, ← List.flatMap_def, List.flatMap_singleton'] at hlist
  exact ⟨as, c', m, hmany, hlist⟩

end

end Scan
end RegexNotation
