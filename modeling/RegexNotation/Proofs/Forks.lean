/-
  Two texts that begin alike.

  A `Fork` is a pair of texts with a common beginning.  A parser whose run on the first text looked at nothing
  behind that beginning (`Reading.Within`) runs alike on the second (`Fork.Alike`), unless the second goes on
  with a token that the first does not have: one that the first run wanted where the texts part, or one that
  is not wanted there because it begins before (`Fork.Parted`, `Place.Silent`).

  `p.AgreesAt K f` says so of the runs at a place in `K`, and `p.Settles K` of all forks; sequence, choice and
  repetition keep it.
-/
import RegexNotation.Proofs.Completions

namespace RegexNotation

open Cursor (utf8Length)

/-! ## Forks -/

/-- What may come next at a place although it is never wanted there: a blank in the braces of a quantifier, and
    the end of a token that began before. -/
inductive Place.Silent : Place → List Char → Prop
  | blank {v : Nat} {c : Char} : Text.isBlank c → Silent (.bounds v) [c]
  | group : Silent .opened ['?', ':']
  | code : Silent .quotedU ['{']
  | torn {t : List Char} : Silent .torn t

namespace Cursor

theorem utf8Length_eq_zero {s : List Char} (h : utf8Length s = 0) : s = [] := by
  cases s with
  | nil => rfl
  | cons c s =>
    have := c.utf8Size_pos
    rw [utf8Length] at h
    omega

/-- Two beginnings of a text, one of which is not longer, in bytes. -/
theorem exists_append_of_utf8Length_le {s t u v : List Char} (h : s ++ u = t ++ v)
    (hl : utf8Length s ≤ utf8Length t) : ∃ w, t = s ++ w ∧ u = w ++ v := by
  rcases List.append_eq_append_iff.1 h with ⟨w, rfl, rfl⟩ | ⟨w, rfl, rfl⟩
  · exact ⟨w, rfl, rfl⟩
  · rw [utf8Length_append] at hl
    obtain rfl := utf8Length_eq_zero (s := w) (by omega)
    exact ⟨[], by simp, by simp⟩

theorem append_inj_of_utf8Length_eq {s t u v : List Char} (h : s ++ u = t ++ v)
    (hl : utf8Length s = utf8Length t) : s = t ∧ u = v := by
  obtain ⟨w, rfl, rfl⟩ := exists_append_of_utf8Length_le h (Nat.le_of_eq hl)
  rw [utf8Length_append] at hl
  obtain rfl := utf8Length_eq_zero (s := w) (by omega)
  exact ⟨by simp, by simp⟩

/-- The offset determines the text that has been read. -/
theorem Behind.eq_of_offset_eq {c c' c'' : Cursor} {s t : List Char} (h : c.Behind s c') (h' : c.Behind t c'')
    (ho : c'.offset = c''.offset) : s = t :=
  (append_inj_of_utf8Length_eq (h.1.symm.trans h'.1) (Nat.add_left_cancel (h.2.symm.trans (ho.trans h'.2)))).1

end Cursor

/-- Two texts that begin alike, read from the same place. -/
structure Fork where
  offset : Nat
  /-- The beginning of both. -/
  shared : List Char
  /-- What follows in the first text. -/
  one : List Char
  /-- What follows in the second. -/
  other : List Char

namespace Fork

/-- The place in the first text. -/
def first (f : Fork) : Cursor := ⟨f.offset, f.shared ++ f.one⟩

/-- The place in the second text. -/
def second (f : Fork) : Cursor := ⟨f.offset, f.shared ++ f.other⟩

/-- Where the texts part. -/
def parting (f : Fork) : Nat := f.offset + utf8Length f.shared

/-- The fork `f'` is `f` behind the text `s`, which is a part of the common beginning. -/
def Behind (f : Fork) (s : List Char) (f' : Fork) : Prop :=
  f.shared = s ++ f'.shared ∧ f'.offset = f.offset + utf8Length s ∧ f'.one = f.one ∧ f'.other = f.other

variable {f f' f'' : Fork} {s t : List Char}

theorem Behind.refl (f : Fork) : f.Behind [] f := ⟨rfl, rfl, rfl, rfl⟩

theorem Behind.trans (h : f.Behind s f') (h' : f'.Behind t f'') : f.Behind (s ++ t) f'' := by
  obtain ⟨h1, h2, h3, h4⟩ := h
  obtain ⟨h1', h2', h3', h4'⟩ := h'
  refine ⟨?_, ?_, h3'.trans h3, h4'.trans h4⟩
  · rw [h1, h1', List.append_assoc]
  · rw [h2', h2, Cursor.utf8Length_append, Nat.add_assoc]

theorem Behind.first (h : f.Behind s f') : f.first.Behind s f'.first :=
  ⟨by rw [Fork.first, Fork.first, h.1, h.2.2.1, List.append_assoc], h.2.1⟩

theorem Behind.second (h : f.Behind s f') : f.second.Behind s f'.second :=
  ⟨by rw [Fork.second, Fork.second, h.1, h.2.2.2, List.append_assoc], h.2.1⟩

theorem Behind.parting (h : f.Behind s f') : f'.parting = f.parting := by
  rw [Fork.parting, Fork.parting, h.1, h.2.1, Cursor.utf8Length_append, Nat.add_assoc]

theorem parting_of_shared_eq_nil (h : f.shared = []) : f.parting = f.offset := by
  rw [parting, h]
  rfl

/-- The texts part where they go on with different characters. -/
theorem shared_eq_nil {c : Char} (h : c ∈ f.second.rest.head?) (h' : c ∉ f.first.rest.head?) : f.shared = [] := by
  rcases hx : f.shared with _ | ⟨c', x⟩
  · rfl
  · simp only [second, first, hx] at h h'
    exact absurd h h'

/-- A place in the first text, before the texts part, is one of both texts. -/
theorem exists_behind {c : Cursor} (h : f.first.Behind s c) (hc : c.offset ≤ f.parting) :
    ∃ f', f.Behind s f' ∧ c = f'.first := by
  obtain ⟨o, l⟩ := c
  obtain ⟨h1, rfl : o = _⟩ := h
  obtain ⟨t, ht, rfl⟩ := Cursor.exists_append_of_utf8Length_le h1.symm (Nat.le_of_add_le_add_left hc)
  exact ⟨⟨f.offset + utf8Length s, t, f.one, f.other⟩, ⟨ht, rfl, rfl, rfl⟩, rfl⟩

end Fork

namespace Reading

variable {α : Type} {r : Reading α} {n : Nat}

/-- Nothing behind the place `n` has been read or missed. -/
def Within (r : Reading α) (n : Nat) : Prop :=
  r.misses.offset ≤ n ∧ ∀ a c, r.outcome = some (a, c) → c.offset ≤ n

theorem within_of_eq_none (h : r.outcome = none) (hm : r.misses.offset ≤ n) : r.Within n :=
  ⟨hm, fun _ _ h' => by rw [h] at h'; cases h'⟩

end Reading

namespace Fork

variable {α β : Type} {f f' : Fork} {K K' : Place → Prop} {m m' : Misses} {s : List Char}

/-- The two runs have missed the same, and they failed both or stopped with the same value at the same place. -/
structure Alike (f : Fork) (r r' : Reading α) : Prop where
  misses : r'.misses = r.misses
  fails : r.outcome = none → r'.outcome = none
  stops : ∀ a c, r.outcome = some (a, c) →
    ∃ s f', f.Behind s f' ∧ c = f'.first ∧ r'.outcome = some (a, f'.second)

/-- The second text goes on with a token that the first does not have.  It is wanted where the texts part, or it
    is silent behind the common beginning, read from a place in `K`. -/
def Parted (f : Fork) (K : Place → Prop) (m : Misses) : Prop :=
  ∃ t, t <+: f.other ∧ ¬ t <+: f.one ∧
    ((m.offset = f.parting ∧ ∃ e ∈ m.wanted, e.Describes t) ∨
      (f.parting ≤ m.offset + 1 ∧ ∀ k, K k → (k.after f.shared).Silent t))

theorem Parted.mono (h : f.Parted K m) (hK : ∀ k, K' k → K k) : f.Parted K' m := by
  obtain ⟨t, ht, hn, hw | ⟨hl, hs⟩⟩ := h
  · exact ⟨t, ht, hn, .inl hw⟩
  · exact ⟨t, ht, hn, .inr ⟨hl, fun k hk => hs k (hK k hk)⟩⟩

theorem Parted.join_left (h : f.Parted K m) (hm : (m.join m').offset ≤ f.parting) :
    f.Parted K (m.join m') := by
  obtain ⟨t, ht, hn, ⟨hp, e, he, hd⟩ | ⟨hl, hs⟩⟩ := h
  · have hm' : m'.offset ≤ m.offset := by
      rw [hp]
      exact Nat.le_trans (Misses.le_offset_join_right ..) hm
    refine ⟨t, ht, hn, .inl ⟨?_, e, Misses.mem_wanted_join.2 (.inl ⟨hm', he⟩), hd⟩⟩
    rw [Misses.offset_join, Nat.max_eq_left hm', hp]
  · exact ⟨t, ht, hn, .inr ⟨Nat.le_trans hl (Nat.succ_le_succ (Misses.le_offset_join_left ..)), hs⟩⟩

theorem Parted.join_right (h : f.Parted K m') (hm : (m.join m').offset ≤ f.parting) :
    f.Parted K (m.join m') := by
  obtain ⟨t, ht, hn, ⟨hp, e, he, hd⟩ | ⟨hl, hs⟩⟩ := h
  · have hm' : m.offset ≤ m'.offset := by
      rw [hp]
      exact Nat.le_trans (Misses.le_offset_join_left ..) hm
    refine ⟨t, ht, hn, .inl ⟨?_, e, Misses.mem_wanted_join.2 (.inr ⟨hm', he⟩), hd⟩⟩
    rw [Misses.offset_join, Nat.max_eq_right hm', hp]
  · exact ⟨t, ht, hn, .inr ⟨Nat.le_trans hl (Nat.succ_le_succ (Misses.le_offset_join_right ..)), hs⟩⟩

/-- Where the texts part within a word of `D` that only the second has, its end is silent. -/
def SilentEnd (f : Fork) (K : Place → Prop) (D : List Char → Prop) : Prop :=
  ∀ z, D (f.shared ++ z) → f.shared ≠ [] → z ≠ [] → z <+: f.other → ¬ z <+: f.one →
    utf8Length f.shared ≤ 1 ∧ ∀ k, K k → (k.after f.shared).Silent z

/-- Texts that part behind `s` part. -/
theorem Parted.of_behind (h : f'.Parted K' m) (hf : f.Behind s f') (hK : ∀ k, K k → K' (k.after s)) :
    f.Parted K m := by
  obtain ⟨t, ht, hn, hw⟩ := h
  rw [hf.2.2.2] at ht
  rw [hf.2.2.1] at hn
  rw [hf.parting] at hw
  refine ⟨t, ht, hn, hw.imp_right fun ⟨hl, hs⟩ => ⟨hl, fun k hk => ?_⟩⟩
  rw [hf.1, Place.after_append]
  exact hs _ (hK k hk)

end Fork

namespace Parser

open Computability

variable {α β : Type} {p q : Parser α} {K K' : Place → Prop} {L : Language Char} {f : Fork}

/-- If the run on the first text looks at nothing behind the common beginning, the run on the second is alike,
    or the second goes on with what may come next. -/
def AgreesAt (p : Parser α) (K : Place → Prop) (f : Fork) : Prop :=
  (p.run f.first).Within f.parting →
    f.Alike (p.run f.first) (p.run f.second) ∨ f.Parted K (p.run f.first).misses

/-- The parser, run at a place in `K`, agrees on any two texts, and a run of it leaves its place only forward. -/
structure Settles (p : Parser α) (K : Place → Prop) : Prop where
  agrees : ∀ f, p.AgreesAt K f
  blames : p.Blames
  consumes : p.Consumes

/-! ## Sequence and choice -/

theorem AgreesAt.mono (h : p.AgreesAt K f) (hK : ∀ k, K' k → K k) : p.AgreesAt K' f := fun hw =>
  (h hw).imp_right fun h => h.mono hK

theorem Settles.mono (h : p.Settles K) (hK : ∀ k, K' k → K k) : p.Settles K' :=
  ⟨fun f => (h.agrees f).mono hK, h.blames, h.consumes⟩

theorem settles_pure (a : α) : (pure a : Parser α).Settles K := by
  refine ⟨fun f _ => .inl ⟨rfl, by rintro ⟨⟩, ?_⟩, blames_pure a, consumes_pure a⟩
  rintro _ _ ⟨⟩
  exact ⟨[], f, .refl f, rfl, rfl⟩

theorem settles_miss (e : Expected) : (miss e : Parser α).Settles K := by
  refine ⟨fun f _ => .inl ⟨rfl, fun _ => rfl, ?_⟩, blames_miss e, (advances_miss e).consumes⟩
  rintro _ _ ⟨⟩

/-- The first part of a sequence stays within, for the second one would not get back. -/
theorem within_of_within_bind {g : α → Parser β} {c : Cursor} {n : Nat} (hb : ∀ a, (g a).Blames)
    (hc : ∀ a, (g a).Consumes) (h : ((p >>= g).run c).Within n) : (p.run c).Within n := by
  rw [run_bind] at h
  rcases ho : (p.run c).outcome with _ | ⟨a, d⟩
  · exact Reading.within_of_eq_none ho (by simpa only [ho] using h.1)
  · simp only [ho] at h
    refine ⟨Nat.le_trans (Misses.le_offset_join_left ..) h.1, ?_⟩
    rintro a' d' h'
    obtain ⟨-, rfl⟩ := Prod.mk.inj (Option.some.inj (h'.symm.trans ho))
    rcases ho' : ((g a).run d').outcome with _ | ⟨b, d''⟩
    · exact Nat.le_trans (hb a d' ho') (Nat.le_trans (Misses.le_offset_join_right ..) h.1)
    · exact Nat.le_trans ((hc a).le ho') (h.2 b d'' ho')

/-- The second part of a sequence need agree only behind what the first part can read in both texts. -/
theorem AgreesAt.bind {g : α → Parser β} (hp : p.AgreesAt K f) (hy : p.Yields L)
    (hL : Grammar.Passes K K' L)
    (hg : ∀ a f', (p.run f.first).outcome = some (a, f'.first) → (g a).AgreesAt K' f')
    (hb : ∀ a, (g a).Blames) (hc : ∀ a, (g a).Consumes) : (p >>= g).AgreesAt K f := by
  intro hw
  have halike := hp (within_of_within_bind hb hc hw)
  rw [run_bind] at hw
  rw [run_bind, run_bind]
  rcases ho : (p.run f.first).outcome with _ | ⟨a, d⟩
  · refine halike.imp_left fun h => ?_
    simp only [h.fails ho]
    exact ⟨h.misses, fun _ => rfl, by rintro _ _ ⟨⟩⟩
  · simp only [ho] at hw ⊢
    rcases halike with h | h
    · obtain ⟨s, f', hf, rfl, ho'⟩ := h.stops a d ho
      obtain ⟨s', hs', hc'⟩ := hy _ _ _ ho
      obtain rfl := hc'.eq_of_offset_eq hf.first rfl
      simp only [ho']
      have hwg : ((g a).run f'.first).Within f'.parting := by
        rw [hf.parting]
        exact ⟨Nat.le_trans (Misses.le_offset_join_right ..) hw.1, hw.2⟩
      rcases hg a f' ho hwg with h' | h'
      · refine .inl ⟨by rw [h.misses, h'.misses], h'.fails, fun b c hb => ?_⟩
        obtain ⟨t, f'', hf', hc, hb'⟩ := h'.stops b c hb
        exact ⟨_, f'', hf.trans hf', hc, hb'⟩
      · exact .inr ((h'.of_behind hf (hL _ hs')).join_right hw.1)
    · exact .inr (h.join_left hw.1)

theorem Settles.bind {g : α → Parser β} (hp : p.Settles K) (hy : p.Yields L)
    (hL : Grammar.Passes K K' L) (hg : ∀ a, (g a).Settles K') : (p >>= g).Settles K where
  agrees f := (hp.agrees f).bind hy hL (fun a f' _ => (hg a).agrees f') (fun a => (hg a).blames)
    fun a => (hg a).consumes
  blames := hp.blames.bind hp.consumes fun a => (hg a).blames
  consumes := hp.consumes.bind fun a => (hg a).consumes

theorem AgreesAt.map (hp : p.AgreesAt K f) (g : α → β) : (g <$> p).AgreesAt K f := by
  intro hw
  rw [run_map] at hw
  rw [run_map, run_map]
  have hwp : (p.run f.first).Within f.parting := ⟨hw.1, fun a c h => hw.2 (g a) c (by simp [h])⟩
  refine (hp hwp).imp_left fun h => ⟨h.misses, fun hn => ?_, fun b c hb => ?_⟩
  · simp [h.fails (Option.map_eq_none_iff.1 hn)]
  · simp only [Option.map_eq_some_iff, Prod.mk.injEq] at hb
    obtain ⟨⟨a, _⟩, ha, rfl, rfl⟩ := hb
    obtain ⟨s, f', hf, rfl, ha'⟩ := h.stops a _ ha
    exact ⟨s, f', hf, rfl, by simp [ha']⟩

theorem Settles.map (hp : p.Settles K) (g : α → β) : (g <$> p).Settles K :=
  ⟨fun f => (hp.agrees f).map g, hp.blames.map g, hp.consumes.map g⟩

theorem AgreesAt.orElse (hp : p.AgreesAt K f) (hq : q.AgreesAt K f) : (p <|> q).AgreesAt K f := by
  intro hw
  rw [run_orElse] at hw
  rw [run_orElse, run_orElse]
  rcases ho : (p.run f.first).outcome with _ | ⟨a, d⟩
  · simp only [ho] at hw ⊢
    rcases hp (Reading.within_of_eq_none ho (Nat.le_trans (Misses.le_offset_join_left ..) hw.1)) with h | h
    · simp only [h.fails ho]
      rcases hq ⟨Nat.le_trans (Misses.le_offset_join_right ..) hw.1, hw.2⟩ with h' | h'
      · exact .inl ⟨by rw [h.misses, h'.misses], h'.fails, h'.stops⟩
      · exact .inr (h'.join_right hw.1)
    · exact .inr (h.join_left hw.1)
  · simp only [ho] at hw ⊢
    refine (hp hw).imp_left fun h => ?_
    obtain ⟨s, f', -, -, ho'⟩ := h.stops a d ho
    simpa only [ho'] using h

theorem Settles.orElse (hp : p.Settles K) (hq : q.Settles K) : (p <|> q).Settles K :=
  ⟨fun f => (hp.agrees f).orElse (hq.agrees f), hp.blames.orElse_left, hp.consumes.orElse hq.consumes⟩

/-! ## Repetition -/

/-- Repetition as a choice between one more round and none. -/
theorem Advances.many_eq_orElse (ha : p.Advances) :
    p.many = ((p >>= fun a => (a :: ·) <$> p.many) <|> pure []) := by
  refine congrArg Parser.mk (funext fun c => ?_)
  show p.many.run c = ((p >>= fun a => (a :: ·) <$> p.many) <|> pure []).run c
  rw [many_eq ha c, run_orElse, run_bind]
  rcases ho : (p.run c).outcome with _ | ⟨a, d⟩
  · simp [Misses.join_none]
  · obtain ⟨as, d', has, -⟩ := outcome_many ha d
    simp [run_map, has]

/-- Induction on what is left of the first text: each round takes a part of it. -/
theorem AgreesAt.many (hp : ∀ f, p.AgreesAt K f) (hy : p.Yields L) (hL : Grammar.Passes K K L)
    (ha : p.Advances) (f : Fork) : p.many.AgreesAt K f := by
  induction hn : f.first.rest.length using Nat.strongRecOn generalizing f with
  | _ n ih =>
    subst hn
    rw [ha.many_eq_orElse]
    refine ((hp f).bind hy hL (fun a f' h => ?_) (fun a => ha.blames_many.map _) fun a => ha.many.map _).orElse
      ((settles_pure []).agrees f)
    exact (ih _ (ha.length_lt h) f' rfl).map (a :: ·)

theorem Settles.many (hp : p.Settles K) (hy : p.Yields L) (hL : Grammar.Passes K K L)
    (ha : p.Advances) : p.many.Settles K :=
  ⟨.many hp.agrees hy hL ha, ha.blames_many, ha.many⟩

theorem Settles.upTo (hp : p.Settles fun _ => True) (hy : p.Yields L) :
    ∀ n, (p.upTo n).Settles fun _ => True
  | 0 => settles_pure []
  | n + 1 => (hp.bind hy Grammar.passes_true fun a => (hp.upTo hy n).map (a :: ·)).orElse (settles_pure [])

/-- A parser that refuses some values of `p`, the same ones in both runs. -/
theorem AgreesAt.filterMap {q : Parser β} {g : α → Option β} (hp : p.AgreesAt K f)
    (hq : ∀ c, q.run c = (p.run c).filterMap g)
    (hw : (q.run f.first).Within f.parting → (p.run f.first).Within f.parting) : q.AgreesAt K f := by
  intro h
  have halike := hp (hw h)
  rw [hq, hq]
  refine halike.imp_left fun h => ⟨h.misses, fun hn => ?_, fun b c hb => ?_⟩
  · rcases ho : (p.run f.first).outcome with _ | ⟨a, d⟩
    · simp [Reading.filterMap, h.fails ho]
    · obtain ⟨s, f', -, -, ho'⟩ := h.stops a d ho
      simpa [Reading.filterMap, ho, ho'] using hn
  · simp only [Reading.filterMap, Option.bind_eq_some_iff, Option.map_eq_some_iff, Prod.exists, Prod.mk.injEq] at hb
    obtain ⟨a, d, ho, b', hb, rfl, rfl⟩ := hb
    obtain ⟨s, f', hf, rfl, ho'⟩ := h.stops a d ho
    exact ⟨s, f', hf, rfl, by simp [Reading.filterMap, ho', hb]⟩

theorem Settles.accept (hp : p.Settles K) (ha : p.Advances) (hr : p.Reaches) (g : α → Option β) (e : Expected) :
    (p.accept g e).Settles K := by
  refine ⟨fun f => (hp.agrees f).filterMap (run_accept ha hr g e) fun hw => ?_, fun c _ => ?_,
    (ha.accept g e).consumes⟩
  · rw [run_accept ha hr] at hw
    exact ⟨hw.1, fun a d h => Nat.le_trans (hr _ a d h) hw.1⟩
  · rw [run_accept ha hr]
    exact hp.blames.le_misses hr hp.consumes c

/-! ## Words -/

/-- The parser reads the words of `D`, described by `e`, and misses them where there is none. -/
structure ReadsWords (p : Parser α) (D : List Char → Prop) (e : Expected) : Prop where
  describes : ∀ t, D t → e.Describes t
  run_word : ∀ t, D t → ∃ a, ∀ o l, p.run ⟨o, t ++ l⟩ = ⟨some (a, ⟨o + utf8Length t, l⟩), .none⟩
  run_other : ∀ c, (∀ t, D t → ¬ t <+: c.rest) → p.run c = (miss e).run c

variable {D : List Char → Prop} {e : Expected}

/-- A word of the first text that ends before the texts part is one of the second. -/
theorem ReadsWords.alike_of_prefix (h : p.ReadsWords D e) {t : List Char} (ht : D t)
    (hp : t <+: f.shared ++ f.one) (hw : (p.run f.first).Within f.parting) :
    f.Alike (p.run f.first) (p.run f.second) := by
  obtain ⟨o, x, w, r⟩ := f
  obtain ⟨l, hl⟩ := hp
  obtain ⟨a, ha⟩ := h.run_word t ht
  have hfirst : p.run (Fork.first ⟨o, x, w, r⟩) = ⟨some (a, ⟨o + utf8Length t, l⟩), .none⟩ := by
    rw [Fork.first, ← ha, hl]
  rw [hfirst] at hw ⊢
  have hle : utf8Length t ≤ utf8Length x := Nat.le_of_add_le_add_left (hw.2 _ _ rfl)
  obtain ⟨y, rfl, rfl⟩ := Cursor.exists_append_of_utf8Length_le hl hle
  have hsecond : p.run (Fork.second ⟨o, t ++ y, w, r⟩) = ⟨some (a, ⟨o + utf8Length t, y ++ r⟩), .none⟩ := by
    rw [Fork.second, List.append_assoc, ha]
  rw [hsecond]
  refine ⟨rfl, by rintro ⟨⟩, ?_⟩
  rintro _ _ ⟨⟩
  exact ⟨t, ⟨o + utf8Length t, y, w, r⟩, ⟨rfl, rfl, rfl, rfl⟩, rfl, rfl⟩

/-- A word that only the second text has: it is wanted, or the texts part within it and its end is silent. -/
theorem ReadsWords.parted_of_prefix (h : p.ReadsWords D e) (hs : f.SilentEnd K D) {t : List Char} (ht : D t)
    (hp : t <+: f.shared ++ f.other) (hone : ∀ t, D t → ¬ t <+: f.shared ++ f.one) :
    f.Parted K ⟨f.offset, [e]⟩ := by
  obtain ⟨l, hl⟩ := hp
  rcases List.append_eq_append_iff.1 hl with ⟨y, hy, -⟩ | ⟨z, rfl, hz⟩
  · exact absurd ⟨y ++ f.one, by rw [hy, List.append_assoc]⟩ (hone t ht)
  · have hother : z <+: f.other := ⟨l, hz.symm⟩
    have hn : ¬ z <+: f.one := fun ⟨v, hv⟩ => hone _ ht ⟨v, by rw [List.append_assoc, hv]⟩
    refine ⟨z, hother, hn, ?_⟩
    by_cases hx : f.shared = []
    · have hd := h.describes _ ht
      rw [hx] at hd
      exact .inl ⟨(Fork.parting_of_shared_eq_nil hx).symm, e, List.mem_singleton.2 rfl, hd⟩
    · have hne : z ≠ [] := by
        rintro rfl
        exact hn List.nil_prefix
      obtain ⟨hl, hs⟩ := hs z ht hx hne hother hn
      exact .inr ⟨Nat.add_le_add_left hl f.offset, hs⟩

theorem ReadsWords.agreesAt (h : p.ReadsWords D e) (hs : f.SilentEnd K D) : p.AgreesAt K f := by
  intro hw
  by_cases hone : ∃ t, D t ∧ t <+: f.shared ++ f.one
  · obtain ⟨t, ht, hp⟩ := hone
    exact .inl (h.alike_of_prefix ht hp hw)
  · have hone : ∀ t, D t → ¬ t <+: f.shared ++ f.one := fun t ht hp => hone ⟨t, ht, hp⟩
    rw [h.run_other f.first hone]
    by_cases hother : ∃ t, D t ∧ t <+: f.shared ++ f.other
    · obtain ⟨t, ht, hp⟩ := hother
      exact .inr (h.parted_of_prefix hs ht hp hone)
    · rw [h.run_other f.second fun t ht hp => hother ⟨t, ht, hp⟩]
      refine .inl ⟨rfl, fun _ => rfl, ?_⟩
      rintro _ _ ⟨⟩

theorem readsWords_charWhere (g : Char → Bool) (e : Expected) (he : ∀ c, g c → e.Describes [c]) :
    (charWhere g e).ReadsWords (∃ c, g c ∧ · = [c]) e where
  describes := by
    rintro _ ⟨c, hc, rfl⟩
    exact he c hc
  run_word := by
    rintro _ ⟨c, hc, rfl⟩
    exact ⟨c, fun o l => by simp [charWhere, hc, utf8Length]⟩
  run_other := by
    rintro ⟨o, _ | ⟨c, l⟩⟩ h
    · rfl
    · have hc : ¬ g c := fun hc => h [c] ⟨c, hc, rfl⟩ ⟨l, rfl⟩
      simp [charWhere, hc]

theorem readsWords_token (text : String) : (token text).ReadsWords (· = text.toList) (.token text) where
  describes _ h := h
  run_word := by
    rintro _ rfl
    exact ⟨(), fun o l => by simp [token, strip?_append]⟩
  run_other c h := by
    simp only [token]
    split
    · next c' hc => exact absurd ⟨c'.rest, (Cursor.behind_of_strip? hc).1.symm⟩ (h _ rfl)
    · rfl

theorem settles_charWhere (g : Char → Bool) (e : Expected) (he : ∀ c, g c → e.Describes [c]) :
    (charWhere g e).Settles K := by
  refine ⟨fun f => (readsWords_charWhere g e he).agreesAt ?_, blames_charWhere g e,
    (advances_charWhere g e).consumes⟩
  rintro z ⟨c, -, hc⟩ hx hz
  rcases List.append_eq_singleton_iff.1 hc with ⟨h, -⟩ | ⟨-, h⟩
  · exact absurd h hx
  · exact absurd h hz

/-- Texts do not part within one character. -/
theorem settles_sign {text : String} {c : Char} (h : text.toList = [c]) : (token text).Settles K := by
  refine ⟨fun f => (readsWords_token text).agreesAt fun z hz hx hne => ?_, blames_token text,
    (reads_token text).consumes⟩
  rcases List.append_eq_singleton_iff.1 (hz.trans h) with ⟨h, -⟩ | ⟨-, h⟩
  · exact absurd h hx
  · exact absurd h hne

/-- Of two characters the second must be silent behind the first. -/
theorem settles_pair {text : String} {c c' : Char} (h : text.toList = [c, c']) (hc : c.utf8Size = 1)
    (hs : ∀ k, K k → (k.read c).Silent [c']) : (token text).Settles K := by
  refine ⟨fun f => (readsWords_token text).agreesAt fun z hz hx hne _ _ => ?_, blames_token text,
    (reads_token text).consumes⟩
  rw [h] at hz
  rcases hx' : f.shared with _ | ⟨a, _ | ⟨b, x⟩⟩
  · exact absurd hx' hx
  · obtain ⟨rfl, rfl⟩ : a = c ∧ z = [c'] := by simpa [hx'] using hz
    exact ⟨by simp [utf8Length, hc], hs⟩
  · obtain ⟨-, -, -, hz⟩ : a = c ∧ b = c' ∧ x = [] ∧ z = [] := by simpa [hx'] using hz
    exact absurd hz hne

end Parser
end RegexNotation
