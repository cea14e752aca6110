/-
  What is read as a character and as a set.

  A character is read behind exactly its text, whatever follows (`reads_literal`).  An item of a set depends on
  what follows only in one case: a single character is not followed by `-` and another character
  (`reads_setItem`).  Hence the items of a set are those whose text it is, with none that should have been
  merged into a range (`reads_set`).
-/
import RegexNotation.Parser.Progress
import RegexNotation.Proofs.Combinators
import RegexNotation.Proofs.Spelling

namespace RegexNotation.Parser

/-! ## Runs of characters -/

theorem each_char_iff {f : Char → Bool} {as s r : List Char} :
    Each (fun x s _ => s = [x] ∧ f x) as s r ↔ s = as ∧ ∀ x ∈ as, f x := by
  constructor
  · intro h
    induction h with
    | nil => exact ⟨rfl, by rintro x ⟨⟩⟩
    | cons h _ ih =>
      obtain ⟨rfl, hx⟩ := h
      exact ⟨by rw [ih.1]; rfl, List.forall_mem_cons.2 ⟨hx, ih.2⟩⟩
  · rintro ⟨rfl, h⟩
    induction s with
    | nil => exact .nil
    | cons x s ih =>
      obtain ⟨hx, hs⟩ := List.forall_mem_cons.1 h
      exact .cons (s := [x]) ⟨rfl, hx⟩ (ih hs)

theorem stuck_char_iff {f : Char → Bool} {l : List Char} :
    Stuck (fun x s _ => s = [x] ∧ f x) l ↔ ∀ x ∈ l.head?, f x = false := by
  constructor
  · intro h x hx
    obtain ⟨r, rfl⟩ := List.head?_eq_some_iff.1 hx
    have := h x [x] r rfl
    simpa using this
  · rintro h x _ r rfl ⟨rfl, hx⟩
    rw [h x rfl] at hx
    cases hx

theorem reads_hexDigits (lo hi : Nat) : (hexDigits lo hi).Reads fun ds s r =>
    s = ds.toList ∧ (∀ x ∈ s, Hex.isDigit x) ∧ lo ≤ s.length ∧ s.length ≤ hi ∧
      (s.length < hi → ∀ x ∈ r.head?, Hex.isDigit x = false) := by
  refine (((reads_charWhere _ _).upTo hi).bind fun ds => (reads_guard _).bind fun _ =>
    reads_pure (String.ofList ds)).congr fun ds s r => ?_
  constructor
  · rintro ⟨as, s, t, rfl, ⟨he, hhi, hs⟩, _, _, u, rfl, ⟨hlo, rfl⟩, rfl, rfl⟩
    obtain ⟨rfl, hx⟩ := each_char_iff.1 he
    refine ⟨by simp, by simpa using hx, by simpa using hlo, by simpa using hhi, fun h => ?_⟩
    exact stuck_char_iff.1 (by simpa using hs (by simpa using h))
  · rintro ⟨rfl, hx, hlo, hhi, hs⟩
    refine ⟨ds.toList, ds.toList, [], by simp, ⟨each_char_iff.2 ⟨rfl, hx⟩, hhi, fun h => ?_⟩,
      (), [], [], rfl, ⟨hlo, rfl⟩, by simp, rfl⟩
    exact stuck_char_iff.2 (hs h)

theorem reads_hexDigits_self (n : Nat) : (hexDigits n n).Reads fun ds s _ =>
    s = ds.toList ∧ s.length = n ∧ ∀ x ∈ s, Hex.isDigit x := by
  refine (reads_hexDigits n n).congr fun ds s r => ?_
  constructor
  · rintro ⟨hs, hx, hlo, hhi, -⟩
    exact ⟨hs, Nat.le_antisymm hhi hlo, hx⟩
  · rintro ⟨hs, hn, hx⟩
    exact ⟨hs, hx, Nat.le_of_eq hn.symm, Nat.le_of_eq hn, fun h => absurd hn (Nat.ne_of_lt h)⟩

/-! ## Characters -/

theorem ne_of_isEscapable {c : Char} (h : Alphabet.isEscapable c) :
    c ≠ 'x' ∧ c ≠ 'u' ∧ Alphabet.isControlLetter c = false ∧ NamedSet.isName c = false := by
  simpa [Alphabet.isEscapable, and_assoc] using h

theorem reads_hexFixed (g : String → Literal) {mark : String} {m : Char} (hm : mark.toList = [m])
    (n : Nat) : (g <$> (do token mark; hexDigits n n)).Reads fun a s _ => ∃ ds : String, a = g ds ∧
      (ds.toList.length = n ∧ ∀ x ∈ ds.toList, Hex.isDigit x) ∧ s = m :: ds.toList := by
  refine (((reads_token mark).bind fun _ => reads_hexDigits_self n).map g).congr fun a s r => ?_
  rw [hm]
  constructor
  · rintro ⟨ds, rfl, _, _, t, rfl, rfl, rfl, hv⟩
    exact ⟨ds, rfl, hv, rfl⟩
  · rintro ⟨ds, rfl, hv, rfl⟩
    exact ⟨ds, rfl, (), _, _, rfl, rfl, rfl, hv⟩

theorem reads_hexBraced :
    (Literal.hexBraced <$> (do token "u\x7b"; let ds ← hexDigits 1 6; token "\x7d"; return ds)).Reads
      fun a s _ => ∃ ds, a = Literal.hexBraced ds ∧ a.Valid ∧ s = 'u' :: '{' :: (ds.toList ++ ['}']) := by
  refine (((reads_token _).bind fun _ => (reads_hexDigits 1 6).bind fun ds =>
    (reads_token _).bind fun _ => reads_pure ds).map Literal.hexBraced).congr fun a s r => ?_
  constructor
  · rintro ⟨ds, rfl, _, _, _, rfl, rfl, ds', _, _, rfl, ⟨rfl, hx, h1, h6, -⟩, _, _, _, rfl, rfl, rfl, rfl⟩
    exact ⟨ds, rfl, ⟨h1, h6, hx⟩, rfl⟩
  · rintro ⟨ds, rfl, ⟨h1, h6, hx⟩, rfl⟩
    refine ⟨ds, rfl, (), _, _, rfl, rfl, ds, _, _, rfl, ⟨rfl, hx, h1, h6, fun _ => ?_⟩, (), _, [],
      rfl, rfl, rfl, rfl⟩
    rintro x ⟨⟩
    decide

/-- What follows a backslash is the rest of a character's text. -/
theorem reads_escape : escape.Reads fun a s _ => a.Valid ∧ a.render = '\\' :: s := by
  refine (((reads_charWhere _ _).map Literal.escaped).orElse_apart
    (((reads_charWhere _ _).map Literal.control).orElse_apart
      ((reads_hexFixed .hex4 (m := 'u') (by decide) 4).orElse_apart
        ((reads_hexFixed .hex2 (m := 'x') (by decide) 2).orElse_apart reads_hexBraced ?_) ?_) ?_) ?_).congr
    fun a s r => ?_
  · rintro a s r b t r' ⟨ds, -, -, rfl⟩ ⟨es, -, -, rfl⟩ h
    simp at h
  · rintro a s r b t r' ⟨ds, -, ⟨hn, hx⟩, rfl⟩ (⟨es, -, -, rfl⟩ | ⟨es, -, -, rfl⟩) h
    · simp at h
    · rcases hd : ds.toList with _ | ⟨d, l⟩
      · simp [hd] at hn
      · simp only [hd, List.cons_append, List.cons.injEq, true_and] at h
        rw [hd, h.1] at hx
        exact absurd (hx _ List.mem_cons_self) (by decide)
  · rintro a s r b t r' ⟨x, -, rfl, hx⟩ (⟨es, -, -, rfl⟩ | ⟨es, -, -, rfl⟩ | ⟨es, -, -, rfl⟩) h
    all_goals
      simp only [List.cons_append, List.cons.injEq] at h
      rw [h.1] at hx
      exact absurd hx (by decide)
  · rintro a s r b t r' ⟨x, -, rfl, hx⟩ (⟨y, -, rfl, hy⟩ | ⟨es, -, -, rfl⟩ | ⟨es, -, -, rfl⟩ |
      ⟨es, -, -, rfl⟩) h
    all_goals
      obtain ⟨h1, h2, h3, -⟩ := ne_of_isEscapable hx
      simp only [List.cons_append, List.cons.injEq] at h
    · rw [h.1, hy] at h3
      cases h3
    · exact h2 h.1
    · exact h1 h.1
    · exact h2 h.1
  · constructor
    · rintro (⟨x, rfl, rfl, hx⟩ | ⟨x, rfl, rfl, hx⟩ | ⟨ds, rfl, hv, rfl⟩ | ⟨ds, rfl, hv, rfl⟩ |
        ⟨ds, rfl, hv, rfl⟩)
      · exact ⟨hx, rfl⟩
      · exact ⟨hx, rfl⟩
      all_goals exact ⟨hv, rfl⟩
    · rintro ⟨hv, h⟩
      cases a with
      | plain c =>
        obtain ⟨rfl, -⟩ := List.cons.inj h
        exact absurd hv (by decide)
      | escaped c =>
        obtain ⟨-, rfl⟩ := List.cons.inj h
        exact .inl ⟨c, rfl, rfl, hv⟩
      | control c =>
        obtain ⟨-, rfl⟩ := List.cons.inj h
        exact .inr (.inl ⟨c, rfl, rfl, hv⟩)
      | hex4 ds =>
        obtain ⟨-, rfl⟩ := List.cons.inj h
        exact .inr (.inr (.inl ⟨ds, rfl, hv, rfl⟩))
      | hex2 ds =>
        obtain ⟨-, rfl⟩ := List.cons.inj h
        exact .inr (.inr (.inr (.inl ⟨ds, rfl, hv, rfl⟩)))
      | hexBraced ds =>
        obtain ⟨-, rfl⟩ := List.cons.inj h
        exact .inr (.inr (.inr (.inr ⟨ds, rfl, hv, rfl⟩)))

theorem reads_literal : literal.Reads fun a s _ => a.Valid ∧ s = a.render := by
  refine (((reads_charWhere _ _).map Literal.plain).orElse_apart
    ((reads_token _).bind fun _ => reads_escape) ?_).congr fun a s r => ?_
  · rintro a s r b t r' ⟨x, rfl, rfl, hx⟩ ⟨_, _, t, rfl, rfl, -⟩ h
    simp only [List.cons_append] at h
    rw [(List.cons.inj h).1] at hx
    exact absurd hx (by decide)
  · constructor
    · rintro (⟨x, rfl, rfl, hx⟩ | ⟨_, _, t, rfl, rfl, hv, h⟩)
      · exact ⟨by simpa [Literal.Valid] using hx, rfl⟩
      · exact ⟨hv, h.symm⟩
    · rintro ⟨hv, rfl⟩
      cases a with
      | plain c => exact .inl ⟨c, rfl, rfl, by simpa [Literal.Valid] using hv⟩
      | _ => exact .inr ⟨(), _, _, rfl, rfl, hv, rfl⟩

theorem reads_setLetter : setLetter.Reads fun l s _ => s = ['\\', l] ∧ NamedSet.isName l := by
  refine ((reads_token _).bind fun _ => reads_charWhere _ _).congr fun l s r => ?_
  constructor
  · rintro ⟨_, _, t, rfl, rfl, rfl, hl⟩
    exact ⟨rfl, hl⟩
  · rintro ⟨rfl, hl⟩
    exact ⟨(), _, _, rfl, rfl, rfl, hl⟩

theorem mem_of_isName {l : Char} (h : NamedSet.isName l) : l ∈ ['s', 'S', 'w', 'W', 'd', 'D'] := by
  have hr : NamedSet.registry.map (·.letter) = ['s', 'S', 'w', 'W', 'd', 'D'] := rfl
  simp only [NamedSet.isName, NamedSet.find?, Option.isSome_map, List.find?_isSome,
    decide_eq_true_eq] at h
  exact hr ▸ List.mem_map.2 h

theorem isName_of_isControlLetter {l : Char} (h : Alphabet.isControlLetter l) :
    NamedSet.isName l = false := by
  rw [← Bool.not_eq_true]
  intro hl
  have hm := mem_of_isName hl
  simp only [List.mem_cons, List.not_mem_nil, or_false] at hm
  rcases hm with rfl | rfl | rfl | rfl | rfl | rfl <;> exact absurd h (by decide)

/-- No character is spelled like a named set. -/
theorem render_ne_named {a : Literal} (ha : a.Valid) {l : Char} (hl : NamedSet.isName l)
    (r r' : List Char) : a.render ++ r ≠ '\\' :: l :: r' := by
  intro h
  cases a with
  | plain c =>
    obtain ⟨rfl, -⟩ := List.cons.inj h
    exact absurd ha (by decide)
  | escaped c =>
    obtain ⟨rfl, -⟩ := List.cons.inj (List.cons.inj h).2
    rw [(ne_of_isEscapable ha).2.2.2] at hl
    cases hl
  | control c =>
    obtain ⟨rfl, -⟩ := List.cons.inj (List.cons.inj h).2
    rw [isName_of_isControlLetter ha] at hl
    cases hl
  | _ =>
    obtain ⟨rfl, -⟩ := List.cons.inj (List.cons.inj h).2
    exact absurd (mem_of_isName hl) (by decide)

theorem ne_of_isReserved {c x : Char} (hc : Literal.Valid (.plain c)) (hx : Alphabet.isReserved x) : c ≠ x := by
  rintro rfl
  rw [show Alphabet.isReserved c = false from hc] at hx
  cases hx

/-- A character begins with itself or with a backslash. -/
theorem render_ne_reserved {a : Literal} (ha : a.Valid) {x : Char} (hx : Alphabet.isReserved x)
    (hb : x ≠ '\\') (r r' : List Char) : a.render ++ r ≠ x :: r' := by
  intro h
  cases a with
  | plain c => exact ne_of_isReserved ha hx (List.cons.inj h).1
  | _ => exact hb (List.cons.inj h).1.symm

/-! ## Items of sets -/

/-- A plain `-` and a character. -/
def DashThen (b : Literal) (s _r : List Char) : Prop := b.Valid ∧ s = '-' :: b.render

/-- The items that are read where `r` follows. -/
inductive ItemRead : SetItem → List Char → List Char → Prop
  | named {l r} : NamedSet.isName l → ItemRead (.named l) ['\\', l] r
  | range {a b r} : a.Valid → b.Valid → ItemRead (.range a b) (a.render ++ '-' :: b.render) r
  | single {a r} : a.Valid → Stuck DashThen r → ItemRead (.single a) a.render r

theorem reads_rangeFrom (a : Literal) : (rangeFrom a).Reads fun i s r =>
    (∃ b, i = .range a b ∧ DashThen b s r) ∨ i = .single a ∧ s = [] ∧ Stuck DashThen r := by
  have hd : (do token "-"; literal).Reads DashThen := by
    refine ((reads_token _).bind fun _ => reads_literal).congr fun b s r => ?_
    constructor
    · rintro ⟨_, _, _, rfl, rfl, hb, rfl⟩
      exact ⟨hb, rfl⟩
    · rintro ⟨hb, rfl⟩
      exact ⟨(), _, _, rfl, rfl, hb, rfl⟩
  refine ((hd.map (SetItem.range a)).orElse (reads_pure (SetItem.single a))).congr fun i s r => ?_
  constructor
  · rintro (⟨b, rfl, hb⟩ | ⟨hs, rfl, rfl⟩)
    · exact .inl ⟨b, rfl, hb⟩
    · exact .inr ⟨rfl, rfl, fun b t r' hr hb => hs _ t r' hr ⟨b, rfl, hb⟩⟩
  · rintro (⟨b, rfl, hb⟩ | ⟨rfl, rfl, hs⟩)
    · exact .inl ⟨b, rfl, hb⟩
    · exact .inr ⟨fun i t r' hr ⟨b, _, hb⟩ => hs b t r' hr hb, rfl, rfl⟩

theorem reads_setItem : setItem.Reads ItemRead := by
  refine ((reads_setLetter.map SetItem.named).orElse_apart
    (reads_literal.bind reads_rangeFrom) ?_).congr fun i s r => ?_
  · rintro i s r j t r' ⟨l, -, rfl, hl⟩ ⟨a, _, u, rfl, ⟨ha, rfl⟩, -⟩ h
    exact render_ne_named ha hl (u ++ r') r (by simpa using h.symm)
  · constructor
    · rintro (⟨l, rfl, rfl, hl⟩ | ⟨a, _, _, rfl, ⟨ha, rfl⟩, ⟨b, rfl, hb, rfl⟩ | ⟨rfl, rfl, hs⟩⟩)
      · exact .named hl
      · exact .range ha hb
      · simpa using ItemRead.single ha hs
    · intro h
      cases h with
      | named hl => exact .inl ⟨_, rfl, rfl, hl⟩
      | range ha hb => exact .inr ⟨_, _, _, rfl, ⟨ha, rfl⟩, .inl ⟨_, rfl, hb, rfl⟩⟩
      | single ha hs => exact .inr ⟨_, _, [], by simp, ⟨ha, rfl⟩, .inr ⟨rfl, rfl, hs⟩⟩

theorem exists_literal_iff {items : List SetItem} (hv : ∀ i ∈ items, i.Valid) (r : List Char) :
    (∃ (b : Literal) (t : List Char), b.Valid ∧ items.flatMap SetItem.render ++ ']' :: r = b.render ++ t) ↔
      SetItem.beginWithChar items := by
  rcases items with _ | ⟨_ | ⟨a, b⟩ | a, items⟩
  · simp only [List.flatMap_nil, List.nil_append, SetItem.beginWithChar, Bool.false_eq_true, iff_false]
    rintro ⟨b, t, hb, h⟩
    exact render_ne_reserved hb (by decide) (by decide) _ _ h.symm
  · have hl := hv _ List.mem_cons_self
    simp only [SetItem.beginWithChar, Bool.false_eq_true, iff_false]
    rintro ⟨b, t, hb, h⟩
    exact render_ne_named hb hl t _ h.symm
  · simp only [SetItem.beginWithChar, iff_true]
    have ha := (hv _ List.mem_cons_self).1
    exact ⟨a, _, ha, by rw [List.flatMap_cons, SetItem.render, List.append_assoc, List.append_assoc]⟩
  · simp only [SetItem.beginWithChar, iff_true]
    exact ⟨a, _, hv _ List.mem_cons_self, by rw [List.flatMap_cons, SetItem.render, List.append_assoc]⟩

theorem stuck_dashThen_cons (c : Char) (l : List Char) :
    Stuck DashThen (c :: l) ↔ ¬ (c = '-' ∧ ∃ b t, Literal.Valid b ∧ l = b.render ++ t) := by
  constructor
  · rintro h ⟨rfl, b, t, hb, rfl⟩
    exact h b ('-' :: b.render) t rfl ⟨hb, rfl⟩
  · rintro h b _ t hl ⟨hb, rfl⟩
    obtain ⟨rfl, rfl⟩ := List.cons.inj hl
    exact h ⟨rfl, b, t, hb, rfl⟩

/-- Nothing is taken for the end of a range iff the items do not begin like one. -/
theorem stuck_dashThen_iff {items : List SetItem} (hv : ∀ i ∈ items, i.Valid) (r : List Char) :
    Stuck DashThen (items.flatMap SetItem.render ++ ']' :: r) ↔
      SetItem.beginWithDash items = false := by
  rcases items with _ | ⟨_ | ⟨_ | _, b⟩ | _ | _, items⟩
  case cons.range.plain c =>
    have hd : Literal.Valid (.plain '-') := by decide
    simp only [List.flatMap_cons, SetItem.render, Literal.render, List.cons_append, List.nil_append,
      stuck_dashThen_cons, SetItem.beginWithDash, decide_eq_false_iff_not]
    exact not_congr (and_iff_left ⟨.plain '-', _, hd, rfl⟩)
  case cons.single.plain c =>
    show Stuck DashThen (c :: (items.flatMap SetItem.render ++ ']' :: r)) ↔ _
    rw [stuck_dashThen_cons, exists_literal_iff fun i hi => hv i (List.mem_cons_of_mem _ hi)]
    simp [SetItem.beginWithDash]
  all_goals simp [stuck_dashThen_cons, SetItem.beginWithDash, SetItem.render, Literal.render]

theorem each_itemRead_iff {items : List SetItem} {s r : List Char} :
    Each ItemRead items s (']' :: r) ↔
      (∀ i ∈ items, i.Valid) ∧ SetItem.Unmerged items ∧ s = items.flatMap SetItem.render := by
  induction items generalizing s with
  | nil =>
    constructor
    · rintro ⟨⟩
      exact ⟨by rintro i ⟨⟩, trivial, rfl⟩
    · rintro ⟨-, -, rfl⟩
      exact .nil
  | cons i items ih =>
    constructor
    · intro h
      cases h with
      | cons hi he =>
        obtain ⟨hv, hu, rfl⟩ := ih.1 he
        cases hi with
        | named hl => exact ⟨List.forall_mem_cons.2 ⟨hl, hv⟩, hu, rfl⟩
        | range ha hb => exact ⟨List.forall_mem_cons.2 ⟨⟨ha, hb⟩, hv⟩, hu, rfl⟩
        | single ha hs =>
          exact ⟨List.forall_mem_cons.2 ⟨ha, hv⟩, ⟨(stuck_dashThen_iff hv r).1 hs, hu⟩, rfl⟩
    · rintro ⟨hv, hu, rfl⟩
      obtain ⟨hi, hvs⟩ := List.forall_mem_cons.1 hv
      cases i with
      | named l => exact .cons (.named hi) (ih.2 ⟨hvs, hu, rfl⟩)
      | range a b => exact .cons (.range hi.1 hi.2) (ih.2 ⟨hvs, hu, rfl⟩)
      | single a =>
        exact .cons (.single hi ((stuck_dashThen_iff hvs r).2 hu.1)) (ih.2 ⟨hvs, hu.2, rfl⟩)

theorem stuck_itemRead (r : List Char) : Stuck ItemRead (']' :: r) := by
  intro i s r' h hi
  cases hi with
  | named => exact absurd (List.cons.inj h).1 (by decide)
  | range ha =>
    rw [List.append_assoc] at h
    exact render_ne_reserved ha (by decide) (by decide) _ _ h.symm
  | single ha => exact render_ne_reserved ha (by decide) (by decide) _ _ h.symm

theorem flatMap_render_ne_caret {items : List SetItem} (hv : ∀ i ∈ items, i.Valid)
    (r r' : List Char) : items.flatMap SetItem.render ++ ']' :: r ≠ '^' :: r' := by
  rcases items with _ | ⟨_ | ⟨a, b⟩ | a, items⟩
  · exact fun h => absurd (List.cons.inj h).1 (by decide)
  · exact fun h => absurd (List.cons.inj h).1 (by decide)
  · rw [List.flatMap_cons, SetItem.render, List.append_assoc, List.append_assoc]
    exact render_ne_reserved (hv _ List.mem_cons_self).1 (by decide) (by decide) _ _
  · rw [List.flatMap_cons, SetItem.render, List.append_assoc]
    exact render_ne_reserved (hv _ List.mem_cons_self) (by decide) (by decide) _ _

/-- **What is read as a set.** -/
theorem reads_set : set.Reads fun e s _ => ∃ negated items, e = .set negated items ∧
    (∀ i ∈ items, i.Valid) ∧ SetItem.Unmerged items ∧ s = Regex.renderSet negated items := by
  have hc : (do token "^"; return true : Parser Bool).Reads fun b s _ => b = true ∧ s = ['^'] := by
    refine ((reads_token "^").bind fun _ => reads_pure true).congr fun b s r => ?_
    constructor
    · rintro ⟨_, _, _, rfl, rfl, rfl, rfl⟩
      exact ⟨rfl, rfl⟩
    · rintro ⟨rfl, rfl⟩
      exact ⟨(), _, [], rfl, rfl, rfl, rfl⟩
  refine ((reads_token _).bind fun _ => (hc.orElse (reads_pure false)).bind fun negated =>
    (reads_setItem.many advances_setItem).bind fun items => (reads_token _).bind fun _ =>
    reads_pure (Regex.set negated items)).congr fun e s r => ?_
  constructor
  · rintro ⟨_, _, _, rfl, rfl, negated, _, _, rfl, hn, items, _, _, rfl, ⟨he, -⟩, _, _, _, rfl, rfl, rfl, rfl⟩
    obtain ⟨hv, hu, rfl⟩ := each_itemRead_iff.1 he
    refine ⟨negated, items, rfl, hv, hu, ?_⟩
    rcases hn with ⟨rfl, rfl⟩ | ⟨-, rfl, rfl⟩
    · rfl
    · rfl
  · rintro ⟨negated, items, rfl, hv, hu, rfl⟩
    refine ⟨(), _, _, rfl, rfl, negated, _, _, rfl, ?_, items, _, _, rfl,
      ⟨each_itemRead_iff.2 ⟨hv, hu, rfl⟩, stuck_itemRead r⟩, (), _, [], rfl, rfl, rfl, rfl⟩
    cases negated with
    | true => exact .inl ⟨rfl, rfl⟩
    | false =>
      refine .inr ⟨?_, rfl, rfl⟩
      rintro _ _ t h ⟨-, rfl⟩
      exact flatMap_render_ne_caret hv r t (by simpa using h)

end RegexNotation.Parser
