/-
  Each production does what its parser does.

  * `follows_literal`, `follows_set`, `follows_braces`, `follows_repetition` and the like: a production that gives
    nothing is back where it began;
  * `strays_hexDigits`, `strays_braced`, `strays_bounds`: what does not move back, and is always called by something
    that does;
  * `always_alternation`: an alternation always gives something, as deep as groups may nest.
-/
import RegexNotation.Proofs.Scan.Steps

namespace RegexNotation.Scan

variable {text : List Char} {d : Nat} {c : Cursor}

/-! ## Characters and sets -/

theorem exists_gives_hexRun (n : Nat) (hc : c.On text) (ds : List Char) : ∃ es c' m,
    ((Parser.charWhere Hex.isDigit .hexDigit).upTo n).run c = ⟨some (es, c'), m⟩ ∧
      Gives text d (hexRun n ds) c (ds ++ es) c' m := by
  induction n generalizing c ds with
  | zero =>
    refine ⟨[], c, .none, rfl, ?_⟩
    rw [List.append_nil]
    exact gives_pure ds c
  | succ n ih =>
    have hdigit := follows_eatIf (d := d) Hex.isDigit .hexDigit c hc
    rcases hr : (Parser.charWhere Hex.isDigit .hexDigit).run c with ⟨_ | ⟨x, c₁⟩, m⟩
    · rw [hr] at hdigit
      refine ⟨[], c, m, ?_, ?_⟩
      · rw [Parser.upTo, Parser.run_orElse_of_eq_none (Parser.run_bind_of_eq_none hr)]
        simp [Misses.join_none]
      · rw [List.append_nil]
        exact Gives.bind_of_none hdigit fun _ => gives_pure ds c
    · rw [hr] at hdigit
      obtain ⟨y, s, hs⟩ := Parser.advances_charWhere Hex.isDigit .hexDigit c x c₁ (by rw [hr])
      obtain ⟨es, c', m', hup, hrun⟩ := ih (hc.behind hs) (ds ++ [x])
      refine ⟨x :: es, c', m.join m', ?_, ?_⟩
      · rw [Parser.upTo, Parser.run_orElse, Parser.run_bind_of_eq_some hr, Parser.run_bind_of_eq_some hup]
        simp [Misses.join_none]
      · rw [List.append_cons]
        exact Gives.bind hdigit fun _ => hrun

theorem strays_hexDigits (lo hi : Nat) : Strays text d (hexDigits lo hi) (Parser.hexDigits lo hi) := by
  intro c hc
  obtain ⟨es, c', m, hup, hrun⟩ := exists_gives_hexRun (d := d) hi hc []
  refine ⟨c', ?_⟩
  rw [Parser.run_hexDigits, hup]
  refine Gives.bind_of_none hrun fun _ => ?_
  by_cases hl : es.length < lo
  · simp only [List.nil_append, hl, if_pos, Reading.filterMap, Option.bind_some, Nat.not_le.2 hl, if_neg,
      not_false_eq_true, Option.map_none, Option.getD_none]
    exact gives_pure none c'
  · simp only [List.nil_append, hl, if_false, Reading.filterMap, Option.bind_some, Nat.not_lt.1 hl, if_true,
      Option.map_some, Option.getD_some]
    exact gives_pure (some (String.ofList es)) c'

theorem strays_numbered (lead : String) (n : Nat) :
    Strays text d (numbered lead n) (do Parser.token lead; Parser.hexDigits n n) :=
  strays_eat_bind (strays_hexDigits n n) (gives_pure none)

theorem strays_braced : Strays text d braced
    (do Parser.token "u\x7b"; let ds ← Parser.hexDigits 1 6; Parser.token "\x7d"; return ds) := by
  refine strays_eat_bind ?_ (gives_pure none)
  refine (strays_hexDigits 1 6).bind (fun ds => ?_) (gives_pure none)
  exact strays_eat_bind (strays_pure ds) (gives_pure none)

theorem follows_literal : Follows text d literal Parser.literal := by
  intro c hc
  refine Does.orElse (follows_eatIf _ _ c hc) (fun _ _ => gives_pure _ _) fun _ => ?_
  refine does_position fun _ => does_eat_bind (fun c' hc' => ?_) fun _ => gives_pure none c
  -- behind the backslash
  obtain ⟨c₁, h₁⟩ := strays_numbered (d := d) "u" 4 c' hc'
  obtain ⟨c₂, h₂⟩ := strays_numbered (d := d) "x" 2 c' hc'
  obtain ⟨c₃, h₃⟩ := strays_braced (d := d) c' hc'
  refine Does.orElse (follows_eatIf _ _ c' hc') (fun _ _ => gives_pure _ _) fun _ => ?_
  refine Does.orElse (follows_eatIf _ _ c' hc') (fun _ _ => gives_pure _ _) fun _ => ?_
  refine does_position fun _ => Does.orElse h₁ (fun _ _ => gives_pure _ _) fun _ => ?_
  refine does_moveTo hc' (Does.orElse h₂ (fun _ _ => gives_pure _ _) fun _ => ?_)
  refine does_moveTo hc' (Does.bind h₃ (fun ds _ _ => does_pure _ _) fun _ => ?_)
  exact gives_moveBack hc c₃

theorem follows_setLetter : Follows text d setLetter Parser.setLetter := by
  intro c hc
  refine does_position fun _ => does_eat_bind (fun c' hc' => ?_) fun _ => gives_pure none c
  refine Does.bind_pure (follows_eatIf _ _ c' hc') (fun _ _ => gives_pure _ _) fun _ => ?_
  exact gives_moveBack hc c'

theorem strays_rangeEnd : Strays text d rangeEnd (do Parser.token "-"; Parser.literal) :=
  strays_eat_bind follows_literal.strays (gives_pure none)

theorem follows_setItem : Follows text d setItem Parser.setItem := by
  intro c hc
  refine Does.orElse (follows_setLetter c hc) (fun _ _ => gives_pure _ _) fun _ => ?_
  refine Does.bind (follows_literal c hc) (fun a c' hc' => ?_) fun _ => gives_pure none c
  -- behind the first character
  obtain ⟨c₁, h⟩ := strays_rangeEnd (d := d) c' hc'
  refine does_position fun _ => Does.orElse h (fun _ _ => gives_pure _ _) fun _ => ?_
  exact does_moveTo hc' (does_pure _ c')

theorem follows_set : Follows text d set Parser.set := by
  intro c hc
  refine does_position fun _ => does_eat_bind (fun c' hc' => ?_) fun _ => gives_pure none c
  refine (always_eat "^").does_bind hc' fun negated c₁ hc₁ => ?_
  refine (follows_setItem.always_list Parser.advances_setItem).does_bind hc₁ fun items c₂ _ => ?_
  refine does_eat_bind (fun c' _ => does_pure _ c') fun _ => ?_
  exact gives_moveBack hc c₂

/-! ## Quantifiers -/

theorem gives_loop_blank {n : Nat} (hc : c.On text) (hn : c.rest.length < n) :
    Gives text d (loop blank (fun _ _ => ()) n ()) c () (.skipWhile Text.isBlank c.offset c.rest) .none := by
  induction n generalizing c with
  | zero => exact absurd hn (Nat.not_lt_zero _)
  | succ n ih =>
    have hpeek : Gives text d peek c c.rest.head? c .none := gives_peek c
    obtain ⟨o, _ | ⟨x, l⟩⟩ := c
    · exact Gives.bind_none (hpeek.bind_none fun _ => gives_pure none _) fun _ => gives_pure () _
    · by_cases hx : Text.isBlank x
      · have hblank : Gives text d blank ⟨o, x :: l⟩ (some ()) ⟨o + x.utf8Size, l⟩ .none := by
          refine hpeek.bind_none fun _ => ?_
          simp only [List.head?_cons, Option.filter_some, hx, if_true]
          exact (gives_advance (s := [x]) (.cons (.refl _))).bind_none fun _ => gives_pure (some ()) _
        rw [Cursor.skipWhile, if_pos hx]
        exact hblank.bind_none fun hc' => ih hc' (Nat.lt_of_succ_lt_succ hn)
      · have hblank : Gives text d blank ⟨o, x :: l⟩ none ⟨o, x :: l⟩ .none := by
          refine hpeek.bind_none fun _ => ?_
          simp only [List.head?_cons, Option.filter_some, hx]
          exact gives_pure none _
        rw [Cursor.skipWhile, if_neg hx]
        exact hblank.bind_none fun _ => gives_pure () _

theorem always_blanks : Always text d blanks Parser.blanks := fun _ hc =>
  ⟨(), _, .none, rfl, gives_loop_blank hc (Nat.lt_succ_of_le hc.length_le)⟩

/-- One or more digits are any number of them, unless there are none. -/
theorem run_digits_of_run_many {ds : List Char} {c' : Cursor} {m : Misses}
    (h : Parser.digit.many.run c = ⟨some (ds, c'), m⟩) :
    ds = [] ∧ c' = c ∧ Parser.digits.run c = ⟨none, m⟩ ∨ ds ≠ [] ∧ Parser.digits.run c = ⟨some (ds, c'), m⟩ := by
  rw [Parser.many_eq Parser.advances_digit] at h
  rcases hr : Parser.digit.run c with ⟨_ | ⟨x, c₁⟩, m₁⟩
  · simp only [hr, Reading.mk.injEq, Option.some.injEq, Prod.mk.injEq] at h
    obtain ⟨⟨rfl, rfl⟩, rfl⟩ := h
    exact .inl ⟨rfl, rfl, Parser.run_bind_of_eq_none hr⟩
  · rcases hm : Parser.digit.many.run c₁ with ⟨_ | ⟨ds', c₂⟩, m₂⟩
    · obtain ⟨as, c₂, ho, -⟩ := Parser.outcome_many Parser.advances_digit c₁
      rw [hm] at ho
      cases ho
    · simp only [hr, hm, Option.map_some, Reading.mk.injEq, Option.some.injEq, Prod.mk.injEq] at h
      obtain ⟨⟨rfl, rfl⟩, rfl⟩ := h
      refine .inr ⟨List.cons_ne_nil x ds', ?_⟩
      rw [Parser.digits, Parser.run_bind_of_eq_some hr, Parser.run_bind_of_eq_some hm]
      simp [Misses.join_none]

theorem follows_number : Follows text d number Parser.bound := by
  intro c hc
  have hdigit : Follows text d (eatIf Char.isDigit .digit) Parser.digit := follows_eatIf _ _
  obtain ⟨ds, c', m, hmany, hlist⟩ := hdigit.always_list Parser.advances_digit c hc
  refine does_position fun _ => ?_
  rcases run_digits_of_run_many hmany with ⟨rfl, rfl, hrun⟩ | ⟨hne, hrun⟩
  · have hbound : Parser.bound.run c' = ⟨none, m⟩ := by simp only [Parser.bound, Parser.accept, hrun]
    rw [hbound]
    exact Gives.bind_of_none hlist fun _ => gives_pure none c'
  · rcases hv : Parser.boundOfDigits ds with _ | n
    · have hbound : Parser.bound.run c = ⟨none, m.join ⟨c.offset, [.number]⟩⟩ := by
        simp only [Parser.bound, Parser.accept, hrun, hv]
      rw [hbound]
      refine Gives.bind hlist fun _ => ?_
      rw [if_neg hne, hv]
      -- the number is missed where the digits begin
      refine (gives_moveTo hc c').bind_none fun _ => ?_
      exact (gives_fail .number c).bind_of_none fun _ => gives_pure none c
    · have hbound : Parser.bound.run c = ⟨some (n, c'), m⟩ := by
        simp only [Parser.bound, Parser.accept, hrun, hv]
      rw [hbound]
      refine Gives.bind_of_none hlist fun _ => ?_
      rw [if_neg hne, hv]
      exact gives_pure (some n) c'

/-- In front of a digit, whatever is missed in a bound is missed further on. -/
theorem lt_misses_bound {x : Char} {l : List Char} (hx : x.isDigit) (o : Nat) :
    o < (Parser.bound.run ⟨o, x :: l⟩).misses.offset := by
  obtain ⟨ds, c', hmany, -⟩ := Parser.outcome_many Parser.advances_digit ⟨o + x.utf8Size, l⟩
  have hdigits : (Parser.digits.run ⟨o, x :: l⟩).outcome = some (x :: ds, c') := by
    rw [Parser.digits, Parser.run_bind_of_eq_some (Parser.run_digit hx l o), Parser.run_bind, hmany]
    rfl
  obtain ⟨_, _, hs⟩ := Parser.advances_digits _ _ _ hdigits
  rw [Parser.misses_bound]
  exact Nat.lt_of_lt_of_le hs.lt (Parser.reaches_digits _ _ _ hdigits)

/-- The program gives the bounds that the parser reads.  Only a second bound that is too large is given up at once,
    while the parser goes on without it, and has missed something behind the digit that stands there. -/
def GivesBounds (text : List Char) (d : Nat) (n : UInt32) (p : Scan (Option Quantifier)) (q : Parser Quantifier)
    (c : Cursor) : Prop :=
  (∃ b c' m, q.run c = ⟨some (b, c'), m⟩ ∧ Gives text d p c (some b) c' m) ∨
    ∃ o x l m, x.isDigit ∧ o < m.offset ∧ q.run c = ⟨some (.atLeast n, ⟨o, x :: l⟩), m⟩ ∧
      Gives text d p c none ⟨o, x :: l⟩ m

theorem gives_secondBound (n : UInt32) (hc : c.On text) :
    GivesBounds text d n (secondBound n) (Quantifier.between n <$> Parser.bound <|> pure (.atLeast n)) c := by
  obtain ⟨o, l⟩ := c
  have hpeek : Gives text d peek ⟨o, l⟩ l.head? ⟨o, l⟩ .none := gives_peek _
  rcases hhead : l.head?.filter Char.isDigit with _ | x
  · have hl : ∀ x ∈ l.head?, x.isDigit = false := by simpa [Option.filter_eq_none_iff] using hhead
    have hr := Parser.run_bound_eq_none hl o
    refine .inl ⟨.atLeast n, ⟨o, l⟩, ⟨o, [.digit]⟩, ?_, hpeek.bind_none fun _ => ?_⟩
    · rw [Parser.run_orElse_of_eq_none (Parser.run_map_of_eq_none _ hr)]
      simp [Misses.join_none]
    · rw [hhead]
      exact (gives_fail .digit _).bind_of_none fun _ => gives_pure _ _
  · obtain ⟨hx, hdigit⟩ := Option.filter_eq_some_iff.1 hhead
    obtain ⟨l, rfl⟩ := List.head?_eq_some_iff.1 hx
    have hnumber := follows_number (d := d) ⟨o, x :: l⟩ hc
    have hlt := lt_misses_bound (l := l) hdigit o
    rcases hr : Parser.bound.run ⟨o, x :: l⟩ with ⟨_ | ⟨n', c'⟩, m⟩
    · rw [hr] at hnumber hlt
      refine .inr ⟨o, x, l, m, hdigit, hlt, ?_, hpeek.bind_none fun _ => ?_⟩
      · rw [Parser.run_orElse_of_eq_none (Parser.run_map_of_eq_none _ hr)]
        simp [Misses.join_none]
      · rw [hhead]
        exact Gives.bind_of_none hnumber fun _ => gives_pure none _
    · rw [hr] at hnumber
      refine .inl ⟨.between n n', c', m, ?_, hpeek.bind_none fun _ => ?_⟩
      · exact Parser.run_orElse_of_eq_some (Parser.run_map_of_eq_some _ hr)
      · rw [hhead]
        exact Gives.bind_of_none hnumber fun _ => gives_pure _ c'

theorem gives_boundsFrom (n : UInt32) (hc : c.On text) :
    GivesBounds text d n (boundsFrom n) (Parser.boundsFrom n) c := by
  rcases hs : c.strip? ",".toList with _ | c₁
  · refine .inl ⟨.exactly n, c, ⟨c.offset, [.token ","]⟩, ?_, ?_⟩
    · rw [Parser.boundsFrom,
        Parser.run_orElse_of_eq_none (Parser.run_bind_of_eq_none (Parser.run_token_of_eq_none hs))]
      simp [Misses.join_none]
    · exact (gives_eat_of_eq_none hs).bind_of_none fun _ => gives_pure _ c
  · have hc₁ := hc.behind (Cursor.behind_of_strip? hs)
    obtain ⟨⟨⟩, c₂, m₂, hskip, hblanks⟩ := always_blanks (d := d) c₁ hc₁
    obtain rfl : m₂ = .none := (congrArg Reading.misses hskip).symm
    -- what is read behind the comma and the blanks is all that is read
    have hparser {b : Quantifier} {c' : Cursor} {m : Misses}
        (h : (Quantifier.between n <$> Parser.bound <|> pure (.atLeast n)).run c₂ = ⟨some (b, c'), m⟩) :
        (Parser.boundsFrom n).run c = ⟨some (b, c'), m⟩ := by
      refine Parser.run_orElse_of_eq_some ?_
      rw [Parser.run_bind_of_eq_some (Parser.run_token_of_eq_some hs), Parser.run_bind_of_eq_some hskip, h]
      simp only [Misses.none_join]
    have hscan {r : Option Quantifier} {c' : Cursor} {m : Misses} (h : Gives text d (secondBound n) c₂ r c' m) :
        Gives text d (boundsFrom n) c r c' m :=
      (gives_eat_of_eq_some hs).bind_none fun _ => hblanks.bind_none fun _ => h
    rcases gives_secondBound (d := d) n (hblanks.on hc₁) with ⟨b, c', m, hrun, h⟩ | ⟨o, x, l, m, hx, ho, hrun, h⟩
    · exact .inl ⟨b, c', m, hparser hrun, hscan h⟩
    · exact .inr ⟨o, x, l, m, hx, ho, hparser hrun, hscan h⟩

/-- The end of bounds, behind the first of them. -/
theorem strays_boundsFrom {f : Option Quantifier → Scan (Option Quantifier)} (n : UInt32)
    (hsome : ∀ q, Strays text d (f (some q)) (do Parser.blanks; Parser.token "\x7d"; return q))
    (hnone : ∀ c, Gives text d (f none) c none c .none) :
    Strays text d (boundsFrom n >>= f) (do
      let q ← Parser.boundsFrom n; Parser.blanks; Parser.token "\x7d"; return q) := by
  intro c hc
  rcases gives_boundsFrom (d := d) n hc with ⟨q, c', m, hrun, h⟩ | ⟨o, x, l, m, hx, ho, hrun, h⟩
  · obtain ⟨back, h'⟩ := hsome q c' (h.on hc)
    refine ⟨back, ?_⟩
    rw [Parser.run_bind_of_eq_some hrun]
    exact Gives.bind h fun _ => h'
  · refine ⟨⟨o, x :: l⟩, ?_⟩
    have hblank : ∀ y ∈ (x :: l).head?, Text.isBlank y = false := by
      rintro _ ⟨⟩
      exact Parser.isBlank_of_isDigit hx
    have hbrace : ∀ y ∈ (x :: l).head?, y ≠ '}' := by
      rintro _ ⟨⟩ rfl
      exact absurd hx (by decide)
    have hskip := Parser.run_blanks .nil hblank o
    rw [List.nil_append] at hskip
    rw [Parser.run_bind_of_eq_some hrun, Parser.run_bind_of_eq_some hskip,
      Parser.run_bind_of_eq_none (Parser.run_token_eq_none "\x7d" '}' rfl hbrace _)]
    -- the brace is missed in front of what the bound has missed
    have hjoin : m.join (Misses.join .none ⟨o + Cursor.utf8Length [], [.token "\x7d"]⟩) = m := by
      rw [Misses.none_join, Misses.join_of_gt ho]
    rw [hjoin]
    exact Gives.bind_of_none h fun _ => hnone _

theorem strays_bounds : Strays text d bounds Parser.bounds := by
  refine strays_eat_bind ?_ (gives_pure none)
  refine always_blanks.strays_bind fun _ => ?_
  refine follows_number.strays.bind (fun n => ?_) (gives_pure none)
  refine always_blanks.strays_bind fun _ => strays_boundsFrom n (fun q => ?_) (gives_pure none)
  refine always_blanks.strays_bind fun _ => ?_
  exact strays_eat_bind (strays_pure q) (gives_pure none)

theorem follows_braces : Follows text d braces Parser.bounds := by
  intro c hc
  obtain ⟨c₁, h⟩ := strays_bounds (d := d) c hc
  refine does_position fun _ => Does.bind_pure h (fun _ _ => gives_pure _ _) fun _ => ?_
  exact gives_moveBack hc c₁

/-! ## Patterns -/

/-- Groups may still nest, and the inside of one is read as it should be. -/
def ReadsGroups (text : List Char) (d : Nat) (inside : Scan Regex) : Prop :=
  d ≤ maxNesting ∧ (d < maxNesting → Always text (d + 1) inside (Parser.inside (maxNesting - d)))

/-- An expression with or without a quantifier, as one choice. -/
theorem quantified_orElse (e : Regex) : (Regex.quantified e <$> Parser.quantifier <|> pure e) =
    ((do Parser.token "*"; return .quantified e .star) <|> (do Parser.token "+"; return .quantified e .plus) <|>
      (do Parser.token "?"; return .quantified e .opt) <|> Regex.quantified e <$> Parser.bounds <|> pure e) := by
  simp only [Parser.quantifier, Parser.map_orElse, Parser.map_token, Parser.orElse_assoc]

section
variable {inside : Scan Regex} (hi : ReadsGroups text d inside)
include hi

theorem follows_group (kind : GroupKind) :
    Follows text d (group inside kind) (Parser.group (Parser.inside (maxNesting - d)) kind) := by
  intro c hc
  refine does_position fun _ => does_eat_bind (fun c' hc' => ?_) fun _ => gives_pure none c
  refine (gives_depth c').bind_none fun _ => ?_
  rcases Nat.lt_or_eq_of_le hi.1 with hlt | rfl
  · rw [if_neg (Nat.ne_of_lt hlt)]
    have hdeeper : Always text d (deeper inside) (Parser.inside (maxNesting - d)) := fun c hc => by
      obtain ⟨e, c', m, hrun, h⟩ := hi.2 hlt c hc
      exact ⟨e, c', m, hrun, gives_deeper h⟩
    refine hdeeper.does_bind hc' fun e c₁ _ => does_eat_bind (fun c' _ => does_pure _ c') fun _ => ?_
    exact gives_moveBack hc c₁
  · rw [if_pos rfl, Nat.sub_self]
    exact (gives_fail _ c').bind_of_none fun _ => gives_moveBack hc c'

theorem follows_atom : Follows text d (atom inside) (Parser.atom (Parser.inside (maxNesting - d))) := by
  intro c hc
  refine Does.orElse_self (follows_group hi .plain c hc) (fun _ _ => gives_pure _ _) fun _ => ?_
  refine Does.orElse_self (follows_group hi .capture c hc) (fun _ _ => gives_pure _ _) fun _ => ?_
  refine does_eat_orElse (fun _ => gives_pure _ _) fun _ => ?_
  refine does_eat_orElse (fun _ => gives_pure _ _) fun _ => ?_
  refine does_eat_orElse (fun _ => gives_pure _ _) fun _ => ?_
  refine Does.orElse_self (follows_set c hc) (fun _ _ => gives_pure _ _) fun _ => ?_
  refine Does.orElse (follows_setLetter c hc) (fun _ _ => gives_pure _ _) fun _ => ?_
  exact Does.bind (follows_literal c hc) (fun _ _ _ => does_pure _ _) fun _ => gives_pure none c

theorem follows_repetition :
    Follows text d (repetition inside) (Parser.repetition (Parser.inside (maxNesting - d))) := by
  intro c hc
  refine Does.bind (follows_atom hi c hc) (fun e c' hc' => ?_) fun _ => gives_pure none c
  rw [quantified_orElse]
  refine does_eat_orElse (fun _ => gives_pure _ _) fun _ => ?_
  refine does_eat_orElse (fun _ => gives_pure _ _) fun _ => ?_
  refine does_eat_orElse (fun _ => gives_pure _ _) fun _ => ?_
  exact Does.orElse (follows_braces c' hc') (fun _ _ => gives_pure _ _) fun _ => does_pure e c'

theorem always_concatenation :
    Always text d (concatenation inside) (Parser.concatenation (Parser.inside (maxNesting - d))) := by
  intro c hc
  have hq := Parser.advances_repetition (Parser.consumes_inside (maxNesting - d))
  have hrepetition := follows_repetition hi
  have hfirst := hrepetition c hc
  rcases hr : (Parser.repetition (Parser.inside (maxNesting - d))).run c with ⟨_ | ⟨e, c₁⟩, m₁⟩
  · rw [hr] at hfirst
    refine ⟨.blank, c, m₁, ?_, Gives.bind_of_none hfirst fun _ => gives_pure Regex.blank c⟩
    refine Parser.run_map_of_eq_some (a := []) Regex.concat ?_
    rw [Parser.many_eq hq, hr]
  · rw [hr] at hfirst
    have hc₁ : c₁.On text := Gives.on hfirst hc
    obtain ⟨es, c', m, hmany, hloop⟩ :=
      hrepetition.exists_gives_loop hq .cat hc₁ (Nat.lt_succ_of_le hc₁.length_le) e
    refine ⟨.concat (e :: es), c', m₁.join m, ?_, Gives.bind hfirst fun _ => hloop⟩
    refine Parser.run_map_of_eq_some Regex.concat ?_
    rw [Parser.many_eq hq, hr]
    simp [hmany]

theorem follows_bar : Follows text d (bar inside)
    (do Parser.token "|"; Parser.concatenation (Parser.inside (maxNesting - d))) := by
  intro c hc
  refine does_eat_bind (fun c' hc' => ?_) fun _ => gives_pure none c
  obtain ⟨e, c₁, m, hrun, h⟩ := always_concatenation hi c' hc'
  rw [hrun]
  exact Gives.bind_of_none h fun _ => gives_pure (some e) c₁

theorem always_alternation :
    Always text d (alternation inside) (Parser.alternation (Parser.inside (maxNesting - d))) :=
  (always_concatenation hi).bind fun e =>
    (follows_bar hi).always_collect (Parser.advances_bar (Parser.consumes_inside _)) .alt e

end

theorem readsGroups_nested {n : Nat} (hd : d ≤ maxNesting) (hn : maxNesting ≤ d + n) :
    ReadsGroups text d (nested n) := by
  refine ⟨hd, fun hlt => ?_⟩
  induction n generalizing d with
  | zero => omega
  | succ n ih =>
    have hnext : ReadsGroups text (d + 1) (nested n) := ⟨hlt, fun hlt' => ih hlt (by omega) hlt'⟩
    rw [show maxNesting - d = (maxNesting - (d + 1)) + 1 by omega]
    exact always_alternation hnext

theorem always_pattern : Always text 0 pattern Parser.pattern :=
  always_alternation (readsGroups_nested (Nat.zero_le _) (Nat.le_refl _))

end RegexNotation.Scan
