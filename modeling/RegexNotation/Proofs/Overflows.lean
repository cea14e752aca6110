/-
  Bounds that are too large.

  Where the value of a run of digits does not fit into 32 bits, a `number` is missed at the beginning of the run.  By
  then a further `digit` has been missed behind its end, and only the furthest misses count.  Hence

  * `run_quantifier_of_tooLarge`: on a bound that is too large a quantifier fails, and all that it leaves as missed is
    a digit behind the bound;
  * `Regex.parse_eq_error_of_tooLarge`: so says the error, for either bound, whatever follows the digits;
  * `Regex.number_not_mem_expected`: no error of any text describes a number.
-/
import RegexNotation.Proofs.Nesting

namespace RegexNotation

open Cursor (utf8Length)
open Regex (Written)

theorem Misses.join_of_lt {a b : Misses} (h : a.offset < b.offset) : a.join b = b := if_pos h

theorem Misses.join_of_gt {a b : Misses} (h : b.offset < a.offset) : a.join b = a := by
  rw [Misses.join, if_neg (Nat.not_lt.2 (Nat.le_of_lt h)), if_pos h]

namespace Parser

variable {w w' ds es r : List Char} {n : UInt32}

/-! ## Digits -/

theorem run_digit {c : Char} (hc : c.isDigit) (l : List Char) (o : Nat) :
    digit.run ⟨o, c :: l⟩ = ⟨some (c, ⟨o + c.utf8Size, l⟩), .none⟩ := by
  simp [digit, charWhere, hc]

theorem run_digit_eq_none (hr : ∀ c ∈ r.head?, c.isDigit = false) (o : Nat) :
    digit.run ⟨o, r⟩ = ⟨none, ⟨o, [.digit]⟩⟩ := by
  rcases r with _ | ⟨x, r⟩
  · rfl
  · simp [digit, charWhere, hr x rfl]

theorem run_many_digit (hds : ∀ c ∈ ds, c.isDigit) (hr : ∀ c ∈ r.head?, c.isDigit = false) (o : Nat) :
    digit.many.run ⟨o, ds ++ r⟩ = ⟨some (ds, ⟨o + utf8Length ds, r⟩), ⟨o + utf8Length ds, [.digit]⟩⟩ := by
  induction ds generalizing o with
  | nil =>
    rw [many_eq advances_digit]
    simp [run_digit_eq_none hr, utf8Length]
  | cons c ds ih =>
    obtain ⟨hc, hds⟩ := List.forall_mem_cons.1 hds
    rw [many_eq advances_digit]
    simp [run_digit hc, ih hds, utf8Length, Misses.none_join, Nat.add_assoc]

/-- A run of digits is read to its end, and one more digit is missed there. -/
theorem run_digits (hne : ds ≠ []) (hds : ∀ c ∈ ds, c.isDigit) (hr : ∀ c ∈ r.head?, c.isDigit = false) (o : Nat) :
    digits.run ⟨o, ds ++ r⟩ = ⟨some (ds, ⟨o + utf8Length ds, r⟩), ⟨o + utf8Length ds, [.digit]⟩⟩ := by
  obtain ⟨c, ds, rfl⟩ := List.exists_cons_of_ne_nil hne
  obtain ⟨hc, hds⟩ := List.forall_mem_cons.1 hds
  rw [digits, List.cons_append, run_bind_of_eq_some (run_digit hc _ o), run_bind_of_eq_some (run_many_digit hds hr _)]
  simp [utf8Length, Misses.none_join, Misses.join_none, Nat.add_assoc]

theorem run_bound_of_isNumeral (h : IsNumeral n ds) (hr : ∀ c ∈ r.head?, c.isDigit = false) (o : Nat) :
    bound.run ⟨o, ds ++ r⟩ = ⟨some (n, ⟨o + utf8Length ds, r⟩), ⟨o + utf8Length ds, [.digit]⟩⟩ := by
  rw [bound, run_accept advances_digits reaches_digits, run_digits h.1 h.2.1 hr, Reading.filterMap]
  simp [boundOfDigits_eq_some.2 h.2.2]

theorem run_bound_eq_none (hr : ∀ c ∈ r.head?, c.isDigit = false) (o : Nat) :
    bound.run ⟨o, r⟩ = ⟨none, ⟨o, [.digit]⟩⟩ := by
  have hdigits : digits.run ⟨o, r⟩ = ⟨none, ⟨o, [.digit]⟩⟩ := run_bind_of_eq_none (run_digit_eq_none hr o)
  rw [bound, run_accept advances_digits reaches_digits, hdigits]
  rfl

/-- The digits have a value of more than 32 bits. -/
def TooLarge (ds : List Char) : Prop := (∀ c ∈ ds, c.isDigit) ∧ 4294967295 < Nat.ofDigitChars 10 ds 0

theorem TooLarge.ne_nil (h : TooLarge ds) : ds ≠ [] := by
  rintro rfl
  exact absurd h.2 (by decide)

theorem TooLarge.utf8Length_pos (h : TooLarge ds) : 0 < utf8Length ds :=
  Nat.pos_of_ne_zero (mt Cursor.utf8Length_eq_zero h.ne_nil)

/-- The number that is missed at the beginning of the digits is forgotten: it is not the furthest miss. -/
theorem run_bound_of_tooLarge (h : TooLarge ds) (hr : ∀ c ∈ r.head?, c.isDigit = false) (o : Nat) :
    bound.run ⟨o, ds ++ r⟩ = ⟨none, ⟨o + utf8Length ds, [.digit]⟩⟩ := by
  have hvalue : boundOfDigits ds = none := if_neg (Nat.not_lt.2 h.2)
  rw [bound, run_accept advances_digits reaches_digits, run_digits h.ne_nil h.1 hr, Reading.filterMap]
  simp [hvalue]

/-! ## Quantifiers -/

theorem run_blanks (hw : AllBlank w) (hr : ∀ c ∈ r.head?, Text.isBlank c = false) (o : Nat) :
    blanks.run ⟨o, w ++ r⟩ = ⟨some ((), ⟨o + utf8Length w, r⟩), .none⟩ := by
  show (⟨some ((), Cursor.skipWhile Text.isBlank o (w ++ r)), .none⟩ : Reading Unit) = _
  rw [skipWhile_append hw hr]

theorem run_token_cons (text : String) (x : Char) (ht : text.toList = [x]) (l : List Char) (o : Nat) :
    (token text).run ⟨o, x :: l⟩ = ⟨some ((), ⟨o + x.utf8Size, l⟩), .none⟩ := by
  simp [token, ht, Cursor.strip?]

theorem run_token_eq_none (text : String) (x : Char) {t l : List Char} (ht : text.toList = x :: t)
    (hl : ∀ y ∈ l.head?, y ≠ x) (o : Nat) : (token text).run ⟨o, l⟩ = ⟨none, ⟨o, [.token text]⟩⟩ := by
  rcases l with _ | ⟨y, l⟩
  · simp [token, ht, Cursor.strip?]
  · simp [token, ht, Cursor.strip?, (hl y rfl).symm]

/-- A second bound that is too large is read as if there was none, and no brace closes in front of it. -/
theorem run_comma_of_tooLarge (hw : AllBlank w) (h : TooLarge ds) (hr : ∀ c ∈ r.head?, c.isDigit = false) (n : UInt32)
    (o : Nat) : (do let q ← boundsFrom n; blanks; token "\x7d"; return q : Parser Quantifier).run
      ⟨o, ',' :: (w ++ (ds ++ r))⟩ = ⟨none, ⟨o + utf8Length (',' :: (w ++ ds)), [.digit]⟩⟩ := by
  have hdigit := head?_digits_append h.ne_nil h.1 r
  have hblank : ∀ c ∈ (ds ++ r).head?, Text.isBlank c = false := fun c hc => isBlank_of_isDigit (hdigit c hc)
  have hbrace : ∀ c ∈ (ds ++ r).head?, c ≠ '}' := by
    rintro c hc rfl
    exact absurd (hdigit _ hc) (by decide)
  have hfrom : (boundsFrom n).run ⟨o, ',' :: (w ++ (ds ++ r))⟩ =
      ⟨some (.atLeast n, ⟨o + utf8Length (',' :: w), ds ++ r⟩), ⟨o + utf8Length (',' :: (w ++ ds)), [.digit]⟩⟩ := by
    refine run_orElse_of_eq_some ?_
    rw [run_bind_of_eq_some (run_token_cons "," ',' rfl _ o), run_bind_of_eq_some (run_blanks hw hblank _),
      run_orElse_of_eq_none (run_map_of_eq_none _ (run_bound_of_tooLarge h hr _))]
    simp [Misses.none_join, Misses.join_none, utf8Length, Cursor.utf8Length_append, Nat.add_assoc]
  rw [run_bind_of_eq_some hfrom]
  have hskip := run_blanks .nil hblank (o + utf8Length (',' :: w))
  rw [List.nil_append] at hskip
  rw [run_bind_of_eq_some hskip, run_bind_of_eq_none (run_token_eq_none "\x7d" '}' rfl hbrace _), Misses.none_join,
    Misses.join_of_gt]
  have hpos := h.utf8Length_pos
  simp only [utf8Length, Cursor.utf8Length_append]
  omega

/-- What stands in front of a bound: a brace and blanks, and, if it is the second one, the first bound and a comma. -/
inductive BeforeBound : List Char → Prop
  | first {w : List Char} : AllBlank w → BeforeBound ('{' :: w)
  | second {w es w' u : List Char} {n : UInt32} : AllBlank w → IsNumeral n es → AllBlank w' → AllBlank u →
      BeforeBound ('{' :: (w ++ (es ++ (w' ++ ',' :: u))))

theorem run_bounds_of_tooLarge {b : List Char} (hb : BeforeBound b) (h : TooLarge ds)
    (hr : ∀ c ∈ r.head?, c.isDigit = false) (o : Nat) :
    bounds.run ⟨o, b ++ (ds ++ r)⟩ = ⟨none, ⟨o + utf8Length (b ++ ds), [.digit]⟩⟩ := by
  cases hb with
  | @first w hw =>
    have hblank : ∀ c ∈ (ds ++ r).head?, Text.isBlank c = false := fun c hc =>
      isBlank_of_isDigit (head?_digits_append h.ne_nil h.1 r c hc)
    rw [bounds, List.cons_append, run_bind_of_eq_some (run_token_cons "\x7b" '{' rfl _ o),
      run_bind_of_eq_some (run_blanks hw hblank _), run_bind_of_eq_none (run_bound_of_tooLarge h hr _)]
    simp [Misses.none_join, utf8Length, Cursor.utf8Length_append, Nat.add_assoc]
  | @second w es w' u n hw hn hw' hu =>
    have hcomma : ∀ c ∈ (',' :: (u ++ (ds ++ r))).head?, Text.isBlank c = false ∧ c.isDigit = false := by
      rintro _ ⟨⟩
      decide
    have hend := head?_blank_append hw' fun c hc => (hcomma c hc).2
    have htext : '{' :: (w ++ (es ++ (w' ++ ',' :: u))) ++ (ds ++ r) =
        '{' :: (w ++ (es ++ (w' ++ ',' :: (u ++ (ds ++ r))))) := by simp
    rw [htext, bounds, run_bind_of_eq_some (run_token_cons "\x7b" '{' rfl _ o),
      run_bind_of_eq_some (run_blanks hw (head?_numeral_append hn _) _),
      run_bind_of_eq_some (run_bound_of_isNumeral hn hend _),
      run_bind_of_eq_some (run_blanks hw' (fun c hc => (hcomma c hc).1) _), run_comma_of_tooLarge hu h hr]
    simp only [Misses.none_join]
    rw [Misses.join_of_lt]
    · simp [utf8Length, Cursor.utf8Length_append, Nat.add_assoc]
    · have hpos := h.utf8Length_pos
      simp only [utf8Length, Cursor.utf8Length_append]
      omega

/-- **On a bound that is too large a quantifier fails**, and what it leaves as missed is a digit behind the bound. -/
theorem run_quantifier_of_tooLarge {b : List Char} (hb : BeforeBound b) (h : TooLarge ds)
    (hr : ∀ c ∈ r.head?, c.isDigit = false) (o : Nat) :
    quantifier.run ⟨o, b ++ (ds ++ r)⟩ = ⟨none, ⟨o + utf8Length (b ++ ds), [.digit]⟩⟩ := by
  have hhead : ∀ c ∈ (b ++ (ds ++ r)).head?, c = '{' := by cases hb <;> rintro _ ⟨⟩ <;> rfl
  have hmark (text : String) (x : Char) (ht : text.toList = [x]) (hx : x ≠ '{') (q : Quantifier) :
      (do token text; return q : Parser Quantifier).run ⟨o, b ++ (ds ++ r)⟩ = ⟨none, ⟨o, [.token text]⟩⟩ :=
    run_bind_of_eq_none (run_token_eq_none text x ht (fun y hy => by rw [hhead y hy]; exact hx.symm) o)
  have hjoin (l : List Expected) : Misses.join ⟨o, l⟩ ⟨o + utf8Length (b ++ ds), [.digit]⟩ =
      ⟨o + utf8Length (b ++ ds), [.digit]⟩ := by
    refine Misses.join_of_lt (Nat.lt_add_of_pos_right ?_)
    rw [Cursor.utf8Length_append]
    exact Nat.add_pos_right _ h.utf8Length_pos
  rw [quantifier, run_orElse_of_eq_none (hmark "*" '*' rfl (by decide) .star),
    run_orElse_of_eq_none (hmark "+" '+' rfl (by decide) .plus),
    run_orElse_of_eq_none (hmark "?" '?' rfl (by decide) .opt), run_bounds_of_tooLarge hb h hr]
  simp only [hjoin]

/-! ## Atoms -/

/-- Nothing is missed behind the end of the text. -/
theorem Wants.offset_misses_le {α : Type} {p : Parser α} {W : List Char → Expected → Prop} (h : p.Wants W)
    (c : Cursor) : (p.run c).misses.offset ≤ c.offset + utf8Length c.rest := by
  obtain ⟨hnil, hall⟩ := h c
  rcases hw : (p.run c).misses.wanted with _ | ⟨d, l⟩
  · rw [hnil hw]
    exact Nat.zero_le _
  · obtain ⟨s, c', hs, ho, -⟩ := hall d (by simp [hw])
    rw [ho, hs.2, hs.1, Cursor.utf8Length_append, ← Nat.add_assoc]
    exact Nat.le_add_right ..

section
variable {d : Nat} {e : Regex} {a t : List Char}

/-- No atom is the beginning of another one. -/
theorem append_not_mem_atom (h : Written .atom d e a) (ht : t ≠ []) : a ++ t ∉ Grammar.atom (Grammar.inside d) := by
  intro hmem
  obtain ⟨e', h'⟩ := (Grammar.mem_atom (Grammar.mem_inside d)).1 hmem
  have hreads := reads_atom (reads_inside d)
  have hshort := hreads.outcome_eq_some (z := t) h 0
  have hlong := hreads.outcome_eq_some (z := []) h' 0
  rw [List.append_nil, hshort] at hlong
  simp only [Option.some.injEq, Prod.mk.injEq, Cursor.mk.injEq] at hlong
  exact ht hlong.2.2

theorem describes_ne_nil {x : Expected} {u : List Char} (h : x.Describes ('{' :: t)) (hu : x.Describes u) : u ≠ [] := by
  rintro rfl
  cases x with
  | token text =>
    have hbrace : '{' :: t = text.toList := h
    rw [← show [] = text.toList from hu] at hbrace
    cases hbrace
  | number | endOfInput | shallowGroup => exact hu
  | _ =>
    obtain ⟨c, -, hc⟩ := hu
    cases hc

/-- What is excused is no brace. -/
theorem not_describes_brace {x : Expected} {k : Place} {n : Nat} {s : List Char} (h : x.Excused k n s) :
    ¬ x.Describes ('{' :: t) := by
  intro hx
  cases x with
  | token text =>
    have hbrace : '{' :: t = text.toList := hx
    rcases h.1 with rfl | rfl <;> simp at hbrace
  | digit =>
    obtain ⟨c, hc, heq⟩ := hx
    obtain ⟨rfl, -⟩ := List.cons.inj heq
    exact absurd hc (by decide)
  | shallowGroup => exact hx
  | _ => exact h

/-- In front of a brace, reading an atom misses nothing behind it: it would have been missed at the end of the text
    as well, and no atom goes on with a brace. -/
theorem exists_run_atom (h : Written .atom d e a) (r : List Char) (o : Nat) : ∃ m,
    (atom (inside d)).run ⟨o, a ++ '{' :: r⟩ = ⟨some (e, ⟨o + utf8Length a, '{' :: r⟩), m⟩ ∧
      m.offset ≤ o + utf8Length a := by
  have hreads := reads_atom (reads_inside d)
  have hout := hreads.outcome_eq_some (z := '{' :: r) h o
  have hend := hreads.outcome_eq_some (z := []) h o
  have hcont := continues_atom (continues_inside_group d)
  have hleads := Grammar.leads_atom (Grammar.leads_inside d) a
    ((Grammar.mem_atom (Grammar.mem_inside d)).2 ⟨e, h⟩) .plain (.inr rfl)
  -- the text that ends behind the atom, and the given one
  let f : Fork := ⟨o, a, [], '{' :: r⟩
  have hle : ((atom (inside d)).run f.first).misses.offset ≤ o + utf8Length a := by
    simpa [f, Fork.first] using hcont.offset_misses_le f.first
  have hwithin : ((atom (inside d)).run f.first).Within f.parting := by
    refine ⟨hle, fun e' c hc => ?_⟩
    rw [show ((atom (inside d)).run f.first).outcome = _ from hend] at hc
    obtain ⟨-, rfl⟩ := Prod.mk.inj (Option.some.inj hc)
    exact Nat.le_refl _
  have hsettles := settles_atom (settles_inside d) (yields_inside d) (Grammar.leads_inside d) (reaches_inside d)
  rcases hrun : (atom (inside d)).run ⟨o, a ++ '{' :: r⟩ with ⟨out, m⟩
  rw [hrun] at hout
  obtain rfl : out = _ := hout
  refine ⟨m, rfl, ?_⟩
  rcases hsettles.agrees f hwithin with halike | ⟨t, ht, hn, ⟨hp, x, hx, hxt⟩ | ⟨-, hsilent⟩⟩
  · have hm := halike.misses
    rw [show (atom (inside d)).run f.second = _ from hrun] at hm
    obtain rfl : m = _ := hm
    exact hle
  · exfalso
    obtain ⟨t, rfl⟩ : ∃ t', t = '{' :: t' := by
      rcases t with _ | ⟨c, t⟩
      · exact absurd List.nil_prefix hn
      · exact ⟨t, congrArg (· :: t) (List.cons_prefix_cons.1 ht).1⟩
    obtain ⟨s, c, hs, ho, hresumes, -⟩ := (hcont f.first).2 x hx
    have hbehind : f.first.Behind a ⟨o + utf8Length a, []⟩ := ⟨rfl, rfl⟩
    obtain rfl := hs.eq_of_offset_eq hbehind (ho.symm.trans hp)
    rcases hresumes with ⟨u, v, hxu, hu⟩ | hexcused
    · exact append_not_mem_atom h (by simp [describes_ne_nil hxt hxu]) hu
    · exact not_describes_brace (hexcused .plain (.inr rfl)) hxt
  · exfalso
    have hs := hsilent .plain (.inr rfl)
    rw [show Place.plain.after f.shared = .plain from hleads.1] at hs
    cases hs

end

/-! ## In front of a brace -/

section
variable {α β : Type} {p q : Parser α} {c : Cursor}

/-- The parser fails before it has read anything. -/
def Refuses (p : Parser α) (c : Cursor) : Prop := ∃ l, p.run c = ⟨none, ⟨c.offset, l⟩⟩

theorem Refuses.bind (h : p.Refuses c) (f : α → Parser β) : (p >>= f).Refuses c :=
  h.imp fun _ h => run_bind_of_eq_none h

theorem Refuses.map (h : p.Refuses c) (g : α → β) : (g <$> p).Refuses c := h.bind _

theorem Refuses.orElse (hp : p.Refuses c) (hq : q.Refuses c) : (p <|> q).Refuses c := by
  obtain ⟨l, hp⟩ := hp
  obtain ⟨l', hq⟩ := hq
  refine ⟨l ++ l', ?_⟩
  rw [run_orElse_of_eq_none hp, hq]
  simp [Misses.join]

theorem Refuses.run_many (h : p.Refuses c) (ha : p.Advances) : ∃ l, p.many.run c = ⟨some ([], c), ⟨c.offset, l⟩⟩ := by
  obtain ⟨l, h⟩ := h
  refine ⟨l, ?_⟩
  rw [many_eq ha, h]

end

theorem refuses_token (text : String) (x : Char) {t r : List Char} (ht : text.toList = x :: t) (hx : '{' ≠ x)
    (o : Nat) : (token text).Refuses ⟨o, '{' :: r⟩ := by
  refine ⟨_, run_token_eq_none text x ht ?_ o⟩
  rintro _ ⟨⟩
  exact hx

theorem refuses_atom (i : Parser Regex) (r : List Char) (o : Nat) : (atom i).Refuses ⟨o, '{' :: r⟩ := by
  have hgroup (kind : GroupKind) : (group i kind).Refuses ⟨o, '{' :: r⟩ := by
    cases kind <;> exact (refuses_token _ '(' String.toList_ofList (by decide) o).bind _
  have hword (text : String) (x : Char) {t : List Char} (ht : text.toList = x :: t) (hx : '{' ≠ x) (e : Regex) :
      (do token text; return e : Parser Regex).Refuses ⟨o, '{' :: r⟩ := (refuses_token text x ht hx o).bind _
  have hset : Parser.set.Refuses ⟨o, '{' :: r⟩ := (refuses_token "[" '[' rfl (by decide) o).bind _
  have hquoted {α : Type} (f : Unit → Parser α) : (token "\\" >>= f).Refuses ⟨o, '{' :: r⟩ :=
    (refuses_token "\\" '\\' rfl (by decide) o).bind f
  have hplain : (charWhere (!Alphabet.isReserved ·) .literal).Refuses ⟨o, '{' :: r⟩ := ⟨[.literal], rfl⟩
  exact (hgroup .plain).orElse <| (hgroup .capture).orElse <| (hword "." '.' rfl (by decide) .any).orElse <|
    (hword "$0" '$' rfl (by decide) .never).orElse <| (hword "$e" '$' rfl (by decide) .empty).orElse <| hset.orElse <|
    ((hquoted _).map Regex.named).orElse (((hplain.map Literal.plain).orElse (hquoted _)).map Regex.literal)

/-- A pattern stops behind an atom in front of a bound that is too large, and what it leaves as missed is a digit
    behind the bound. -/
theorem run_pattern_of_tooLarge {e : Regex} {a b : List Char} (ha : Written .atom maxNesting e a) (hb : BeforeBound b)
    (h : TooLarge ds) (hr : ∀ c ∈ r.head?, c.isDigit = false) :
    pattern.run ⟨0, a ++ (b ++ (ds ++ r))⟩ =
      ⟨some (e, ⟨utf8Length a, b ++ (ds ++ r)⟩), ⟨utf8Length (a ++ (b ++ ds)), [.digit]⟩⟩ := by
  have hi := consumes_inside maxNesting
  obtain ⟨z, hz⟩ : ∃ z, b ++ (ds ++ r) = '{' :: z := by cases hb <;> exact ⟨_, rfl⟩
  obtain ⟨m, hatom, hm⟩ := exists_run_atom ha z 0
  have hquantifier := run_quantifier_of_tooLarge hb h hr (utf8Length a)
  rw [Nat.zero_add] at hatom hm
  rw [hz] at hquantifier ⊢
  -- all other misses are in front of the bound
  have hlt : utf8Length a < utf8Length a + utf8Length (b ++ ds) := by
    rw [Cursor.utf8Length_append b]
    exact Nat.lt_add_of_pos_right (Nat.add_pos_right _ h.utf8Length_pos)
  have hrepetition : (repetition (inside maxNesting)).run ⟨0, a ++ '{' :: z⟩ =
      ⟨some (e, ⟨utf8Length a, '{' :: z⟩), ⟨utf8Length a + utf8Length (b ++ ds), [.digit]⟩⟩ := by
    rw [repetition, run_bind_of_eq_some hatom, run_orElse_of_eq_none (run_map_of_eq_none _ hquantifier), run_pure]
    simp only [Misses.join_none]
    rw [Misses.join_of_lt (Nat.lt_of_le_of_lt hm hlt)]
  have hround : (repetition (inside maxNesting)).Refuses ⟨utf8Length a, '{' :: z⟩ := (refuses_atom _ z _).bind _
  obtain ⟨l, hround⟩ := hround.run_many (advances_repetition hi)
  obtain ⟨l', hbar⟩ := ((refuses_token "|" '|' rfl (by decide) _).bind _).run_many (advances_bar hi)
  have hconcat : (concatenation (inside maxNesting)).run ⟨0, a ++ '{' :: z⟩ =
      ⟨some (e, ⟨utf8Length a, '{' :: z⟩), ⟨utf8Length a + utf8Length (b ++ ds), [.digit]⟩⟩ := by
    refine run_map_of_eq_some (a := [e]) Regex.concat ?_
    rw [many_eq (advances_repetition hi), hrepetition]
    simp only [hround, Option.map_some]
    rw [Misses.join_of_gt hlt]
  rw [pattern, alternation, run_bind_of_eq_some hconcat, run_bind_of_eq_some hbar, run_pure]
  simp only [Misses.join_none]
  rw [Misses.join_of_gt hlt, Cursor.utf8Length_append a]
  rfl

end Parser

namespace Regex

variable {a b ds r : List Char} {e : Regex}

/-- The error is behind the bound, and describes a digit. -/
theorem parse_eq_error_of_tooLarge (ha : parse (.ofList a) = .ok e) (he : e.Fits .atom) (hb : Parser.BeforeBound b)
    (h : Parser.TooLarge ds) (hr : ∀ c ∈ r.head?, c.isDigit = false) :
    parse (.ofList (a ++ (b ++ (ds ++ r)))) = .error ⟨.noAlternative, utf8Length (a ++ (b ++ ds)), [.digit]⟩ := by
  obtain ⟨⟨-, hn⟩, hs⟩ := parse_eq_ok_iff.1 ha
  rw [String.toList_ofList] at hs
  have hrun := Parser.run_pattern_of_tooLarge ⟨he, hn, hs⟩ hb h hr
  have hpos := h.utf8Length_pos
  rw [parse_eq_error_of_run hrun, ParseError.ofMisses_eq (e := .digit) _ (by simp) (by simp)]
  · simp only [Cursor.utf8Length_append]
    omega
  · cases hb <;> simp

/-- **No error describes a number**: no token is one, and it is not among the exceptions. -/
theorem number_not_mem_expected {text : String} {err : ParseError} (h : parse text = .error err) :
    .number ∉ err.expected := by
  obtain ⟨x, w, e, stop, m, -, hr, rfl⟩ := exists_rejected h
  intro hm
  rcases hr.real_of_mem_expected hm with hx | ⟨hx, -⟩ | ⟨t, u, ht, -⟩
  · exact hx
  · cases hx
  · exact ht

/-- **A bound that is too large is reported as a missing digit**, behind the bound.  That a number is missing there
    is said neither of the first bound, nor of the second, nor by any other error. -/
theorem expected_eq_digit_of_tooLarge (ha : parse (.ofList a) = .ok e) (he : e.Fits .atom)
    (hd : ∀ c ∈ ds, c.isDigit) (hv : 4294967295 < Nat.ofDigitChars 10 ds 0) :
    parse (.ofList (a ++ '{' :: (ds ++ ['}']))) =
        .error ⟨.noAlternative, utf8Length (a ++ '{' :: ds), [.digit]⟩ ∧
      parse (.ofList (a ++ '{' :: '0' :: ',' :: (ds ++ ['}']))) =
        .error ⟨.noAlternative, utf8Length (a ++ '{' :: '0' :: ',' :: ds), [.digit]⟩ ∧
      ∀ text err, parse text = .error err → .number ∉ err.expected := by
  have hclose : ∀ c ∈ ['}'].head?, c.isDigit = false := by
    rintro _ ⟨⟩
    decide
  have hzero : IsNumeral 0 ['0'] := ⟨by simp, List.forall_mem_singleton.2 rfl, rfl⟩
  have hfirst := parse_eq_error_of_tooLarge ha he (.first .nil) ⟨hd, hv⟩ hclose
  have hsecond := parse_eq_error_of_tooLarge ha he (.second .nil hzero .nil .nil) ⟨hd, hv⟩ hclose
  exact ⟨hfirst, hsecond, fun _ _ => number_not_mem_expected⟩

theorem expected_eq_digit_of_tooLarge_at :
    parse "(b|c)" = .ok (.group .capture (.alt (.literal (.plain 'b')) (.literal (.plain 'c')))) ∧
      4294967295 < Nat.ofDigitChars 10 "4294967296".toList 0 ∧
      parse "(b|c)\x7b4294967296\x7d" = .error ⟨.noAlternative, 16, [.digit]⟩ ∧
      parse "(b|c)\x7b0,4294967296\x7d" = .error ⟨.noAlternative, 18, [.digit]⟩ := by
  have ha : parse "(b|c)" = .ok (.group .capture (.alt (.literal (.plain 'b')) (.literal (.plain 'c')))) := by
    decide +kernel
  have he : (Regex.group .capture (.alt (.literal (.plain 'b')) (.literal (.plain 'c')))).Fits .atom := by
    have hlit {x : Char} (hx : Alphabet.isReserved x = false) : (Regex.literal (.plain x)).Fits .concatenation :=
      .sequence (.repetition (.atom (.literal hx)))
    exact .group (.alt (.concatenation (hlit (by decide))) (hlit (by decide)))
  have hv : 4294967295 < Nat.ofDigitChars 10 "4294967296".toList 0 := by decide
  have hd : ∀ c ∈ "4294967296".toList, c.isDigit := List.all_eq_true.1 (by decide)
  obtain ⟨h1, h2, -⟩ := expected_eq_digit_of_tooLarge (a := "(b|c)".toList) ha he hd hv
  exact ⟨ha, hv, h1, h2⟩

end Regex
end RegexNotation
