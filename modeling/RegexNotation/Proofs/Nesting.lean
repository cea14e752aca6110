/-
  Groups that are nested too deep.

  * `p.Tries q s z`: a run of `p` on `s ++ z` has missed something as far on as a run of `q` behind `s` does;
  * `Parser.Unclosed.tries`: where a text has left groups open, what may follow in the innermost of them is tried.  So a run
    gets as far as an opening there, however it goes on;
  * `Regex.parse_too_deep`: one group more than may nest is reported right behind its opening, and nothing else is.
-/
import RegexNotation.Proofs.Depths
import RegexNotation.Proofs.Errors

namespace RegexNotation

open Cursor (utf8Length)
open Computability

namespace Parser

variable {α β γ : Type} {p : Parser α} {q : Parser β} {s t z : List Char}

/-! ## How far a run gets -/

/-- On `s ++ z`, the parser `p` tries `q` behind `s`: it misses something where `q` does, or further on. -/
def Tries (p : Parser α) (q : Parser β) (s z : List Char) : Prop :=
  ∀ o, (q.run ⟨o + utf8Length s, z⟩).misses.offset ≤ (p.run ⟨o, s ++ z⟩).misses.offset

theorem tries_self : p.Tries p [] z := fun _ => Nat.le_refl _

theorem Tries.trans {r : Parser γ} (h : p.Tries q s (t ++ z)) (h' : q.Tries r t z) : p.Tries r (s ++ t) z := by
  intro o
  have hq := h' (o + utf8Length s)
  rw [Nat.add_assoc, ← Cursor.utf8Length_append] at hq
  rw [List.append_assoc]
  exact Nat.le_trans hq (h o)

theorem Tries.bind (h : p.Tries q s z) (f : α → Parser γ) : (p >>= f).Tries q s z := fun o =>
  Nat.le_trans (h o) (offset_misses_bind p f _)

theorem Tries.orElse (h : p.Tries q s z) (p' : Parser α) : (p <|> p').Tries q s z := fun o =>
  Nat.le_trans (h o) (offset_misses_orElse p p' _)

theorem Tries.orElse_right {p' : Parser α} (h : p'.Tries q s z) (hp : ∀ o, (p.run ⟨o, s ++ z⟩).outcome = none) :
    (p <|> p').Tries q s z := by
  intro o
  rw [run_orElse, hp o]
  exact Nat.le_trans (h o) (Misses.le_offset_join_right ..)

section
variable {R : α → List Char → List Char → Prop} {a : α} {as : List α}

theorem Reads.outcome_eq_some (hp : p.Reads R) (h : R a s z) (o : Nat) :
    (p.run ⟨o, s ++ z⟩).outcome = some (a, ⟨o + utf8Length s, z⟩) :=
  (hp _ _ _).2 ⟨s, ⟨rfl, rfl⟩, h⟩

theorem Reads.tries_bind (hp : p.Reads R) (h : R a s z) (f : α → Parser γ) : (p >>= f).Tries (f a) s z := by
  intro o
  rw [run_bind, hp.outcome_eq_some h o]
  exact Misses.le_offset_join_right ..

/-- Behind one of its parts, a repetition goes on as from the start. -/
theorem Reads.tries_many_step (hp : p.Reads R) (ha : p.Advances) (h : R a s z) : p.many.Tries p.many s z := by
  intro o
  rw [many_eq ha ⟨o, s ++ z⟩, hp.outcome_eq_some h o]
  exact Misses.le_offset_join_right ..

/-- A repetition tries one more round behind its parts. -/
theorem Reads.tries_many (hp : p.Reads R) (ha : p.Advances) (h : Each R as s z) : p.many.Tries p s z := by
  induction h with
  | nil =>
    rw [ha.many_eq_orElse]
    exact (tries_self.bind _).orElse _
  | cons h _ ih => exact (hp.tries_many_step ha h).trans ih

end

/-! ## Behind a text that may be closed -/

section
variable {d : Nat} {es : List Regex} {ess : List (List Regex)} {u : List Char}

theorem tries_concatenation (h : ItemsWritten d es u) (hz : ∀ x ∈ z.head?, Alphabet.opens x) :
    (concatenation (inside d)).Tries (repetition (inside d)) u z := by
  have he : Each (RepetitionRead d) es u z := (each_repetition_iff fun x hx => .inl (hz x hx)).2 (h.rest_irrel z)
  exact ((reads_repetition (reads_inside d)).tries_many (advances_repetition (consumes_inside d)) he).bind _

theorem ItemsWritten.concatenationRead (h : ItemsWritten d es u) : ConcatenationRead d (.concat es) u ('|' :: z) := by
  refine (concatenationRead_iff ?_).2 (written_concatenation.2 ⟨es, rfl, h⟩)
  rintro x ⟨⟩
  exact .inl rfl

theorem tries_bars (h : AlternativesWritten d ess u) (hz : ∀ x ∈ z.head?, Alphabet.opens x) :
    (many (do token "|"; concatenation (inside d))).Tries (repetition (inside d)) ('|' :: u) z := by
  have hi := consumes_inside d
  induction h with
  | @single es u h =>
    have hbar := ((reads_token "|").tries_bind (a := ()) (z := u ++ z) rfl fun _ => concatenation (inside d)).trans
      (tries_concatenation h hz)
    rw [(advances_bar hi).many_eq_orElse]
    exact (hbar.bind _).orElse _
  | @bar es _ u v h _ ih =>
    have hread : BarRead d (.concat es) ('|' :: u) ('|' :: v ++ z) := ⟨u, rfl, h.concatenationRead⟩
    exact ((reads_bar (reads_inside d)).tries_many_step (advances_bar hi) hread).trans ih

theorem tries_alternation (h : AlternativesWritten d ess u) (hz : ∀ x ∈ z.head?, Alphabet.opens x) :
    (alternation (inside d)).Tries (repetition (inside d)) u z := by
  cases h with
  | single h => exact (tries_concatenation h hz).bind _
  | @bar es _ u v h h' =>
    have hread : ConcatenationRead d (.concat es) u ('|' :: v ++ z) := h.concatenationRead
    exact ((reads_concatenation (reads_inside d)).tries_bind hread _).trans ((tries_bars h' hz).bind _)

end

/-! ## Behind an opening -/

theorem tries_group (i : Parser Regex) (kind : GroupKind) : (group i kind).Tries i kind.opening z := by
  have hopen : (String.ofList kind.opening).toList = kind.opening := String.toList_ofList
  have htoken := (reads_token (.ofList kind.opening)).tries_bind (a := ()) (z := z) hopen.symm fun _ =>
    (do let e ← i; token ")"; return Regex.group kind e : Parser Regex)
  exact fun o => Nat.le_trans (offset_misses_bind i _ _) (htoken o)

theorem head?_opening (kind : GroupKind) : ∀ c ∈ (kind.opening ++ z).head?, Alphabet.opens c := by
  cases kind <;> rintro c ⟨⟩ <;> decide

/-- A group of the second kind is tried where none of the first begins. -/
theorem tries_atom (i : Parser Regex) (kind : GroupKind) (hz : ∀ c ∈ z.head?, Alphabet.opens c ∨ c = '|') :
    (atom i).Tries (group i kind) [] (kind.opening ++ z) := by
  cases kind with
  | plain => exact tries_self.orElse _
  | capture =>
    refine (tries_self.orElse _).orElse_right fun o => ?_
    have htoken : ((token (.ofList GroupKind.plain.opening)).run ⟨o, '(' :: z⟩).outcome = none := by
      rw [(reads_token _).outcome_eq_none]
      rintro _ _ l h rfl
      rw [String.toList_ofList] at h
      obtain rfl : z = '?' :: ':' :: l := (List.cons.inj h).2
      exact absurd (hz '?' rfl) (by decide)
    show ((group i .plain).run ⟨o, '(' :: z⟩).outcome = none
    rw [group, run_bind, htoken]

theorem tries_inside (d : Nat) (kind : GroupKind) (hz : ∀ c ∈ z.head?, Alphabet.opens c ∨ c = '|') :
    (repetition (inside d)).Tries (inside d) kind.opening z :=
  ((tries_atom _ kind hz).bind _).trans (tries_group _ kind)

theorem AlternativesWritten.head?_append {d : Nat} {ess : List (List Regex)} {u : List Char}
    (h : AlternativesWritten d ess u) (hz : ∀ c ∈ z.head?, Alphabet.opens c) :
    ∀ c ∈ (u ++ z).head?, Alphabet.opens c ∨ c = '|' := by
  obtain ⟨hf, -, hs⟩ := written_alternation_iff_alternatives.2 ⟨ess, rfl, h⟩
  cases u with
  | nil => exact fun c hc => .inl (hz c hc)
  | cons _ _ => exact fun c hc => hf.begins hs c hc

namespace Unclosed

variable {r n : Nat} {x : List Char}

theorem head?_append (hx : Unclosed r n x) (hz : ∀ c ∈ z.head?, Alphabet.opens c) :
    ∀ c ∈ (x ++ z).head?, Alphabet.opens c ∨ c = '|' := by
  cases hx with
  | here h => exact h.head?_append hz
  | @within n _ u v kind h _ =>
    rw [List.append_assoc, List.append_assoc]
    exact h.head?_append (head?_opening kind)

/-- **What may follow in the innermost group is tried**, by induction on the groups. -/
theorem tries (hx : Unclosed r n x) (hz : ∀ c ∈ z.head?, Alphabet.opens c) :
    (alternation (inside (r + n))).Tries (repetition (inside r)) x z := by
  induction hx with
  | here h => exact tries_alternation h hz
  | @within n _ u v kind h hv ih =>
    have hgroup : (repetition (inside (r + n + 1))).Tries (repetition (inside r)) (kind.opening ++ v) z :=
      (tries_inside (r + n + 1) kind (hv.head?_append hz)).trans ih
    refine (tries_alternation h ?_).trans hgroup
    rw [List.append_assoc]
    exact head?_opening kind

/-- Where no more groups may nest, a run gets behind the opening of one. -/
theorem le_misses {x : List Char} (hx : Unclosed 0 n x) (kind : GroupKind) (o : Nat) :
    o + utf8Length (x ++ kind.opening) ≤
      ((alternation (inside n)).run ⟨o, x ++ kind.opening⟩).misses.offset := by
  have h := (hx.tries (z := kind.opening ++ []) (head?_opening kind)).trans (tries_inside 0 kind (by rintro c ⟨⟩))
  have hmiss := h o
  rw [Nat.zero_add, List.append_nil] at hmiss
  exact hmiss

end Unclosed

end Parser

/-! ## The error -/

/-- Where an expression may begin, behind more groups than may nest, nothing is excused but a group less deep. -/
theorem Expected.Excused.eq_shallowGroup {k : Place} {d : Nat} {s : List Char} {e : Expected}
    (h : e.Excused k d s) (hfree : (k.after s).Free) (hgroups : k.groups s ≠ d) : e = .shallowGroup maxNesting := by
  cases e with
  | shallowGroup limit => exact congrArg Expected.shallowGroup h
  | token text => exact absurd h.2 hgroups
  | digit =>
    obtain ⟨v, hv, -⟩ := h
    rw [hv] at hfree
    rcases hfree with h | h <;> cases h
  | _ => cases h

namespace ParseError

theorem foldr_insert_replicate (e : Expected) (n : Nat) : (List.replicate (n + 1) e).foldr Expected.insert [] = [e] := by
  induction n with
  | zero => rfl
  | succ n ih =>
    rw [List.replicate_succ, List.foldr_cons, ih, Expected.insert, if_neg (String.lt_irrefl _), if_pos rfl]

/-- Where only one thing was missed, the error says just that. -/
theorem ofMisses_eq {stop : Nat} {m : Misses} {e : Expected} (h : stop < m.offset) (hne : m.wanted ≠ [])
    (hall : ∀ d ∈ m.wanted, d = e) : ofMisses stop m = ⟨.noAlternative, m.offset, [e]⟩ := by
  have hjoin : m.join ⟨stop, [.endOfInput]⟩ = m := by
    simp [Misses.join, h, Nat.not_lt.2 (Nat.le_of_lt h)]
  obtain ⟨n, hn⟩ := Nat.exists_eq_succ_of_ne_zero (mt List.length_eq_zero_iff.1 hne)
  have hwanted := List.eq_replicate_of_mem hall
  rw [hn] at hwanted
  rw [ofMisses, hjoin, if_pos h, hwanted, foldr_insert_replicate]

end ParseError

namespace Regex

open RegexNotation.Parser (Unclosed)

variable {x y : List Char}

theorem unclosed_of_isPattern (hp : IsPattern (x ++ List.replicate maxNesting ')'))
    (hx : Place.plain.groups x = maxNesting) : Unclosed 0 maxNesting x := by
  obtain ⟨e, he⟩ := hp
  obtain ⟨⟨hf, hn⟩, hs⟩ := parse_eq_ok_iff.1 he
  rw [String.toList_ofList] at hs
  rw [← Nat.zero_add maxNesting] at hn
  exact Parser.unclosed_of_written ⟨hf, hn, hs⟩ (.inr rfl) hx

theorem not_mem_pattern_of_groups {s : List Char} (hs : maxNesting < Place.plain.groups s) (t : List Char) :
    s ++ t ∉ Grammar.pattern := by
  intro h
  have hle := Grammar.nests_pattern s t h .plain (.inr rfl)
  omega

/-- The opening of one group too many is rejected right behind it, and nothing is missed but a group less deep. -/
theorem exists_rejected_too_deep (hx : Unclosed 0 maxNesting x) (kind : GroupKind) : ∃ e stop m,
    Rejected (x ++ kind.opening) [] e stop m ∧ ∀ d ∈ m.wanted, d = .shallowGroup maxNesting := by
  obtain ⟨hfree, hgroups⟩ := hx.leads (k := .plain) (.inr rfl)
  obtain ⟨hfree', hopen⟩ := Grammar.after_opening kind hfree
  rw [← Place.after_append] at hfree'
  have hdeep : Place.plain.groups (x ++ kind.opening) = maxNesting + 1 := by
    rw [Place.groups_append, hgroups, hopen]
  have hno := not_mem_pattern_of_groups (s := x ++ kind.opening) (by omega)
  rcases hparse : parse (.ofList (x ++ kind.opening)) with err | e
  · obtain ⟨x', w, e, stop, m, ht, hr, -⟩ := exists_rejected hparse
    rw [String.toList_ofList] at ht
    -- the run gets to the end of the text
    have hmiss : 0 + utf8Length (x ++ kind.opening) ≤ (Parser.pattern.run ⟨0, x ++ kind.opening⟩).misses.offset :=
      hx.le_misses kind 0
    rw [ht, hr.run, Nat.zero_add, ← ht, hr.offset] at hmiss
    obtain ⟨w', rfl, hw⟩ := Cursor.exists_append_of_utf8Length_le (u := []) (by rwa [List.append_nil]) hmiss
    obtain ⟨rfl, rfl⟩ := List.append_eq_nil_iff.1 hw.symm
    rw [List.append_nil] at hr
    refine ⟨e, stop, m, hr, fun d hd => ?_⟩
    rcases (hr.resumes d hd).1 with ⟨t, u, -, hu⟩ | hexcused
    · exact absurd hu (hno _)
    · exact (hexcused .plain (.inr rfl)).eq_shallowGroup hfree' (by omega)
  · have hmem := (exists_parse_eq_ok_iff_mem_pattern _).1 ⟨e, hparse⟩
    rw [String.toList_ofList, ← List.append_nil (x ++ kind.opening)] at hmem
    exact absurd hmem (hno [])

theorem after_opening_eq (kind : GroupKind) {k : Place} (hk : k.Free) :
    k.after kind.opening = if kind = .capture then .opened else .plain := by
  cases kind <;> rcases hk with rfl | rfl <;> rfl

/-- **A group too deep is reported right behind its opening.**  Let a text leave as many groups open as may nest, and let
    it be a pattern when they are closed.  If another group is opened there, then the error is behind that opening, and
    all that it describes is a group less deep, whatever follows. -/
theorem parse_too_deep (kind : GroupKind) (hx : Place.plain.groups x = maxNesting)
    (hp : IsPattern (x ++ List.replicate maxNesting ')')) (hy : kind = .capture → ¬ ['?', ':'] <+: y) :
    parse (.ofList (x ++ kind.opening ++ y)) =
        .error ⟨.noAlternative, utf8Length (x ++ kind.opening), [.shallowGroup maxNesting]⟩ ∧
      (Expected.shallowGroup maxNesting).text = "at most 256 nested groups" := by
  refine ⟨?_, rfl⟩
  have hunclosed := unclosed_of_isPattern hp hx
  obtain ⟨e, stop, m, hr, hall⟩ := exists_rejected_too_deep hunclosed kind
  -- the text in front of the error is read alike, whatever follows
  have hnp : ¬ Fork.Parted ⟨0, x ++ kind.opening, [], y⟩ Place.Free m := by
    rintro ⟨t, ht, -, ⟨-, d, hd, hdt⟩ | ⟨-, hsilent⟩⟩
    · rw [hall d hd] at hdt
      exact hdt
    · have hs := hsilent .plain (.inr rfl)
      rw [Place.after_append, after_opening_eq kind (hunclosed.leads (.inr rfl)).1] at hs
      cases kind with
      | plain => cases hs
      | capture =>
        cases hs
        exact hy rfl ht
  obtain ⟨s, z, hs, rfl, hrun⟩ := (hr.alike_or_parted rfl (Nat.le_refl _) y).resolve_right hnp
  have hz : z ≠ [] := by simpa using hr.rest
  have hlt : utf8Length s < m.offset := by
    have hpos := Nat.pos_of_ne_zero (mt Cursor.utf8Length_eq_zero hz)
    rw [hr.offset, hs, Cursor.utf8Length_append]
    omega
  have hne : m.wanted ≠ [] := by
    intro hnil
    cases kind <;> simpa [GroupKind.opening] using hr.wanted hnil
  rw [parse_eq_error_of_run hrun (by simp [hz]), ParseError.ofMisses_eq hlt hne hall, hr.offset]

theorem unclosed_replicate (r : Nat) : ∀ n, Unclosed r n (List.replicate n '(')
  | 0 => .here (.single .nil)
  | n + 1 => (unclosed_replicate r n).group .capture

theorem exists_parse_nested : ∀ n ≤ maxNesting, ∃ e, e.nesting = n ∧
    parse (.ofList (List.replicate n '(' ++ List.replicate n ')')) = .ok e
  | 0, _ => ⟨.blank, rfl, by decide +kernel⟩
  | n + 1, h => by
    obtain ⟨e, rfl, he⟩ := exists_parse_nested n (Nat.le_of_succ_le h)
    refine ⟨.group .capture e, rfl, ?_⟩
    rw [← (parse_group he h .capture).1]
    refine congrArg parse (String.toList_inj.1 ?_)
    simp [GroupKind.opening, List.replicate_succ, ← List.replicate_succ']

theorem parse_too_deep_at :
    let x := List.replicate maxNesting '('
    let y := List.replicate 49743 '('
    Place.plain.groups x = maxNesting ∧ IsPattern (x ++ List.replicate maxNesting ')') ∧ ¬ ['?', ':'] <+: y ∧
      parse (.ofList (x ++ ['('] ++ y)) = .error ⟨.noAlternative, 257, [.shallowGroup maxNesting]⟩ := by
  intro x y
  have hx : Place.plain.groups x = maxNesting := ((unclosed_replicate 0 maxNesting).leads (.inr rfl)).2
  obtain ⟨e, -, he⟩ := exists_parse_nested maxNesting (Nat.le_refl _)
  have hp : IsPattern (x ++ List.replicate maxNesting ')') := ⟨e, he⟩
  have hy : ¬ ['?', ':'] <+: y := by
    rintro ⟨t, ht⟩
    have hm : '?' ∈ y := ht ▸ List.mem_cons_self
    exact absurd (List.eq_of_mem_replicate hm) (by decide)
  have hl : utf8Length (x ++ GroupKind.capture.opening) = 257 := by decide +kernel
  have h := (parse_too_deep .capture hx hp fun _ => hy).1
  rw [hl] at h
  exact ⟨hx, hp, hy, h⟩

end Regex
end RegexNotation
