/-
  What the error of a rejected text says.

  A rejected text is split where its error is: `Rejected x w e stop m` is a run on `x ++ w` that stopped too early,
  at `stop`, and missed `m`, all of it behind `x`.  What was missed is real (`Parser.continues_pattern`), and any
  other text that begins with `x` is read alike or parts from `x ++ w` there (`Parser.settles_pattern`).  Hence

  * `kind_iff_isPattern_of_parse`: the kind of the error tells whether `x` is a pattern, and no longer beginning
    of the text is one;
  * `parse_append_eq_error`: the two characters behind `x` settle the error;
  * `exists_isPattern_of_mem_expected`: whatever is described is the next token of some pattern;
  * `expected_of_isPattern_append`: whatever pattern begins with `x` goes on as described.
-/
import RegexNotation.Proofs.Agreement

namespace RegexNotation

open Cursor (utf8Length)
open Computability

/-! ## The list of descriptions -/

namespace Expected

theorem text_injective : Function.Injective text := by
  intro a b h
  -- texts of different kinds differ in the first character, or they are different constants
  have hh := congrArg (fun s : String => s.toList.head?) h
  cases a <;> cases b
  case token.token s t =>
    exact congrArg token ((String.append_right_inj _).1 ((String.append_left_inj _).1 h))
  case shallowGroup.shallowGroup m n =>
    have hr : m.repr = n.repr := (String.append_right_inj _).1 ((String.append_left_inj _).1 h)
    have hv := congrArg (fun s : String => Nat.ofDigitChars 10 s.toList 0) hr
    simp only [Nat.toList_repr, Nat.ofDigitChars_ten_toDigits] at hv
    exact congrArg shallowGroup hv
  all_goals simp [text] at h hh ⊢

/-- Adding drops nothing, for no two descriptions have the same text. -/
theorem mem_insert {d e : Expected} {l : List Expected} : d ∈ e.insert l ↔ d = e ∨ d ∈ l := by
  induction l with
  | nil => simp [insert]
  | cons x l ih =>
    rw [insert]
    split
    · simp
    · split
      · next h =>
        obtain rfl := text_injective h
        simp
      · simp only [List.mem_cons, ih]
        exact or_left_comm

theorem mem_foldr_insert {d : Expected} {l : List Expected} : d ∈ l.foldr insert [] ↔ d ∈ l := by
  induction l with
  | nil => simp
  | cons e l ih => rw [List.foldr_cons, mem_insert, ih, List.mem_cons]

/-- Sorted by text, and no text is twice in it. -/
def Sorted (l : List Expected) : Prop := l.Pairwise (·.text < ·.text)

theorem sorted_insert {l : List Expected} (h : Sorted l) (e : Expected) : Sorted (e.insert l) := by
  induction l with
  | nil => exact List.pairwise_singleton ..
  | cons x l ih =>
    obtain ⟨hx, hl⟩ := List.pairwise_cons.1 h
    rw [insert]
    split
    · next hlt =>
      refine List.pairwise_cons.2 ⟨?_, h⟩
      rintro y (_ | ⟨_, hy⟩)
      · exact hlt
      · exact String.lt_trans hlt (hx y hy)
    · next hlt =>
      split
      · exact h
      · next hne =>
        refine List.pairwise_cons.2 ⟨fun y hy => ?_, ih hl⟩
        rcases mem_insert.1 hy with rfl | hy
        · exact Std.lt_of_le_of_ne (String.not_lt.1 hlt) (Ne.symm hne)
        · exact hx y hy

theorem sorted_foldr_insert (l : List Expected) : Sorted (l.foldr insert []) := by
  induction l with
  | nil => exact .nil
  | cons e l ih => exact sorted_insert ih e

theorem Sorted.nodup {l : List Expected} (h : Sorted l) : l.Nodup :=
  h.imp fun hab heq => by
    rw [heq] at hab
    exact String.lt_irrefl _ hab

/-- Sorted lists are the same if they hold the same. -/
theorem Sorted.eq_of_mem_iff {l l' : List Expected} (h : Sorted l) (h' : Sorted l') (hm : ∀ e, e ∈ l ↔ e ∈ l') :
    l = l' := by
  have hasymm : ∀ a b : Expected, a ∈ l → b ∈ l' → a.text < b.text → b.text < a.text → a = b := fun a b _ _ hab hba =>
    absurd (String.lt_trans hab hba) (String.lt_irrefl _)
  exact List.Perm.eq_of_pairwise hasymm h h' ((List.perm_ext_iff_of_nodup h.nodup h'.nodup).2 hm)

end Expected

namespace ParseError

variable {stop : Nat} {m : Misses}

theorem offset_ofMisses (h : stop ≤ m.offset) : (ofMisses stop m).offset = m.offset := by
  show (m.join _).offset = _
  rw [Misses.offset_join]
  exact Nat.max_eq_left h

theorem mem_expected_ofMisses (h : stop ≤ m.offset) {d : Expected} :
    d ∈ (ofMisses stop m).expected ↔ d ∈ m.wanted ∨ (d = .endOfInput ∧ stop = m.offset) := by
  show d ∈ (m.join ⟨stop, [.endOfInput]⟩).wanted.foldr Expected.insert [] ↔ _
  rw [Expected.mem_foldr_insert, Misses.mem_wanted_join]
  simp only [List.mem_singleton]
  constructor
  · rintro (⟨-, hd⟩ | ⟨hle, hd⟩)
    · exact .inl hd
    · exact .inr ⟨hd, Nat.le_antisymm h hle⟩
  · rintro (hd | ⟨hd, rfl⟩)
    · exact .inl ⟨h, hd⟩
    · exact .inr ⟨Nat.le_refl _, hd⟩

theorem kind_ofMisses (h : stop ≤ m.offset) :
    (ofMisses stop m).kind = if stop = m.offset then .trailingInput else .noAlternative := by
  show (if stop < (m.join _).offset then _ else _) = _
  rw [Misses.offset_join, Nat.max_eq_left h]
  split <;> split <;> first | rfl | omega

end ParseError

namespace Regex

/-! ## How a text is rejected -/

/-- The text is read as a pattern. -/
def IsPattern (s : List Char) : Prop := ∃ e, parse (.ofList s) = .ok e

theorem isPattern_of_run {s : List Char} {e : Regex} {o : Nat} {m : Misses}
    (h : Parser.pattern.run ⟨0, s⟩ = ⟨some (e, ⟨o, []⟩), m⟩) : IsPattern s := by
  refine ⟨e, ?_⟩
  rw [parse, Cursor.start, String.toList_ofList, h]

theorem parse_eq_error_of_run {s : List Char} {e : Regex} {stop : Cursor} {m : Misses}
    (h : Parser.pattern.run ⟨0, s⟩ = ⟨some (e, stop), m⟩) (hs : stop.rest ≠ []) :
    parse (.ofList s) = .error (.ofMisses stop.offset m) := by
  rw [parse, Cursor.start, String.toList_ofList, h]
  obtain ⟨o, _ | ⟨c, l⟩⟩ := stop
  · exact absurd rfl hs
  · rfl

theorem not_isPattern_of_eq_error {s : List Char} {err : ParseError} (h : parse (.ofList s) = .error err) :
    ¬ IsPattern s := by
  rintro ⟨e, he⟩
  rw [he] at h
  cases h

theorem isPattern_of_mem_pattern {s : List Char} (h : s ∈ Grammar.pattern) : IsPattern s := by
  obtain ⟨e, hf, hn, hs⟩ := (Grammar.mem_alternation (Grammar.mem_inside 256)).1 h
  refine ⟨e, parse_eq_ok_iff.2 ⟨⟨hf, hn⟩, ?_⟩⟩
  rwa [String.toList_ofList]

/-- The text `x ++ w` is rejected, with the error behind `x`: the longest beginning that reads as a pattern ends
    at `stop`, and `m` was missed. -/
structure Rejected (x w : List Char) (e : Regex) (stop : Cursor) (m : Misses) : Prop where
  run : Parser.pattern.run ⟨0, x ++ w⟩ = ⟨some (e, stop), m⟩
  rest : stop.rest ≠ []
  offset : m.offset = utf8Length x
  wanted : m.wanted = [] → x = []
  resumes : ∀ d ∈ m.wanted, Grammar.Resumes Place.Free Grammar.pattern maxNesting x d
  not_torn : Place.plain.after x ≠ .torn

theorem Rejected.stop_le {x w : List Char} {e : Regex} {stop : Cursor} {m : Misses}
    (h : Rejected x w e stop m) : stop.offset ≤ m.offset := by
  have := Parser.reaches_pattern ⟨0, x ++ w⟩ e stop
  rw [h.run] at this
  exact this rfl

/-- A pattern always has a longest beginning that reads as one. -/
theorem outcome_pattern (c : Cursor) : ∃ e stop, (Parser.pattern.run c).outcome = some (e, stop) := by
  have hi := Parser.consumes_inside maxNesting
  obtain ⟨es, d, h1, -⟩ := Parser.outcome_many (Parser.advances_repetition hi) c
  obtain ⟨as, stop, h2, -⟩ := Parser.outcome_many (Parser.advances_bar hi) d
  refine ⟨.choice (.concat es) as, stop, ?_⟩
  have h3 : ((Parser.concatenation (Parser.inside maxNesting)).run c).outcome = some (.concat es, d) := by
    rw [Parser.concatenation, Parser.run_bind, h1]
    rfl
  rw [Parser.pattern, Parser.alternation, Parser.run_bind, h3]
  simp only
  rw [Parser.run_bind, h2]
  rfl

theorem exists_rejected {text : String} {err : ParseError} (h : parse text = .error err) :
    ∃ x w e stop m, text.toList = x ++ w ∧ Rejected x w e stop m ∧ err = .ofMisses stop.offset m := by
  obtain ⟨e, stop, ho⟩ := outcome_pattern (.start text)
  rcases hr : Parser.pattern.run (.start text) with ⟨out, m⟩
  rw [hr] at ho
  obtain rfl : out = some (e, stop) := ho
  have hstop : stop.rest ≠ [] ∧ err = .ofMisses stop.offset m := by
    rw [parse, hr] at h
    obtain ⟨o, _ | ⟨c, l⟩⟩ := stop
    · cases h
    · exact ⟨List.cons_ne_nil c l, (Except.error.inj h).symm⟩
  have hw := Parser.continues_pattern (.start text)
  rw [hr] at hw
  rcases hm : m.wanted with _ | ⟨d, ds⟩
  · refine ⟨[], text.toList, e, stop, m, rfl, ⟨hr, hstop.1, hw.1 hm, fun _ => rfl, ?_, by decide⟩, hstop.2⟩
    rintro d hd
    rw [hm] at hd
    cases hd
  · obtain ⟨x, c, hx, ho, hd⟩ := hw.2 d (by simp [hm])
    have hx' : text.toList = x ++ c.rest := hx.1
    refine ⟨x, c.rest, e, stop, m, hx',
      ⟨?_, hstop.1, ?_, by simp [hm], fun d' hd' => ?_, hd.2 _ (.inr rfl)⟩, hstop.2⟩
    · rwa [← hx']
    · rw [ho, hx.2]
      exact Nat.zero_add _
    · obtain ⟨x', c', hx'', ho', hd'⟩ := hw.2 d' hd'
      rwa [hx.eq_of_offset_eq hx'' (ho.symm.trans ho')]

theorem exists_rejected_of_split {text : String} {err : ParseError} {x w : List Char} (h : parse text = .error err)
    (ht : text.toList = x ++ w) (hx : utf8Length x = err.offset) :
    ∃ e stop m, Rejected x w e stop m ∧ err = .ofMisses stop.offset m := by
  obtain ⟨x', w', e, stop, m, ht', hr, herr⟩ := exists_rejected h
  have hl : utf8Length x' = utf8Length x := by
    rw [hx, herr, ParseError.offset_ofMisses hr.stop_le, hr.offset]
  obtain ⟨rfl, rfl⟩ := Cursor.append_inj_of_utf8Length_eq (ht'.symm.trans ht) hl
  exact ⟨e, stop, m, hr, herr⟩

namespace Rejected

variable {x w y v : List Char} {e : Regex} {stop : Cursor} {m : Misses}

/-- A text that begins alike, as far as the error and further, is read alike or parts there. -/
theorem alike_or_parted (h : Rejected x w e stop m) (hy : x ++ w = y ++ v) (hl : utf8Length x ≤ utf8Length y)
    (r : List Char) :
    (∃ s z, y = s ++ z ∧ stop = ⟨utf8Length s, z ++ v⟩ ∧
      Parser.pattern.run ⟨0, y ++ r⟩ = ⟨some (e, ⟨utf8Length s, z ++ r⟩), m⟩) ∨
    Fork.Parted ⟨0, y, v, r⟩ Place.Free m := by
  have hp : Fork.parting ⟨0, y, v, r⟩ = utf8Length y := Nat.zero_add _
  have hrun : Parser.pattern.run (Fork.first ⟨0, y, v, r⟩) = ⟨some (e, stop), m⟩ := by
    rw [← h.run, hy]
    rfl
  have hagree := Parser.settles_pattern.agrees ⟨0, y, v, r⟩
  rw [Parser.AgreesAt, hrun, hp] at hagree
  refine (hagree ⟨?_, ?_⟩).imp_left fun ha => ?_
  · rwa [h.offset]
  · rintro _ _ ⟨⟩
    exact Nat.le_trans h.stop_le (by rwa [h.offset])
  · obtain ⟨s, ⟨o, z, v', r'⟩, ⟨hs, ho, rfl, rfl⟩, hstop, hout⟩ := ha.stops e stop rfl
    obtain rfl : o = utf8Length s := ho.trans (Nat.zero_add _)
    refine ⟨s, z, hs, hstop, ?_⟩
    show Parser.pattern.run (Fork.second ⟨0, y, v', r'⟩) = _
    rcases hr : Parser.pattern.run (Fork.second ⟨0, y, v', r'⟩) with ⟨out, m'⟩
    rw [hr] at hout
    have hm := ha.misses
    rw [hr] at hm
    obtain rfl : m' = m := hm
    obtain rfl : out = _ := hout
    rfl

/-- Of the beginnings of the text, as far as the error and further, only the one up to `stop` can be a pattern. -/
theorem isPattern_iff (h : Rejected x w e stop m) (hy : x ++ w = y ++ v) (hl : utf8Length x ≤ utf8Length y) :
    IsPattern y ↔ stop.offset = utf8Length y := by
  -- the empty text goes on with nothing
  have hnp : ¬ Fork.Parted ⟨0, y, v, []⟩ Place.Free m := by
    rintro ⟨t, ht, hn, -⟩
    obtain rfl := List.prefix_nil.1 ht
    exact hn List.nil_prefix
  obtain ⟨s, z, rfl, rfl, hrun⟩ := (h.alike_or_parted hy hl []).resolve_right hnp
  simp only [List.append_nil] at hrun
  rw [Cursor.utf8Length_append]
  constructor
  · intro hp
    rcases z with _ | ⟨c, z⟩
    · rfl
    · exact absurd hp (not_isPattern_of_eq_error (parse_eq_error_of_run hrun (List.cons_ne_nil c z)))
  · intro ho
    obtain rfl := Cursor.utf8Length_eq_zero (s := z) (by simp only at ho; omega)
    rw [List.append_nil] at hrun ⊢
    exact isPattern_of_run hrun

theorem expected_ne_nil (h : Rejected x w e stop m) : (ParseError.ofMisses stop.offset m).expected ≠ [] := by
  intro hn
  have hd := fun d => (ParseError.mem_expected_ofMisses h.stop_le (d := d)).not.1 (by simp [hn])
  rcases hm : m.wanted with _ | ⟨d, ds⟩
  · -- nothing was missed, so reading stopped in the beginning
    have ho := h.offset
    rw [h.wanted hm] at ho
    exact hd .endOfInput (.inr ⟨rfl, Nat.le_antisymm h.stop_le (ho ▸ Nat.zero_le _)⟩)
  · exact hd d (.inl (by simp [hm]))

theorem real_of_mem_expected (h : Rejected x w e stop m) {d : Expected}
    (hd : d ∈ (ParseError.ofMisses stop.offset m).expected) :
    d.Excused .plain maxNesting x ∨ (d = .endOfInput ∧ IsPattern x) ∨
      ∃ t u, d.Describes t ∧ IsPattern (x ++ t ++ u) := by
  rcases (ParseError.mem_expected_ofMisses h.stop_le).1 hd with hd | ⟨rfl, ho⟩
  · rcases (h.resumes d hd).1 with ⟨t, u, hdt, hu⟩ | hx
    · refine .inr (.inr ⟨t, u, hdt, ?_⟩)
      rw [List.append_assoc]
      exact isPattern_of_mem_pattern hu
    · exact .inl (hx _ (.inr rfl))
  · exact .inr (.inl ⟨rfl, (h.isPattern_iff rfl (Nat.le_refl _)).2 (ho.trans h.offset)⟩)

end Rejected

/-! ## What an error says -/

/-- **The kind of an error tells whether the text in front of it is a pattern.**  No longer beginning is one. -/
theorem kind_iff_isPattern_of_parse {text : String} {err : ParseError} (h : parse text = .error err) :
    ∃ x w, text.toList = x ++ w ∧ utf8Length x = err.offset ∧
      (err.kind = .trailingInput ↔ IsPattern x) ∧ (err.kind = .noAlternative ↔ ¬ IsPattern x) ∧
      ∀ y v, text.toList = y ++ v → err.offset < utf8Length y → ¬ IsPattern y := by
  obtain ⟨x, w, e, stop, m, ht, hr, rfl⟩ := exists_rejected h
  have hle := hr.stop_le
  refine ⟨x, w, ht, ?_⟩
  rw [ParseError.offset_ofMisses hle, ParseError.kind_ofMisses hle, hr.isPattern_iff rfl (Nat.le_refl _),
    ← hr.offset]
  refine ⟨rfl, ?_, ?_, fun y v hy hl hp => ?_⟩
  · split <;> simp_all
  · split <;> simp_all
  · have hxy : utf8Length x < utf8Length y := by rwa [← hr.offset]
    have ho := (hr.isPattern_iff (ht.symm.trans hy) (Nat.le_of_lt hxy)).1 hp
    omega

theorem kind_iff_isPattern_of_parse_at :
    parse "a)" = .error ⟨.trailingInput, 1, [.token "$0", .token "$e", .token "(", .token "(?:", .token "*",
      .token "+", .token ".", .token "?", .token "[", .token "\\", .token "\x7b", .token "|", .endOfInput,
      .literal]⟩ ∧ IsPattern ['a'] ∧ ¬ IsPattern ['a', ')'] := by
  have h : parse "a)" = .error ⟨.trailingInput, 1, [.token "$0", .token "$e", .token "(", .token "(?:", .token "*",
      .token "+", .token ".", .token "?", .token "[", .token "\\", .token "\x7b", .token "|", .endOfInput,
      .literal]⟩ := by decide +kernel
  obtain ⟨x, w, ht, hx, hk, -, hlong⟩ := kind_iff_isPattern_of_parse h
  have hsplit : ['a'] ++ [')'] = x ++ w := ht
  obtain ⟨rfl, -⟩ := Cursor.append_inj_of_utf8Length_eq hsplit hx.symm
  exact ⟨h, hk.1 rfl, hlong _ [] rfl (show 1 < utf8Length ['a', ')'] by decide)⟩

/-- **An error is settled by the two characters behind it**: the rest of the text is of no account. -/
theorem parse_append_eq_error {text : String} {err : ParseError} {x r : List Char} {c c' : Char}
    (h : parse text = .error err) (ht : text.toList = x ++ c :: c' :: r) (hx : utf8Length x = err.offset)
    (r' : List Char) :
    parse (.ofList (x ++ c :: c' :: r')) = .error err ∧ ¬ IsPattern (x ++ c :: c' :: r') := by
  obtain ⟨e, stop, m, hr, rfl⟩ := exists_rejected_of_split h ht hx
  have hl : utf8Length x + 2 ≤ utf8Length (x ++ [c, c']) := by
    have := c.utf8Size_pos
    have := c'.utf8Size_pos
    simp only [Cursor.utf8Length_append, utf8Length]
    omega
  -- texts part where something was missed or one byte further, and `c'` ends two bytes further at least
  have hnp : ¬ Fork.Parted ⟨0, x ++ [c, c'], r, r'⟩ Place.Free m := by
    have hp : Fork.parting ⟨0, x ++ [c, c'], r, r'⟩ = utf8Length (x ++ [c, c']) := Nat.zero_add _
    rintro ⟨t, -, -, ⟨ho, -⟩ | ⟨ho, -⟩⟩
    · rw [hp, hr.offset] at ho
      omega
    · rw [hp, hr.offset] at ho
      omega
  obtain ⟨s, z, hs, rfl, hrun⟩ := (hr.alike_or_parted (v := r) (by simp) (by omega) r').resolve_right hnp
  have hle : utf8Length s ≤ utf8Length x := by simpa only [hr.offset] using hr.stop_le
  have hz : z ≠ [] := by
    rintro rfl
    rw [hs, List.append_nil] at hl
    omega
  have herr := parse_eq_error_of_run hrun (by simp [hz])
  rw [List.append_assoc] at herr
  exact ⟨herr, not_isPattern_of_eq_error herr⟩

theorem parse_append_eq_error_at :
    parse "a\x7b1x\x7d" = .error ⟨.noAlternative, 3, [.token ",", .token "\x7d", .digit]⟩ ∧
      ∀ r, parse (.ofList ('a' :: '{' :: '1' :: 'x' :: '}' :: r)) =
        .error ⟨.noAlternative, 3, [.token ",", .token "\x7d", .digit]⟩ := by
  have h : parse "a\x7b1x\x7d" = .error ⟨.noAlternative, 3, [.token ",", .token "\x7d", .digit]⟩ := by
    decide +kernel
  exact ⟨h, fun r => (parse_append_eq_error (x := ['a', '{', '1']) (r := []) h rfl rfl r).1⟩

/-- **What an error describes is real**: with the exceptions, some pattern goes on from there with such a token.
    Unless all descriptions are exceptions, the text in front of the error is the beginning of a pattern. -/
theorem exists_isPattern_of_mem_expected {text : String} {err : ParseError} (h : parse text = .error err) :
    ∃ x w, text.toList = x ++ w ∧ utf8Length x = err.offset ∧ err.expected ≠ [] ∧
      (∀ d ∈ err.expected, d.Excused .plain maxNesting x ∨ (d = .endOfInput ∧ IsPattern x) ∨
        ∃ t u, d.Describes t ∧ IsPattern (x ++ t ++ u)) ∧
      ((∀ d ∈ err.expected, d.Excused .plain maxNesting x) ∨ ∃ s, IsPattern (x ++ s)) := by
  obtain ⟨x, w, e, stop, m, ht, hr, rfl⟩ := exists_rejected h
  refine ⟨x, w, ht, by rw [ParseError.offset_ofMisses hr.stop_le, hr.offset], hr.expected_ne_nil,
    fun d => hr.real_of_mem_expected, ?_⟩
  by_cases hall : ∀ d ∈ (ParseError.ofMisses stop.offset m).expected, d.Excused .plain maxNesting x
  · exact .inl hall
  · simp only [not_forall] at hall
    obtain ⟨d, hd, hx⟩ := hall
    rcases (hr.real_of_mem_expected hd).resolve_left hx with ⟨-, hp⟩ | ⟨t, u, -, hp⟩
    · exact .inr ⟨[], by rwa [List.append_nil]⟩
    · exact .inr ⟨t ++ u, by rwa [← List.append_assoc]⟩

theorem exists_isPattern_of_mem_expected_at :
    parse "a\x7b1" = .error ⟨.noAlternative, 3, [.token ",", .token "\x7d", .digit]⟩ ∧
      ∃ u, IsPattern ("a\x7b1,".toList ++ u) := by
  have h : parse "a\x7b1" = .error ⟨.noAlternative, 3, [.token ",", .token "\x7d", .digit]⟩ := by decide +kernel
  refine ⟨h, ?_⟩
  obtain ⟨x, w, ht, hx, -, hreal, -⟩ := exists_isPattern_of_mem_expected h
  have hsplit : ['a', '{', '1'] ++ [] = x ++ w := ht
  obtain ⟨rfl, -⟩ := Cursor.append_inj_of_utf8Length_eq hsplit hx.symm
  rcases hreal (.token ",") (by simp) with ⟨h, -⟩ | ⟨h, -⟩ | ⟨t, u, rfl, hp⟩
  · exact absurd h (by decide)
  · cases h
  · exact ⟨u, hp⟩

/-- **No description is missing**: however a pattern goes on from the place of an error, it does so with a token
    that is described there, or with one that is silent. -/
theorem expected_of_isPattern_append {text : String} {err : ParseError} (h : parse text = .error err) :
    ∃ x w, text.toList = x ++ w ∧ utf8Length x = err.offset ∧ ∀ r, IsPattern (x ++ r) →
      (r = [] ∧ .endOfInput ∈ err.expected) ∨ (∃ d ∈ err.expected, ∃ t, d.Describes t ∧ t <+: r) ∨
      (∃ c, Text.isBlank c ∧ [c] <+: r ∧ ∃ v, Place.plain.after x = .bounds v) ∨
      (['?', ':'] <+: r ∧ Place.plain.after x = .opened) ∨ (['{'] <+: r ∧ Place.plain.after x = .quotedU) := by
  obtain ⟨x, w, e, stop, m, ht, hr, rfl⟩ := exists_rejected h
  have hle := hr.stop_le
  refine ⟨x, w, ht, by rw [ParseError.offset_ofMisses hle, hr.offset], fun r hp => ?_⟩
  rcases hr.alike_or_parted rfl (Nat.le_refl _) r with ⟨s, z, hs, rfl, hrun⟩ | ⟨t, ht, -, hw | ⟨-, hs⟩⟩
  · -- the run on the pattern stops at its end, where the texts part
    have hz : z ++ r = [] := by
      by_contra hz
      exact not_isPattern_of_eq_error (parse_eq_error_of_run hrun hz) hp
    obtain ⟨rfl, rfl⟩ := List.append_eq_nil_iff.1 hz
    refine .inl ⟨rfl, (ParseError.mem_expected_ofMisses hle).2 (.inr ⟨rfl, ?_⟩)⟩
    rw [hr.offset, hs, List.append_nil]
  · obtain ⟨-, d, hd, hdt⟩ := hw
    exact .inr (.inl ⟨d, (ParseError.mem_expected_ofMisses hle).2 (.inl hd), t, hdt, ht⟩)
  · have hs := hs .plain (.inr rfl)
    have htorn := hr.not_torn
    generalize Place.plain.after x = k at hs htorn
    cases hs with
    | blank hb => exact .inr (.inr (.inl ⟨_, hb, ht, _, rfl⟩))
    | group => exact .inr (.inr (.inr (.inl ⟨ht, rfl⟩)))
    | code => exact .inr (.inr (.inr (.inr ⟨ht, rfl⟩)))
    | torn => exact absurd rfl htorn

theorem expected_of_isPattern_append_at :
    parse "a\x7bx" = .error ⟨.noAlternative, 2, [.digit]⟩ ∧ ∀ r, IsPattern ('a' :: '{' :: r) →
      (∃ c, c.isDigit ∧ [c] <+: r) ∨ ∃ c, Text.isBlank c ∧ [c] <+: r := by
  have h : parse "a\x7bx" = .error ⟨.noAlternative, 2, [.digit]⟩ := by decide +kernel
  refine ⟨h, fun r hr => ?_⟩
  obtain ⟨x, w, ht, hx, hall⟩ := expected_of_isPattern_append h
  have hsplit : ['a', '{'] ++ ['x'] = x ++ w := ht
  obtain ⟨rfl, -⟩ := Cursor.append_inj_of_utf8Length_eq hsplit hx.symm
  rcases hall r hr with ⟨-, h⟩ | ⟨d, hd, t, hdt, ht⟩ | ⟨c, hc, hr, -⟩ | ⟨-, h⟩ | ⟨-, h⟩
  · simp at h
  · obtain rfl := List.mem_singleton.1 hd
    obtain ⟨c, hc, rfl⟩ := hdt
    exact .inl ⟨c, hc, ht⟩
  · exact .inr ⟨c, hc, hr⟩
  · exact absurd h (by decide)
  · exact absurd h (by decide)

end Regex
end RegexNotation
