/-
  What is read as a pattern.

  * `Fits.begins`: the character with which the text of each level begins.  It decides every choice between
    the rules of the grammar, and it is never one that may follow a repetition;
  * `reads_atom`: an atom is read behind exactly the texts of the trees of that level, given that the inside of
    groups is, wherever a `)` or nothing follows;
  * `reads_inside`: the inside of groups is, by induction on how many more of them may nest;
  * `parse_eq_ok_iff`: hence a text is read as the one well-formed tree that it spells, if there is one;
  * `parse_print_iff`: the printed text of a tree spells it, so it reads as that tree iff this is well-formed.
-/
import RegexNotation.Parser.Error
import RegexNotation.Proofs.Quantifiers

namespace RegexNotation

/-! ## The first character -/

/-- Whether an atom may begin with the character. -/
def Alphabet.opens (c : Char) : Bool := !isReserved c || ['(', '.', '$', '[', '\\'].contains c

/-- How the texts of a level begin. -/
def Level.Begins : Level → List Char → Prop
  | alternation, s => ∀ x ∈ s.head?, Alphabet.opens x ∨ x = '|'
  | concatenation, s => ∀ x ∈ s.head?, Alphabet.opens x
  | _, s => ∃ x t, s = x :: t ∧ Alphabet.opens x

theorem Literal.exists_cons_render {a : Literal} (ha : a.Valid) :
    ∃ x t, a.render = x :: t ∧ Alphabet.opens x := by
  cases a with
  | plain c =>
    have : Alphabet.isReserved c = false := ha
    exact ⟨c, [], rfl, by simp [Alphabet.opens, this]⟩
  | _ => exact ⟨'\\', _, rfl, by decide⟩

namespace Regex

theorem Fits.begins {ℓ : Level} {e : Regex} (h : e.Fits ℓ) :
    ∀ {s : List Char}, e.SpelledBy s → ℓ.Begins s := by
  induction h with
  | concatenation _ ih => intro s hs x hx; exact .inl (ih hs x hx)
  | alt _ _ ih _ =>
    rintro s ⟨u, v, hu, -, rfl⟩ x hx
    rcases u with _ | ⟨y, u⟩
    · exact .inr (Option.some.inj hx).symm
    · exact ih hu x hx
  | blank => rintro s rfl x ⟨⟩
  | sequence _ ih =>
    intro s hs x hx
    obtain ⟨y, t, rfl, hy⟩ := ih hs
    cases hx
    exact hy
  | repetition _ ih => exact ih
  | cat _ _ ih _ =>
    rintro s ⟨u, v, hu, -, rfl⟩
    obtain ⟨x, t, rfl, hx⟩ := ih hu
    exact ⟨x, t ++ v, rfl, hx⟩
  | atom _ ih => exact ih
  | quantified _ ih =>
    rintro s ⟨u, v, hu, -, rfl⟩
    obtain ⟨x, t, rfl, hx⟩ := ih hu
    exact ⟨x, t ++ v, rfl, hx⟩
  | literal hc => rintro s rfl; exact Literal.exists_cons_render hc
  | @group kind _ _ _ =>
    rintro s ⟨u, -, rfl⟩
    cases kind with
    | plain => exact ⟨'(', _, rfl, by decide⟩
    | capture => exact ⟨'(', _, rfl, by decide⟩
  | _ => rintro s rfl; exact ⟨_, _, rfl, by decide⟩

/-- The text is one of a tree of the level, with groups that nest at most `d` deep. -/
def Written (ℓ : Level) (d : Nat) (e : Regex) (s : List Char) : Prop :=
  e.Fits ℓ ∧ e.nesting ≤ d ∧ e.SpelledBy s

end Regex

namespace Parser

open Regex (Written)

/-! ## Atoms -/

/-- What is read as the inside of a group, where `)` or nothing follows, is an alternation with groups that
    nest less than `d` deep. -/
def ReadsInside (inside : Parser Regex) (d : Nat) : Prop :=
  ∃ R, inside.Reads R ∧ ∀ e s r, (∀ x ∈ r.head?, x = ')') →
    (R e s r ↔ e.Fits .alternation ∧ e.nesting < d ∧ e.SpelledBy s)

variable {inside : Parser Regex} {d : Nat}

/-- The rules for atoms. -/
inductive AtomRule where
  | group (kind : GroupKind)
  | any
  | never
  | empty
  | set
  | named
  | literal
deriving DecidableEq

/-- The only rule for an atom that can succeed on a text. -/
def AtomRule.on : List Char → AtomRule
  | '(' :: '?' :: _ => group .plain
  | '(' :: _ => group .capture
  | '.' :: _ => any
  | '$' :: '0' :: _ => never
  | '$' :: _ => empty
  | '[' :: _ => set
  | '\\' :: l :: _ => if NamedSet.isName l then named else literal
  | _ => literal

/-- The rule that reads an atom. -/
def AtomRule.of? : Regex → Option AtomRule
  | .group kind _ => some (group kind)
  | .any => some any
  | .never => some never
  | .empty => some empty
  | .set _ _ => some set
  | .named _ => some named
  | .literal _ => some literal
  | _ => none

theorem AtomRule.on_render {a : Literal} (ha : a.Valid) (r : List Char) : on (a.render ++ r) = literal := by
  cases a with
  | plain c =>
    show on (c :: r) = literal
    unfold on
    split
    case h_8 => rfl
    all_goals
      next heq => exact absurd (List.cons.inj heq).1 (ne_of_isReserved ha (by decide))
  | escaped c =>
    show (if NamedSet.isName c then named else literal) = literal
    rw [(ne_of_isEscapable ha).2.2.2]
    rfl
  | control c =>
    show (if NamedSet.isName c then named else literal) = literal
    rw [isName_of_isControlLetter ha]
    rfl
  | _ => rfl

theorem AtomRule.of?_eq {e : Regex} {s : List Char} (h : Written .atom d e s) (r : List Char) :
    of? e = some (on (s ++ r)) := by
  obtain ⟨hf, -, hs⟩ := h
  cases hf with
  | any | empty | never | set => rw [show s = _ from hs]; rfl
  | named hl =>
    rw [show s = _ from hs]
    show some named = some (if _ then _ else _)
    rw [if_pos hl]
  | literal hc =>
    rw [show s = _ from hs]
    exact congrArg some (on_render hc r).symm
  | @group kind e hf =>
    obtain ⟨u, hu, rfl⟩ := hs
    cases kind with
    | plain => rfl
    | capture =>
      have hh := hf.begins hu
      rcases u with _ | ⟨y, u⟩
      · rfl
      · have hy : y ≠ '?' := by
          rintro rfl
          exact absurd (hh '?' rfl) (by decide)
        show some (group .capture) = some (on ('(' :: y :: (u ++ [')'] ++ r)))
        rw [on]
        rintro _ h
        exact hy (List.cons.inj h).1

/-- What is read by one of the given rules. -/
def ByRule (d : Nat) (ks : List AtomRule) (e : Regex) (s _r : List Char) : Prop :=
  (∃ k ∈ ks, AtomRule.of? e = some k) ∧ Written .atom d e s

/-- The text decides which rule reads it, so the order of the rules does not matter. -/
theorem reads_byRule_cons {p q : Parser Regex} {k : AtomRule} {ks : List AtomRule}
    (hp : p.Reads (ByRule d [k])) (hq : q.Reads (ByRule d ks)) (hk : k ∉ ks) :
    (p <|> q).Reads (ByRule d (k :: ks)) := by
  refine (hp.orElse_apart hq ?_).congr fun e s r => ?_
  · rintro e s r e' t r' ⟨⟨k₁, h₁, he⟩, hw⟩ ⟨⟨k₂, h₂, he'⟩, hw'⟩ h
    have hr := AtomRule.of?_eq hw r
    rw [h, ← AtomRule.of?_eq hw' r', he, he'] at hr
    obtain rfl := Option.some.inj hr
    obtain rfl := List.mem_singleton.1 h₁
    exact hk h₂
  · constructor
    · rintro (⟨⟨k₁, h₁, he⟩, hw⟩ | ⟨⟨k₂, h₂, he⟩, hw⟩)
      · obtain rfl := List.mem_singleton.1 h₁
        exact ⟨⟨k₁, List.mem_cons_self, he⟩, hw⟩
      · exact ⟨⟨k₂, List.mem_cons_of_mem k h₂, he⟩, hw⟩
    · rintro ⟨⟨k', hk', he⟩, hw⟩
      rcases List.mem_cons.1 hk' with rfl | hk'
      · exact .inl ⟨⟨k', List.mem_cons_self, he⟩, hw⟩
      · exact .inr ⟨⟨k', hk', he⟩, hw⟩

theorem byRule_singleton {k : AtomRule} {e : Regex} {s r : List Char} :
    ByRule d [k] e s r ↔ AtomRule.of? e = some k ∧ Written .atom d e s := by
  simp [ByRule]

theorem written_group {kind : GroupKind} {e : Regex} {s : List Char} :
    Written .atom d (.group kind e) s ↔ e.Fits .alternation ∧ e.nesting < d ∧
      ∃ u, e.SpelledBy u ∧ s = kind.opening ++ (u ++ [')']) := by
  constructor
  · rintro ⟨hf, hn, hs⟩
    cases hf with
    | group hf => exact ⟨hf, hn, hs⟩
  · rintro ⟨hf, hn, hs⟩
    exact ⟨.group hf, hn, hs⟩

theorem reads_group (hi : ReadsInside inside d) (kind : GroupKind) :
    (group inside kind).Reads (ByRule d [.group kind]) := by
  obtain ⟨R, hR, hiff⟩ := hi
  refine ((reads_token _).bind fun _ => hR.bind fun e => (reads_token _).bind fun _ =>
    reads_pure (Regex.group kind e)).congr fun e s r => ?_
  rw [byRule_singleton]
  constructor
  · rintro ⟨_, _, _, rfl, rfl, e', u, _, rfl, he, _, _, _, rfl, rfl, rfl, rfl⟩
    obtain ⟨hf, hn, hs⟩ := (hiff e' u _ (by rintro x ⟨⟩; rfl)).1 he
    refine ⟨rfl, written_group.2 ⟨hf, hn, u, hs, ?_⟩⟩
    simp
  · rintro ⟨hk, hw⟩
    cases e with
    | group kind' e' =>
      obtain rfl : kind' = kind := by simpa [AtomRule.of?] using hk
      obtain ⟨hf, hn, u, hs, rfl⟩ := written_group.1 hw
      refine ⟨(), _, _, rfl, by simp, e', u, [')'], rfl, ?_, (), [')'], [], rfl, rfl, rfl, rfl⟩
      exact (hiff e' u _ (by rintro x ⟨⟩; rfl)).2 ⟨hf, hn, hs⟩
    | _ => simp [AtomRule.of?] at hk

/-- The words that are atoms. -/
theorem reads_word {text : String} {e : Regex} {k : AtomRule}
    (he : ∀ e', AtomRule.of? e' = some k ↔ e' = e) (hw : ∀ t, Written .atom d e t ↔ t = text.toList) :
    (do token text; return e : Parser Regex).Reads (ByRule d [k]) := by
  refine ((reads_token text).bind fun _ => reads_pure e).congr fun e' t r => ?_
  rw [byRule_singleton, he]
  constructor
  · rintro ⟨_, _, _, rfl, rfl, rfl, rfl⟩
    exact ⟨rfl, (hw _).2 (by simp)⟩
  · rintro ⟨rfl, ht⟩
    exact ⟨(), text.toList, [], by simpa using (hw t).1 ht, rfl, rfl, rfl⟩

theorem reads_setAtom : set.Reads (ByRule d [.set]) := by
  refine reads_set.congr fun e s r => ?_
  rw [byRule_singleton]
  constructor
  · rintro ⟨negated, items, rfl, hv, hu, rfl⟩
    exact ⟨rfl, .set hv hu, Nat.zero_le d, rfl⟩
  · rintro ⟨hk, hf, -, hs⟩
    cases hf with
    | set hv hu => exact ⟨_, _, rfl, hv, hu, hs⟩
    | _ => simp [AtomRule.of?] at hk

theorem reads_namedAtom : (Regex.named <$> setLetter).Reads (ByRule d [.named]) := by
  refine (reads_setLetter.map Regex.named).congr fun e s r => ?_
  rw [byRule_singleton]
  constructor
  · rintro ⟨l, rfl, rfl, hl⟩
    exact ⟨rfl, .named hl, Nat.zero_le d, rfl⟩
  · rintro ⟨hk, hf, -, hs⟩
    cases hf with
    | named hl => exact ⟨_, rfl, hs, hl⟩
    | _ => simp [AtomRule.of?] at hk

theorem reads_literalAtom : (Regex.literal <$> literal).Reads (ByRule d [.literal]) := by
  refine (reads_literal.map Regex.literal).congr fun e s r => ?_
  rw [byRule_singleton]
  constructor
  · rintro ⟨c, rfl, hc, rfl⟩
    exact ⟨rfl, .literal hc, Nat.zero_le d, rfl⟩
  · rintro ⟨hk, hf, -, hs⟩
    cases hf with
    | literal hc => exact ⟨_, rfl, hc, hs⟩
    | _ => simp [AtomRule.of?] at hk

/-- **What is read as an atom.** -/
theorem reads_atom (hi : ReadsInside inside d) : (atom inside).Reads fun e s _ => Written .atom d e s := by
  have hany : (do token "."; return .any : Parser Regex).Reads (ByRule d [.any]) :=
    reads_word (fun e => by cases e <;> simp [AtomRule.of?]) fun t =>
      ⟨fun h => h.2.2, fun h => ⟨.any, Nat.zero_le d, h⟩⟩
  have hnever : (do token "$0"; return .never : Parser Regex).Reads (ByRule d [.never]) :=
    reads_word (fun e => by cases e <;> simp [AtomRule.of?]) fun t =>
      ⟨fun h => h.2.2, fun h => ⟨.never, Nat.zero_le d, h⟩⟩
  have hempty : (do token "$e"; return .empty : Parser Regex).Reads (ByRule d [.empty]) :=
    reads_word (fun e => by cases e <;> simp [AtomRule.of?]) fun t =>
      ⟨fun h => h.2.2, fun h => ⟨.empty, Nat.zero_le d, h⟩⟩
  have h := reads_byRule_cons (reads_group hi .plain) (reads_byRule_cons (reads_group hi .capture)
    (reads_byRule_cons hany (reads_byRule_cons hnever (reads_byRule_cons hempty
      (reads_byRule_cons reads_setAtom (reads_byRule_cons reads_namedAtom reads_literalAtom
        (by decide)) (by decide)) (by decide)) (by decide)) (by decide)) (by decide)) (by decide)
  refine h.congr fun e s r => ?_
  constructor
  · rintro ⟨-, hw⟩
    exact hw
  · intro hw
    refine ⟨⟨_, ?_, AtomRule.of?_eq hw []⟩, hw⟩
    rcases AtomRule.on (s ++ []) with (_ | _) | _ | _ | _ | _ | _ | _ <;> decide

/-! ## Repetitions -/

theorem stuck_quantifier {l : List Char} (h : ∀ x ∈ l.head?, Alphabet.opens x ∨ x = '|' ∨ x = ')') :
    Stuck (fun q s _ => Quantifier.SpelledBy q s) l := by
  rintro q s r rfl hq
  have hx : ∃ x t, s = x :: t ∧ x ∈ ['*', '+', '?', '{'] := by
    cases hq with
    | star | plus | opt => exact ⟨_, [], rfl, by decide⟩
    | exactly | atLeast | between => exact ⟨'{', _, rfl, by decide⟩
  obtain ⟨x, t, rfl, hx⟩ := hx
  have := h x rfl
  simp only [List.mem_cons, List.not_mem_nil, or_false] at hx
  rcases hx with rfl | rfl | rfl | rfl <;> exact absurd this (by decide)

/-- What is read as a repetition: an atom stays alone only where no quantifier follows. -/
def RepetitionRead (d : Nat) (e : Regex) (s r : List Char) : Prop :=
  Written .repetition d e s ∧ (e.Fits .atom → Stuck (fun q s _ => Quantifier.SpelledBy q s) r)

theorem reads_repetition (hi : ReadsInside inside d) :
    (repetition inside).Reads (RepetitionRead d) := by
  refine ((reads_atom hi).bind fun e =>
    (reads_quantifier.map (Regex.quantified e)).orElse (reads_pure e)).congr fun e s r => ?_
  constructor
  · rintro ⟨e', u, v, rfl, ⟨hf, hn, hs⟩, ⟨q, rfl, hq⟩ | ⟨hs', rfl, rfl⟩⟩
    · exact ⟨⟨.quantified hf, hn, u, v, hs, hq, rfl⟩, by rintro ⟨⟩⟩
    · refine ⟨⟨.atom hf, hn, by simpa using hs⟩, fun _ q t r' h hq => ?_⟩
      exact hs' _ t r' h ⟨q, rfl, hq⟩
  · rintro ⟨⟨hf, hn, hs⟩, hst⟩
    cases hf with
    | atom hf =>
      refine ⟨e, s, [], by simp, ⟨hf, hn, hs⟩, .inr ⟨?_, rfl, rfl⟩⟩
      rintro _ t r' h ⟨q, -, hq⟩
      exact hst hf q t r' h hq
    | quantified hf =>
      obtain ⟨u, v, hu, hv, rfl⟩ := hs
      exact ⟨_, u, v, rfl, ⟨hf, hn, hu⟩, .inl ⟨_, rfl, hv⟩⟩

theorem stuck_repetition {l : List Char} (h : ∀ x ∈ l.head?, x = '|' ∨ x = ')') :
    Stuck (RepetitionRead d) l := by
  rintro e s r rfl ⟨⟨hf, -, hs⟩, -⟩
  obtain ⟨x, t, rfl, hx⟩ := hf.begins hs
  rcases h x rfl with rfl | rfl <;> exact absurd hx (by decide)

/-- The text of a list of repetitions, or of nothing. -/
theorem each_repetition_iff {es : List Regex} {s r : List Char}
    (h : ∀ x ∈ r.head?, Alphabet.opens x ∨ x = '|' ∨ x = ')') :
    Each (RepetitionRead d) es s r ↔ Each (fun e s _ => Written .repetition d e s) es s r := by
  constructor
  · intro he
    induction he with
    | nil => exact .nil
    | cons ha _ ih => exact .cons ha.1 (ih h)
  · intro he
    induction he with
    | nil => exact .nil
    | @cons e es s t r ha he ih =>
      refine .cons ⟨ha, fun _ => stuck_quantifier ?_⟩ (ih h)
      cases he with
      | nil => exact h
      | cons hb _ =>
        obtain ⟨x, u, rfl, hx⟩ := hb.1.begins hb.2.2
        rintro y ⟨⟩
        exact .inl hx

/-! ## Left spines -/

/-- A tree built to the left by `f`, with its text: the innermost part is of `Q`, the others are of `W`. -/
inductive Spine (f : Regex → Regex → Regex) (Q W : Regex → List Char → Prop) : Regex → List Char → Prop
  | base {e s} : Q e s → Spine f Q W e s
  | step {l r u v} : Spine f Q W l u → W r v → Spine f Q W (f l r) (u ++ v)

theorem Each.append {W : Regex → List Char → Prop} {es fs : List Regex} {s t r : List Char}
    (h : Each (fun e s _ => W e s) es s r) (h' : Each (fun e s _ => W e s) fs t r) :
    Each (fun e s _ => W e s) (es ++ fs) (s ++ t) r := by
  induction h with
  | nil => exact h'
  | cons ha _ ih =>
    rw [List.append_assoc]
    exact .cons ha (ih h')

theorem Each.snoc {W : Regex → List Char → Prop} {es : List Regex} {e : Regex} {s t r : List Char}
    (h : Each (fun e s _ => W e s) es s r) (he : W e t) :
    Each (fun e s _ => W e s) (es ++ [e]) (s ++ t) r := by
  simpa using h.append (Each.cons (R := fun e s _ => W e s) he .nil)

/-- Where the texts do not depend on what follows, it may be anything. -/
theorem Each.rest_irrel {W : Regex → List Char → Prop} {es : List Regex} {s r : List Char}
    (h : Each (fun e s _ => W e s) es s r) (r' : List Char) : Each (fun e s _ => W e s) es s r' := by
  induction h with
  | nil => exact .nil
  | cons ha _ ih => exact .cons ha ih

/-- A spine is a fold over the list of its parts. -/
theorem spine_iff {f : Regex → Regex → Regex} {Q W : Regex → List Char → Prop} {e : Regex}
    {s : List Char} (r : List Char) :
    Spine f Q W e s ↔ ∃ e₀ es s₀ t, e = es.foldl f e₀ ∧ s = s₀ ++ t ∧ Q e₀ s₀ ∧
      Each (fun e s _ => W e s) es t r := by
  constructor
  · intro h
    induction h with
    | base h => exact ⟨_, [], _, [], rfl, by simp, h, .nil⟩
    | @step _ b _ v _ hb ih =>
      obtain ⟨e₀, es, s₀, t, rfl, rfl, h₀, he⟩ := ih
      exact ⟨e₀, es ++ [b], s₀, t ++ v, by simp, by simp, h₀, he.snoc hb⟩
  · rintro ⟨e₀, es, s₀, t, rfl, rfl, h₀, he⟩
    have hs : Spine f Q W e₀ s₀ := .base h₀
    clear h₀
    induction he generalizing e₀ s₀ with
    | nil => simpa using hs
    | cons ha _ ih =>
      rw [List.foldl_cons, ← List.append_assoc]
      exact ih _ _ (.step hs ha)

/-! ## Concatenations -/

theorem written_sequence {e : Regex} {s : List Char} :
    Written .sequence d e s ↔ Spine .cat (Written .repetition d) (Written .repetition d) e s := by
  constructor
  · rintro ⟨hf, hn, hs⟩
    induction e generalizing s with
    | cat l r ihl _ =>
      cases hf with
      | repetition h => exact .base ⟨h, hn, hs⟩
      | cat hl hr =>
        obtain ⟨u, v, hu, hv, rfl⟩ := hs
        exact .step (ihl hl (Nat.max_le.1 hn).1 hu) ⟨hr, (Nat.max_le.1 hn).2, hv⟩
    | _ =>
      cases hf with
      | repetition h => exact .base ⟨h, hn, hs⟩
  · intro h
    induction h with
    | base h => exact ⟨.repetition h.1, h.2⟩
    | step _ hr ih =>
      exact ⟨.cat ih.1 hr.1, Nat.max_le.2 ⟨ih.2.1, hr.2.1⟩, _, _, ih.2.2, hr.2.2, rfl⟩

/-- What is read as a concatenation. -/
def ConcatenationRead (d : Nat) (e : Regex) (s r : List Char) : Prop :=
  ∃ es, e = .concat es ∧ Each (RepetitionRead d) es s r ∧ Stuck (RepetitionRead d) r

theorem reads_concatenation (hi : ReadsInside inside d) :
    (concatenation inside).Reads (ConcatenationRead d) := by
  obtain ⟨R, hR, -⟩ := id hi
  refine (((reads_repetition hi).many (advances_repetition hR.consumes)).map Regex.concat).congr
    fun e s r => ?_
  exact Iff.rfl

theorem concatenationRead_iff {e : Regex} {s r : List Char} (h : ∀ x ∈ r.head?, x = '|' ∨ x = ')') :
    ConcatenationRead d e s r ↔ Written .concatenation d e s := by
  have hr : ∀ x ∈ r.head?, Alphabet.opens x ∨ x = '|' ∨ x = ')' := fun x hx => .inr (h x hx)
  constructor
  · rintro ⟨es, rfl, he, -⟩
    cases (each_repetition_iff hr).1 he with
    | nil => exact ⟨.blank, Nat.zero_le d, rfl⟩
    | cons h₀ he =>
      have := written_sequence.2 ((spine_iff r).2 ⟨_, _, _, _, rfl, rfl, h₀, he⟩)
      exact ⟨.sequence this.1, this.2⟩
  · rintro ⟨hf, hn, hs⟩
    cases hf with
    | blank =>
      obtain rfl := hs
      exact ⟨[], rfl, .nil, stuck_repetition h⟩
    | sequence hf =>
      obtain ⟨e₀, es, s₀, t, rfl, rfl, h₀, he⟩ := (spine_iff r).1 (written_sequence.1 ⟨hf, hn, hs⟩)
      exact ⟨e₀ :: es, rfl, (each_repetition_iff hr).2 (.cons h₀ he), stuck_repetition h⟩

/-! ## Alternations -/

/-- The text of an alternative behind the first one. -/
def BarWritten (d : Nat) (e : Regex) (s : List Char) : Prop :=
  ∃ u, s = '|' :: u ∧ Written .concatenation d e u

/-- What is read as such an alternative. -/
def BarRead (d : Nat) (e : Regex) (s r : List Char) : Prop :=
  ∃ u, s = '|' :: u ∧ ConcatenationRead d e u r

theorem written_alternation {e : Regex} {s : List Char} :
    Written .alternation d e s ↔ Spine .alt (Written .concatenation d) (BarWritten d) e s := by
  constructor
  · rintro ⟨hf, hn, hs⟩
    induction e generalizing s with
    | alt l r ihl _ =>
      cases hf with
      | concatenation h => exact .base ⟨h, hn, hs⟩
      | alt hl hr =>
        obtain ⟨u, v, hu, hv, rfl⟩ := hs
        exact .step (ihl hl (Nat.max_le.1 hn).1 hu) ⟨v, rfl, hr, (Nat.max_le.1 hn).2, hv⟩
    | _ =>
      cases hf with
      | concatenation h => exact .base ⟨h, hn, hs⟩
  · intro h
    induction h with
    | base h => exact ⟨.concatenation h.1, h.2⟩
    | step _ hr ih =>
      obtain ⟨v, rfl, hf, hn, hv⟩ := hr
      exact ⟨.alt ih.1 hf, Nat.max_le.2 ⟨ih.2.1, hn⟩, _, _, ih.2.2, hv, rfl⟩

theorem head?_bars {R : Regex → List Char → List Char → Prop} {es : List Regex} {s r : List Char}
    (hR : ∀ e s r, R e s r → ∃ u, s = '|' :: u) (he : Each R es s r) (h : ∀ x ∈ r.head?, x = ')') :
    ∀ x ∈ (s ++ r).head?, x = '|' ∨ x = ')' := by
  cases he with
  | nil => exact fun x hx => .inr (h x hx)
  | cons ha _ =>
    obtain ⟨u, rfl⟩ := hR _ _ _ ha
    rintro x ⟨⟩
    exact .inl rfl

theorem each_barRead_iff {es : List Regex} {s r : List Char} (h : ∀ x ∈ r.head?, x = ')') :
    Each (BarRead d) es s r ↔ Each (fun e s _ => BarWritten d e s) es s r := by
  constructor
  · intro he
    induction he with
    | nil => exact .nil
    | cons ha he ih =>
      have hh := head?_bars (fun _ _ _ ⟨u, hu, _⟩ => ⟨u, hu⟩) he h
      obtain ⟨u, rfl, hu⟩ := ha
      exact .cons ⟨u, rfl, (concatenationRead_iff hh).1 hu⟩ (ih h)
  · intro he
    induction he with
    | nil => exact .nil
    | cons ha he ih =>
      have hh := head?_bars (fun _ _ _ ⟨u, hu, _⟩ => ⟨u, hu⟩) he h
      obtain ⟨u, rfl, hu⟩ := ha
      exact .cons ⟨u, rfl, (concatenationRead_iff hh).2 hu⟩ (ih h)

theorem reads_bar (hi : ReadsInside inside d) :
    (do token "|"; concatenation inside : Parser Regex).Reads (BarRead d) := by
  refine ((reads_token "|").bind fun _ => reads_concatenation hi).congr fun e s r => ?_
  constructor
  · rintro ⟨_, _, u, rfl, rfl, hu⟩
    exact ⟨u, rfl, hu⟩
  · rintro ⟨u, rfl, hu⟩
    exact ⟨(), ['|'], u, rfl, rfl, hu⟩

theorem reads_alternation (hi : ReadsInside inside d) :
    ReadsInside (alternation inside) (d + 1) := by
  have hb : (do token "|"; concatenation inside : Parser Regex).Advances :=
    (advances_token (by decide)).bind fun _ => (reads_concatenation hi).consumes
  refine ⟨_, (reads_concatenation hi).bind fun e => ((reads_bar hi).many hb).bind fun es =>
    reads_pure (Regex.choice e es), fun e s r hr => ?_⟩
  rw [Nat.lt_succ_iff, ← Written, written_alternation, spine_iff r]
  constructor
  · rintro ⟨e₀, s₀, _, rfl, h₀, es, t, _, rfl, ⟨he, -⟩, rfl, rfl⟩
    simp only [List.append_nil, List.nil_append] at h₀ he
    have hh := head?_bars (fun _ _ _ ⟨u, hu, _⟩ => ⟨u, hu⟩) he hr
    exact ⟨e₀, es, s₀, t, rfl, by simp, (concatenationRead_iff hh).1 h₀, (each_barRead_iff hr).1 he⟩
  · rintro ⟨e₀, es, s₀, t, rfl, rfl, h₀, he⟩
    have he := (each_barRead_iff hr).2 he
    have hh := head?_bars (fun _ _ _ ⟨u, hu, _⟩ => ⟨u, hu⟩) he hr
    refine ⟨e₀, s₀, t, rfl, (concatenationRead_iff hh).2 h₀, es, t, [], by simp,
      ⟨by simpa using he, ?_⟩, rfl, rfl⟩
    rintro e' u r' h ⟨v, rfl, -⟩
    exact absurd (hr '|' (by rw [show r = _ from h]; rfl)) (by decide)

theorem reads_inside : ∀ d, ReadsInside (Parser.inside d) d
  | 0 => by
    refine ⟨fun _ _ _ => False, fun c e c' => ?_, fun e s r _ => ?_⟩
    · constructor
      · rintro ⟨⟩
      · rintro ⟨_, _, ⟨⟩⟩
    · constructor
      · rintro ⟨⟩
      · rintro ⟨-, h, -⟩
        exact absurd h (Nat.not_lt_zero _)
  | d + 1 => reads_alternation (reads_inside d)

end Parser

/-! ## Whole texts -/

/-- **What is read as a pattern.** -/
theorem Regex.parse_eq_ok_iff {text : String} {e : Regex} :
    parse text = .ok e ↔ e.WellFormed ∧ e.SpelledBy text.toList := by
  obtain ⟨R, hR, hiff⟩ := Parser.reads_alternation (Parser.reads_inside maxNesting)
  have hR : Parser.pattern.Reads R := hR
  have hend := hiff e text.toList [] (by rintro x ⟨⟩)
  rw [Nat.lt_succ_iff, ← and_assoc] at hend
  rw [WellFormed, ← hend]
  constructor
  · intro h
    simp only [parse] at h
    split at h
    · next e' o ho =>
      obtain rfl := Except.ok.inj h
      obtain ⟨s, hs, hR'⟩ := (hR _ _ _).1 ho
      have : text.toList = s := by simpa [Cursor.start] using hs.1
      rw [this]
      exact hR'
    · cases h
    · cases h
  · intro h
    have := (hR (.start text) e ⟨_, []⟩).2 ⟨text.toList, ⟨by simp [Cursor.start], rfl⟩, h⟩
    simp only [parse, this]

theorem Regex.parse_print_iff {e : Regex} : parse e.print = .ok e ↔ e.WellFormed := by
  rw [parse_eq_ok_iff, toList_print]
  exact and_iff_left e.spelledBy_render

end RegexNotation
