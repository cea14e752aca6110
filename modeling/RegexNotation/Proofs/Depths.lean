/-
  How deep a text goes into groups.

  * `Grammar.Nests K L d`: no beginning of a word of `L`, read from a place in `K`, leaves more than `d` groups open.
    Each rule of the grammar has one such lemma, up to `nests_pattern`;
  * `Parser.Unclosed r n x`: the text `x` opens `n` groups one inside the other, and each of them could be closed where
    the next one opens; in the innermost, `r` more may nest;
  * `Parser.unclosed_of_written`: that is what a text is like that leaves `n` groups open and becomes an alternation
    when they are closed.
-/
import RegexNotation.Proofs.Alternatives
import RegexNotation.Proofs.Places

namespace RegexNotation

open Computability

/-! ## Beginnings of words -/

namespace Place

variable {k : Place} {c : Char} {s : List Char}

theorem weight_le : k.weight c ≤ if c = '(' then 1 else 0 := by
  cases k <;> simp [weight] <;> grind

/-- A text opens at most as many groups as it has opening parentheses. -/
theorem groups_le_count : k.groups s ≤ s.count '(' := by
  induction s generalizing k with
  | nil => exact Int.le_refl 0
  | cons c s ih =>
    have hs := ih (k := k.read c)
    have hc := k.weight_le (c := c)
    rw [groups_cons]
    by_cases h : c = '('
    · subst h
      rw [if_pos rfl] at hc
      rw [List.count_cons_self]
      omega
    · rw [if_neg h] at hc
      rw [List.count_cons_of_ne h]
      omega

end Place

theorem Quantifier.SpelledBy.exists_cons {q : Quantifier} {s : List Char} (h : q.SpelledBy s) : ∃ c t, s = c :: t := by
  cases h <;> exact ⟨_, _, rfl⟩

theorem Quantifier.SpelledBy.not_mem {q : Quantifier} {s : List Char} (h : q.SpelledBy s) {x : Char}
    (hblank : Text.isBlank x = false) (hdigit : x.isDigit = false) (hmark : x ∉ ['*', '+', '?', '{', ',', '}']) :
    x ∉ s := by
  have hblanks : ∀ {w : List Char}, AllBlank w → x ∉ w := by
    intro w hw hx
    rw [hw x hx] at hblank
    cases hblank
  have hdigits : ∀ {n : UInt32} {ds : List Char}, IsNumeral n ds → x ∉ ds := by
    intro n ds hn hx
    rw [hn.2.1 x hx] at hdigit
    cases hdigit
  simp only [List.mem_cons, List.not_mem_nil, or_false, not_or] at hmark
  cases h with
  | star | plus | opt => simp [hmark]
  | exactly hw hn hw' => simp [hmark, hblanks hw, hdigits hn, hblanks hw']
  | atLeast hw hn hw' hu => simp [hmark, hblanks hw, hdigits hn, hblanks hw', hblanks hu]
  | between hw hn hw' hu hm hu' =>
    simp [hmark, hblanks hw, hdigits hn, hblanks hw', hblanks hu, hdigits hm, hblanks hu']

namespace Grammar

/-- No beginning of a word of `L`, read from a place in `K`, leaves more than `d` groups open. -/
def Nests (K : Place → Prop) (L : Language Char) (d : Nat) : Prop :=
  ∀ s t, s ++ t ∈ L → ∀ k, K k → k.groups s ≤ d

variable {K K' : Place → Prop} {L M : Language Char} {d : Nat}

theorem nests_of_not_mem (h : ∀ s ∈ L, '(' ∉ s) : Nests K L d := by
  intro s t hst k _
  have hs := k.groups_le_count (s := s)
  rw [List.count_eq_zero_of_not_mem fun hm => h _ hst (List.mem_append_left t hm)] at hs
  omega

theorem nests_word {t : List Char} (h : '(' ∉ t) : Nests K (word t) d := by
  refine nests_of_not_mem ?_
  rintro _ rfl
  exact h

theorem nests_one : Nests K 1 d := nests_word (t := []) (by decide)

theorem Nests.add (hL : Nests K L d) (hM : Nests K M d) : Nests K (L + M) d := by
  rintro s t (h | h)
  · exact hL s t h
  · exact hM s t h

theorem Nests.mul (hL : Nests K L d) (hK : Leads K K' L) (hM : Nests K' M d) : Nests K (L * M) d := by
  intro s t hst k hk
  obtain ⟨u, hu, v, hv, h⟩ := Language.mem_mul.1 hst
  rcases List.append_eq_append_iff.1 h with ⟨w, rfl, rfl⟩ | ⟨w, rfl, rfl⟩
  · obtain ⟨hk', hg⟩ := hK u hu k hk
    rw [Place.groups_append, hg, Int.zero_add]
    exact hM w t hv _ hk'
  · exact hL s w hu k hk

theorem Nests.pow (hL : Nests K L d) (hK : Leads K K L) (n : Nat) : Nests K (L ^ n) d := by
  induction n with
  | zero => exact nests_one
  | succ n ih =>
    rw [pow_succ']
    exact hL.mul hK ih

theorem Nests.kstar (hL : Nests K L d) (hK : Leads K K L) : Nests K L∗ d := by
  intro s t hst
  rw [Language.kstar_eq_iSup_pow] at hst
  obtain ⟨n, hn⟩ := Language.mem_iSup.1 hst
  exact hL.pow hK n s t hn

/-! ## Atoms -/

/-- A parenthesis behind a backslash opens no group, and there is none behind it. -/
theorem nests_escape : Nests (· = .quoted) escape d := by
  rintro (_ | ⟨x, s⟩) t ⟨a, ha, h⟩ _ rfl
  · exact Int.natCast_nonneg d
  · have hdigits : ∀ ds : String, (∀ c ∈ ds.toList, Hex.isDigit c) → '(' ∉ ds.toList := fun ds hds hm =>
      absurd (hds _ hm) (by decide)
    have hs : '(' ∉ s := by
      refine fun hm => absurd (List.mem_append_left t hm) ?_
      cases a with
      | plain c =>
        obtain ⟨rfl, -⟩ := List.cons.inj h
        exact absurd ha (by decide)
      | escaped c | control c =>
        have hst : [] = s ++ t := (List.cons.inj (List.cons.inj h).2).2
        simp [← hst]
      | hex2 ds | hex4 ds =>
        have hst : ds.toList = s ++ t := (List.cons.inj (List.cons.inj h).2).2
        exact hst ▸ hdigits ds ha.2
      | hexBraced ds =>
        have hst : '{' :: (ds.toList ++ ['}']) = s ++ t := (List.cons.inj (List.cons.inj h).2).2
        simp [← hst, hdigits ds ha.2.2]
    have hgroups := (Place.quoted.read x).groups_le_count (s := s)
    have hweight : Place.quoted.weight x = 0 := rfl
    rw [List.count_eq_zero_of_not_mem hs] at hgroups
    rw [Place.groups_cons, hweight]
    omega

theorem nests_character : Nests Place.Free character d := by
  rw [character_eq]
  refine (nests_of_not_mem ?_).add ((nests_word (by decide)).mul leads_backslash nests_escape)
  rintro _ ⟨c, hc, rfl⟩ hm
  obtain rfl := List.mem_singleton.1 hm
  exact absurd hc (by decide)

theorem nests_named : Nests Place.Free named d := by
  refine nests_of_not_mem fun s hs hm => ?_
  obtain ⟨l, hl, rfl⟩ := mem_named.1 hs
  obtain rfl : '(' = l := by simpa using hm
  exact absurd hl (by decide)

theorem nests_setItem : Nests Place.Free setItem d := by
  have hrange : Nests Place.Free (character * word ['-'] * character) d :=
    (nests_character.mul leads_character.free (nests_word (by decide))).mul
      (leads_character.free.mul leads_dash) nests_character
  exact (nests_named.add hrange).add nests_character

theorem nests_set : Nests Place.Free set d := by
  have hopen : Nests Place.Free (word ['['] * (1 + word ['^'])) d :=
    (nests_word (by decide)).mul leads_openBracket (nests_one.add (nests_word (by decide)))
  have hitems := hopen.mul (leads_openBracket.mul leads_caret) (nests_setItem.kstar leads_setItem.free)
  exact hitems.mul ((leads_openBracket.mul leads_caret).mul leads_setItem.kstar_free) (nests_word (by decide))

theorem nests_suffix : Nests K suffix d := by
  refine nests_of_not_mem fun s hs hm => ?_
  obtain ⟨q, hq⟩ := mem_suffix.1 hs
  exact hq.not_mem rfl rfl (by decide) hm

/-! ## Expressions -/

theorem nests_group (hL : Nests Place.Free L d) (hf : Leads Place.Free Place.Free L) (kind : GroupKind) :
    Nests Place.Free (word kind.opening * L * word [')']) (d + 1) := by
  have hrest : Nests Place.Free (L * word [')']) d := hL.mul hf (nests_word (by decide))
  intro s t hst k hk
  rw [mul_assoc] at hst
  obtain ⟨_, rfl, v, hv, h⟩ := Language.mem_mul.1 hst
  rcases List.append_eq_append_iff.1 h with ⟨w, rfl, rfl⟩ | ⟨w, hw, rfl⟩
  · obtain ⟨hk', hg⟩ := after_opening kind hk
    have hnest := hrest w t hv _ hk'
    rw [Place.groups_append, hg]
    omega
  · -- an opening has one parenthesis
    have hcount : s.count '(' ≤ kind.opening.count '(' := (hw ▸ List.sublist_append_left s w).count_le _
    have hone : kind.opening.count '(' = 1 := by cases kind <;> rfl
    have hs := k.groups_le_count (s := s)
    omega

section
variable (hg : ∀ kind, Nests Place.Free (word (GroupKind.opening kind) * L * word [')']) d)
include hg

theorem nests_atom : Nests Place.Free (atom L) d :=
  (((((((hg .plain).add (hg .capture)).add (nests_word (by decide))).add (nests_word (by decide))).add
    (nests_word (by decide))).add nests_set).add nests_named).add nests_character

variable (hL : Leads Place.Free Place.Free L)
include hL

theorem nests_concatenation : Nests Place.Free (concatenation L) d :=
  ((nests_atom hg).mul (leads_atom hL) (nests_one.add nests_suffix)).kstar (leads_repetition hL).free

theorem nests_alternation : Nests Place.Free (alternation L) d :=
  have hbar := (nests_word (by decide)).mul leads_barSign (nests_concatenation hg hL)
  (nests_concatenation hg hL).mul (leads_concatenation hL) (hbar.kstar (leads_bar hL))

end

theorem nests_inside_group : ∀ (d : Nat) (kind : GroupKind),
    Nests Place.Free (word kind.opening * inside d * word [')']) d
  | 0, kind => by
    rintro s t ⟨_, ⟨_, -, _, ⟨⟩, -⟩, -⟩
  | d + 1, kind => nests_group (nests_alternation (nests_inside_group d) (leads_inside d)) (leads_inside (d + 1)) kind

/-- **No beginning of a pattern leaves more groups open than may nest.** -/
theorem nests_pattern : Nests Place.Free pattern maxNesting :=
  nests_alternation (nests_inside_group _) (leads_inside _)

end Grammar

/-! ## Open groups -/

namespace Parser

open Grammar
open Regex (Written)

/-- The text `x` opens `n` groups one inside the other, and each of them could be closed where the next one opens, for
    what it has by then is an alternation.  In the innermost, `r` more may nest. -/
inductive Unclosed (r : Nat) : Nat → List Char → Prop
  | here {ess u} : AlternativesWritten r ess u → Unclosed r 0 u
  | within {n ess u v} (kind : GroupKind) : AlternativesWritten (r + n + 1) ess u → Unclosed r n v →
      Unclosed r (n + 1) (u ++ (kind.opening ++ v))

variable {r n d : Nat} {e : Regex} {ess : List (List Regex)} {u x : List Char} {k : Place}

theorem exists_written_of_fits (hf : e.Fits .alternation) (hn : e.nesting ≤ d) (hs : e.SpelledBy u) :
    ∃ ess, AlternativesWritten d ess u := by
  obtain ⟨ess, -, h⟩ := written_alternation_iff_alternatives.1 ⟨hf, hn, hs⟩
  exact ⟨ess, h⟩

theorem AlternativesWritten.leads (h : AlternativesWritten d ess u) (hk : k.Free) :
    (k.after u).Free ∧ k.groups u = 0 := by
  have hw := written_alternation_iff_alternatives.2 ⟨ess, rfl, h⟩
  exact leads_alternation (leads_inside d) u ((mem_alternation (mem_inside d)).2 ⟨_, hw⟩) k hk

theorem Unclosed.append (hx : Unclosed r n x) (h : AlternativesWritten (r + n) ess u) : Unclosed r n (u ++ x) := by
  cases hx with
  | here hx =>
    obtain ⟨_, _, _, _, -, -, h⟩ := h.append hx
    exact .here h
  | within kind hv hx =>
    obtain ⟨_, _, _, _, -, -, h⟩ := h.append hv
    rw [← List.append_assoc]
    exact .within kind h hx

theorem Unclosed.bar_append (hx : Unclosed r n x) (h : AlternativesWritten (r + n) ess u) :
    Unclosed r n (u ++ '|' :: x) := by
  cases hx with
  | here hx => exact .here (h.bar_append hx)
  | within kind hv hx =>
    rw [← List.cons_append, ← List.append_assoc]
    exact .within kind (h.bar_append hv) hx

theorem Unclosed.group (kind : GroupKind) (hx : Unclosed r n x) : Unclosed r (n + 1) (kind.opening ++ x) :=
  .within (u := []) kind (.single .nil) hx

/-- An unclosed text leads to a place where an expression may begin, and leaves its groups open. -/
theorem Unclosed.leads (hx : Unclosed r n x) (hk : k.Free) : (k.after x).Free ∧ k.groups x = n := by
  induction hx generalizing k with
  | here h => exact h.leads hk
  | within kind h _ ih =>
    obtain ⟨hk', hg⟩ := h.leads hk
    obtain ⟨hk'', hg'⟩ := after_opening kind hk'
    obtain ⟨hend, hgroups⟩ := ih hk''
    simp only [Place.after_append, Place.groups_append, hg, hg', hgroups]
    exact ⟨hend, by omega⟩

/-- The text of an atom without groups leaves none open, wherever it is cut. -/
theorem not_spelledBy_of_atom {t : List Char} (hf : e.Fits .atom) (hn : e.nesting = 0) (hk : k.Free)
    (hg : 0 < k.groups x) : ¬ e.SpelledBy (x ++ t) := by
  intro hs
  have hmem := (mem_atom (mem_inside 0)).2 ⟨e, hf, Nat.le_of_eq hn, hs⟩
  have hle := nests_atom (nests_inside_group 0) x t hmem k hk
  omega

/-- What is no closing parenthesis stands in front of the last ones. -/
theorem append_cons_eq_append_closers {v : List Char} {c : Char} (hc : c ≠ ')')
    (h : x ++ List.replicate n ')' = u ++ c :: v) : ∃ w, x = u ++ c :: w ∧ v = w ++ List.replicate n ')' := by
  have hclosers : c ∉ List.replicate n ')' := fun hm => hc (List.eq_of_mem_replicate hm)
  rcases List.append_eq_append_iff.1 h with ⟨w, -, hw⟩ | ⟨_ | ⟨c', w⟩, hx, hv⟩
  · exact absurd (by simp [hw]) hclosers
  · rw [List.nil_append] at hv
    exact absurd (by simp [← hv]) hclosers
  · obtain ⟨rfl, hvw⟩ := List.cons.inj hv
    exact ⟨w, hx, hvw⟩

/-- Induction on the tree of the closed text.  The groups that are open are those around its last closing parentheses,
    so nothing but groups, concatenations and alternatives can lie there. -/
theorem unclosed_of_fits {ℓ : Level} (hf : e.Fits ℓ) (hn : e.nesting ≤ r + (n + 1))
    (hs : e.SpelledBy (x ++ List.replicate (n + 1) ')')) (hk : k.Free) (hg : k.groups x = (n + 1 : Nat)) :
    Unclosed r (n + 1) x := by
  have hpos : 0 < k.groups x := by omega
  induction hf generalizing n x k with
  | concatenation _ ih | sequence _ ih | repetition _ ih | atom _ ih => exact ih hn hs hk hg hpos
  | any => exact absurd hs (not_spelledBy_of_atom .any rfl hk hpos)
  | empty => exact absurd hs (not_spelledBy_of_atom .empty rfl hk hpos)
  | never => exact absurd hs (not_spelledBy_of_atom .never rfl hk hpos)
  | set hv hu => exact absurd hs (not_spelledBy_of_atom (.set hv hu) rfl hk hpos)
  | named hl => exact absurd hs (not_spelledBy_of_atom (.named hl) rfl hk hpos)
  | literal hc => exact absurd hs (not_spelledBy_of_atom (.literal hc) rfl hk hpos)
  | blank =>
    have hnil : x ++ List.replicate (n + 1) ')' = [] := hs
    simp [List.replicate_succ] at hnil
  | @alt l r' hl hr _ ih =>
    obtain ⟨u, v, hu, hv, h⟩ := hs
    obtain ⟨hnl, hnr⟩ := Nat.max_le.1 hn
    obtain ⟨w, rfl, rfl⟩ := append_cons_eq_append_closers (by decide) h
    obtain ⟨ess, hess⟩ := exists_written_of_fits hl hnl hu
    obtain ⟨hk', hg'⟩ := hess.leads hk
    obtain ⟨hk'', hg''⟩ := leads_barSign ['|'] rfl _ hk'
    rw [List.append_cons, Place.groups_append, Place.groups_append, Place.after_append, hg', hg'', Int.zero_add,
      Int.zero_add] at hg
    exact (ih hnr hv hk'' hg (by omega)).bar_append hess
  | @cat l r' hl hr _ ih =>
    obtain ⟨u, v, hu, hv, h⟩ := hs
    obtain ⟨hnl, hnr⟩ := Nat.max_le.1 hn
    obtain ⟨c, t, rfl, hc⟩ := hr.begins hv
    have hne : c ≠ ')' := by
      rintro rfl
      exact absurd hc (by decide)
    obtain ⟨w, rfl, rfl⟩ := append_cons_eq_append_closers hne h
    obtain ⟨ess, hess⟩ := exists_written_of_fits (.concatenation (.sequence hl)) hnl hu
    obtain ⟨hk', hg'⟩ := hess.leads hk
    rw [Place.groups_append, hg', Int.zero_add] at hg
    exact (ih hnr hv hk' hg (by omega)).append hess
  | quantified _ _ =>
    obtain ⟨u, v, -, hq, h⟩ := hs
    have hclose : ')' ∉ v := hq.not_mem rfl rfl (by decide)
    obtain ⟨c, t, rfl⟩ := hq.exists_cons
    have hne : c ≠ ')' := by
      rintro rfl
      exact hclose List.mem_cons_self
    obtain ⟨w, -, rfl⟩ := append_cons_eq_append_closers hne h
    simp at hclose
  | @group kind e hf ih =>
    obtain ⟨u, hu, h⟩ := hs
    rw [List.replicate_succ', ← List.append_assoc, ← List.append_assoc] at h
    have h := List.append_cancel_right h
    obtain ⟨w, rfl, rfl⟩ : ∃ w, x = kind.opening ++ w ∧ u = w ++ List.replicate n ')' := by
      cases kind with
      | plain => simpa [GroupKind.opening] using append_cons_eq_append_closers (u := ['(', '?']) (c := ':') (by decide) h
      | capture => simpa [GroupKind.opening] using append_cons_eq_append_closers (u := []) (c := '(') (by decide) h
    obtain ⟨hk', hg'⟩ := after_opening kind hk
    rw [Place.groups_append, hg'] at hg
    refine .group kind ?_
    cases n with
    | zero =>
      obtain ⟨ess, hess⟩ := exists_written_of_fits hf (Nat.le_of_succ_le_succ hn) (by simpa using hu)
      exact .here hess
    | succ n => exact ih (Nat.le_of_succ_le_succ hn) hu hk' (by omega) (by omega)

/-- **Open groups.**  A text that leaves `n` groups open, and is an alternation when they are closed, is unclosed. -/
theorem unclosed_of_written (h : Written .alternation (r + n) e (x ++ List.replicate n ')')) (hk : k.Free)
    (hg : k.groups x = n) : Unclosed r n x := by
  obtain ⟨hf, hn, hs⟩ := h
  cases n with
  | zero =>
    obtain ⟨ess, hess⟩ := exists_written_of_fits hf hn (by simpa using hs)
    exact .here hess
  | succ n => exact unclosed_of_fits hf hn hs hk hg

end Parser
end RegexNotation
