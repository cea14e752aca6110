/-
  Reduction of a code set to names and spans.

  * `CodeSet.partsFrom` is reduction as a loop, which stops as soon as nothing is left to cover.  It puts out the parts of
    the set all the same (`partsFrom_eq`);
  * `CodeSet.parts_exact`: the parts are names in the order of reduction and then spans in normal form; they cover the
    set exactly, and no span holds a point of a named set that the set includes;
  * `NamedSet.byInclusion_pairwise`: in that order no set comes before one that strictly includes it, whatever the sets.
    The named sets are two chains (`pairwise_withDigits`, `pairwise_withBlanks`), and of each chain at most one set is
    taken.  Hence no part is redundant (`CodeSet.parts_irredundant`).
-/
import Mathlib.Data.List.Pairwise
import Mathlib.Order.Comparable
import Mathlib.Order.Preorder.Finite
import RegexNotation.Proofs.SetAlgebra

namespace RegexNotation

open Relation (SymmGen)

/-! ## Sets of spans -/

namespace CodeSet

variable {l m : List Span}

theorem ofSpans_le_ofSpans (h : l ⊆ m) : ofSpans l ≤ ofSpans m := by
  refine le_iff.2 fun c hc => ?_
  obtain ⟨r, hr, hc⟩ := mem_ofSpans.1 hc
  exact mem_ofSpans.2 ⟨r, h hr, hc⟩

theorem ofSpans_le_compl (h : ∀ a ∈ l, a.last ≤ maxCodePoint ∧ ∀ b ∈ m, a.last < b.first ∨ b.last < a.first) :
    ofSpans l ≤ (ofSpans m).compl := by
  refine le_iff.2 fun c hc => ?_
  obtain ⟨a, ha, hca⟩ := mem_ofSpans.1 hc
  obtain ⟨hmax, hapart⟩ := h a ha
  refine mem_compl.2 ⟨UInt32.le_trans hca.2 hmax, fun hc' => ?_⟩
  obtain ⟨b, hb, hcb⟩ := mem_ofSpans.1 hc'
  rcases hapart b hb with hlt | hlt
  · exact absurd (UInt32.le_trans hcb.1 hca.2) (UInt32.not_le.2 hlt)
  · exact absurd (UInt32.le_trans hca.1 hcb.2) (UInt32.not_le.2 hlt)

end CodeSet

/-! ## The order of reduction -/

namespace NamedSet

theorem isMaximal_iff {l : List NamedSet} {n : NamedSet} :
    isMaximal l n = true ↔ ∀ m ∈ l, ¬ n.codes < m.codes := by
  rw [isMaximal, List.all_eq_true]
  refine forall₂_congr fun m _ => ?_
  rw [Bool.or_eq_true, decide_eq_true_eq, Bool.not_eq_true', ← Bool.not_eq_true, CodeSet.includes_iff_le,
    lt_iff_le_and_ne, not_and_or, not_not, eq_comm, or_comm]

theorem exists_isMaximal {l : List NamedSet} (h : l ≠ []) : ∃ n ∈ l, isMaximal l n = true := by
  obtain ⟨n, hn, hmax⟩ := Set.Finite.exists_maximalFor codes {n | n ∈ l} l.finite_toSet
    (List.exists_mem_of_ne_nil l h)
  exact ⟨n, hn, isMaximal_iff.2 fun m hm hlt => hlt.not_ge (hmax hm hlt.le)⟩

/-- No set comes before one that strictly includes it. -/
theorem byInclusion_pairwise (l : List NamedSet) :
    (byInclusion l).Pairwise fun n m => ¬ n.codes < m.codes := by
  fun_induction byInclusion l with
  | case1 l i h ih =>
    have hmax := isMaximal_iff.1 (List.findFinIdx?_eq_some_iff.1 h).1
    refine .cons (fun m hm => ?_) ih
    exact hmax m (List.mem_of_mem_eraseIdx ((byInclusion_perm _).mem_iff.1 hm))
  | case2 l h =>
    by_cases hl : l = []
    · rw [hl]
      exact .nil
    · obtain ⟨n, hn, hmax⟩ := exists_isMaximal hl
      exact absurd hmax (List.findFinIdx?_eq_none_iff.1 h n hn)

theorem nodup_letters_ordered : (ordered.map (·.letter)).Nodup :=
  ((byInclusion_perm registry).map (·.letter)).nodup_iff.2 (by decide)

/-! ## Two chains -/

/-- The named sets that hold the digits. -/
def withDigits : List CodeSet := [space.compl, word, digit]

/-- The named sets that hold the blanks. -/
def withBlanks : List CodeSet := [digit.compl, word.compl, space]

theorem digit_le_word : digit ≤ word := CodeSet.ofSpans_le_ofSpans (by decide)

theorem word_le_compl_space : word ≤ space.compl := CodeSet.ofSpans_le_compl (by decide)

theorem space_le_compl_word : space ≤ word.compl := CodeSet.ofSpans_le_compl (by decide)

theorem pairwise_withDigits : withDigits.Pairwise (· ≥ ·) := by
  have h := digit_le_word.trans word_le_compl_space
  simp [withDigits, digit_le_word, word_le_compl_space, h]

theorem pairwise_withBlanks : withBlanks.Pairwise (· ≥ ·) := by
  have h := CodeSet.compl_le_compl digit_le_word
  simp [withBlanks, space_le_compl_word, h, space_le_compl_word.trans h]

theorem comparable_of_mem {chain : List CodeSet} (h : chain.Pairwise (· ≥ ·)) {s t : CodeSet} (hs : s ∈ chain)
    (ht : t ∈ chain) : SymmGen (· ≤ ·) s t := by
  rcases eq_or_ne s t with rfl | hne
  · exact .of_le le_rfl
  · exact (h.imp SymmGen.of_ge).forall hs ht hne

theorem mem_withDigits_or_mem_withBlanks {n : NamedSet} (h : n ∈ registry) :
    n.codes ∈ withDigits ∨ n.codes ∈ withBlanks := by
  simp only [registry, List.mem_cons, List.not_mem_nil, or_false] at h
  rcases h with rfl | rfl | rfl | rfl | rfl | rfl <;> simp [withDigits, withBlanks]

/-- The digit `0` tells the one chain from the other, and so does the space. -/
theorem mem_chains : ((∀ s ∈ withDigits, '0'.val ∈ s) ∧ ∀ s ∈ withBlanks, '0'.val ∉ s) ∧
    (∀ s ∈ withBlanks, ' '.val ∈ s) ∧ ∀ s ∈ withDigits, ' '.val ∉ s := by
  simp only [withDigits, withBlanks, List.forall_mem_cons, CodeSet.mem_compl, space, word, digit, CodeSet.mem_ofSpans]
  decide

/-- Each named set holds a code point that no other one holds, but for those that include it or that it includes. -/
theorem exists_mem_comparable {n : NamedSet} (hn : n ∈ registry) : ∃ c ∈ n.codes, ∀ m ∈ registry, c ∈ m.codes →
    SymmGen (· ≤ ·) n.codes m.codes := by
  obtain ⟨⟨hdigits, hno⟩, hblanks, hno'⟩ := mem_chains
  rcases mem_withDigits_or_mem_withBlanks hn with h | h
  · refine ⟨'0'.val, hdigits _ h, fun m hm hc => ?_⟩
    have hm' := (mem_withDigits_or_mem_withBlanks hm).resolve_right fun h' => hno _ h' hc
    exact comparable_of_mem pairwise_withDigits h hm'
  · refine ⟨' '.val, hblanks _ h, fun m hm hc => ?_⟩
    have hm' := (mem_withDigits_or_mem_withBlanks hm).resolve_left fun h' => hno' _ h' hc
    exact comparable_of_mem pairwise_withBlanks h hm'

end NamedSet

/-! ## Parts -/

theorem Spans.Normal.eq_of_mem {l : List Span} (h : Normal l) {a b : Span} (ha : a ∈ l) (hb : b ∈ l) {c : UInt32}
    (hca : c ∈ a) (hcb : c ∈ b) : a = b := by
  by_contra hne
  have hapart : SymmGen Apart a b := (h.2.imp SymmGen.of_rel).forall ha hb hne
  rw [Span.mem_iff_toNat] at hca hcb
  unfold SymmGen Apart at hapart
  omega

theorem Spans.Normal.nodup {l : List Span} (h : Normal l) : l.Nodup := by
  refine h.2.imp_of_mem fun {a b} ha _ hab => ?_
  rintro rfl
  have hle := UInt32.le_iff_toNat_le.1 (h.1 a ha)
  unfold Apart at hab
  omega

namespace CodeSet

variable {whole left rest s : CodeSet} {ns ts : List NamedSet}

theorem takeNamed_empty (whole : CodeSet) (ns : List NamedSet) : takeNamed whole ns empty = ([], empty) := by
  induction ns with
  | nil => rfl
  | cons n ns ih =>
    have h : (empty.inter n.codes).isEmpty = true := isEmpty_iff.2 (bot_inf_eq n.codes)
    rw [takeNamed, h, Bool.not_true, Bool.and_false]
    exact ih

/-- Reduction as a loop.  It has put out `out`, `left` is still to be covered, and it stops once that is nothing. -/
def partsFrom (whole : CodeSet) : List NamedSet → CodeSet → List Part → List Part
  | [], left, out => out ++ left.spans.toList.map .span
  | n :: ns, left, out =>
    if whole.includes n.codes && !(left.inter n.codes).isEmpty then
      if (left.diff n.codes).isEmpty then out ++ [.named n.letter]
      else partsFrom whole ns (left.diff n.codes) (out ++ [.named n.letter])
    else partsFrom whole ns left out

theorem partsFrom_eq (whole : CodeSet) (ns : List NamedSet) (left : CodeSet) (out : List Part) :
    partsFrom whole ns left out = out ++ ((takeNamed whole ns left).1.map .named ++
      (takeNamed whole ns left).2.spans.toList.map .span) := by
  induction ns generalizing left out with
  | nil => rfl
  | cons n ns ih =>
    rw [partsFrom, takeNamed]
    split
    · split
      · next hempty =>
        -- the loop stops here, and on what is empty reduction would take nothing more
        rw [isEmpty_iff.1 hempty, takeNamed_empty]
        rfl
      · rw [ih, List.append_assoc]
        rfl
    · exact ih left out

/-- Of the names that are taken, none lies in another. -/
theorem Takes.pairwise_incomparable (h : Takes whole NamedSet.ordered left ts rest) :
    ts.Pairwise (InvImage (IncompRel (· ≤ ·)) NamedSet.codes) := by
  refine (((NamedSet.byInclusion_pairwise _).sublist h.sublist).and h.adds).imp ?_
  rintro n m ⟨hlt, c, hc, hc'⟩
  have hm : ¬ m.codes ≤ n.codes := fun hle => hc' (le_iff.1 hle c hc)
  exact ⟨fun hle => hlt ⟨hle, hm⟩, hm⟩

/-- A name that is taken holds a code point that no other one of them holds. -/
theorem Takes.exists_own_mem (h : Takes whole NamedSet.ordered left ts rest) {n : NamedSet} (hn : n ∈ ts) :
    ∃ c ∈ n.codes, ∀ m ∈ ts, c ∈ m.codes → m = n := by
  obtain ⟨c, hc, hcomparable⟩ := NamedSet.exists_mem_comparable (h.mem_registry hn)
  refine ⟨c, hc, fun m hm hcm => ?_⟩
  by_contra hne
  have : Std.Symm (InvImage (IncompRel (· ≤ ·)) NamedSet.codes) := ⟨fun _ _ => IncompRel.symm⟩
  have hincomparable : IncompRel (· ≤ ·) m.codes n.codes := h.pairwise_incomparable.forall hm hn hne
  exact not_symmGen_iff.2 hincomparable.symm (hcomparable m (h.mem_registry hm) hcm)

/-- Each part holds a code point that no other one holds. -/
theorem exists_own_mem_of_mem_parts {p : Part} (hp : p ∈ s.parts) :
    ∃ c ∈ p.codes, ∀ q ∈ s.parts, c ∈ q.codes → q = p := by
  obtain ⟨ts, rest, hparts, ht⟩ := s.parts_spec
  have hnamed : ∀ n ∈ ts, (Part.named n.letter).codes = n.codes := fun n hn => Part.codes_named (ht.mem_registry hn)
  rw [hparts] at hp ⊢
  rcases List.mem_append.1 hp with hp | hp
  · obtain ⟨n, hn, rfl⟩ := List.mem_map.1 hp
    obtain ⟨c, hc, hown⟩ := ht.exists_own_mem hn
    refine ⟨c, (hnamed n hn).symm ▸ hc, fun q hq hcq => ?_⟩
    rcases List.mem_append.1 hq with hq | hq
    · obtain ⟨m, hm, rfl⟩ := List.mem_map.1 hq
      rw [hnamed m hm] at hcq
      rw [hown m hm hcq]
    · obtain ⟨r, hr, rfl⟩ := List.mem_map.1 hq
      exact absurd hc (((ht.mem_rest c).1 ⟨r, hr, Part.mem_codes_span.1 hcq⟩).2 n hn)
  · obtain ⟨r, hr, rfl⟩ := List.mem_map.1 hp
    have hfirst : r.first ∈ r := ⟨UInt32.le_refl _, rest.normal.1 r hr⟩
    refine ⟨r.first, Part.mem_codes_span.2 hfirst, fun q hq hcq => ?_⟩
    rcases List.mem_append.1 hq with hq | hq
    · obtain ⟨m, hm, rfl⟩ := List.mem_map.1 hq
      rw [hnamed m hm] at hcq
      exact absurd hcq (((ht.mem_rest _).1 ⟨r, hr, hfirst⟩).2 m hm)
    · obtain ⟨r', hr', rfl⟩ := List.mem_map.1 hq
      rw [rest.normal.eq_of_mem hr' hr (Part.mem_codes_span.1 hcq) hfirst]

theorem Takes.nodup_letters (h : Takes whole NamedSet.ordered left ts rest) : (ts.map (·.letter)).Nodup :=
  NamedSet.nodup_letters_ordered.sublist (h.sublist.map _)

theorem nodup_parts (s : CodeSet) : s.parts.Nodup := by
  obtain ⟨ts, rest, hparts, ht⟩ := s.parts_spec
  have hnames : (ts.map fun n => Part.named n.letter).Nodup := by
    have h := ht.nodup_letters.map (f := Part.named) fun _ _ => Part.named.inj
    rwa [List.map_map] at h
  have hspans : (rest.spans.toList.map Part.span).Nodup := rest.normal.nodup.map fun _ _ => Part.span.inj
  rw [hparts]
  refine hnames.append hspans fun p hp hp' => ?_
  obtain ⟨n, -, rfl⟩ := List.mem_map.1 hp
  obtain ⟨r, -, hr⟩ := List.mem_map.1 hp'
  cases hr

/-- **Reduction covers a set exactly, and with names as far as they go.**  The order of reduction is one of all named
    sets, in which none stands before one that strictly includes it.  The parts of a set are distinct names in this
    order, and then spans in normal form.  The set includes each of the names, the parts put together are the set, and
    no span holds a point of one of the names, nor of any other named set that the set includes.  The loop that stops
    early puts out the same parts. -/
theorem parts_exact (s : CodeSet) :
    (NamedSet.ordered.Perm NamedSet.registry ∧ NamedSet.ordered.Pairwise fun n m => ¬ n.codes < m.codes) ∧
    ∃ (ts : List NamedSet) (spans : List Span),
      s.parts = ts.map (fun n => .named n.letter) ++ spans.map .span ∧
      ts.Sublist NamedSet.ordered ∧ (ts.map (·.letter)).Nodup ∧ Spans.Normal spans ∧
      (∀ n ∈ ts, s.includes n.codes = true) ∧
      unions (s.parts.map Part.codes) = s ∧
      (∀ n ∈ ts, ∀ r ∈ spans, ∀ c ∈ r, c ∉ n.codes) ∧
      (∀ n ∈ NamedSet.registry, s.includes n.codes = true → ∀ r ∈ spans, ∀ c ∈ r, c ∉ n.codes) ∧
      s.partsFrom NamedSet.ordered s [] = s.parts := by
  obtain ⟨ts, rest, hparts, ht⟩ := s.parts_spec
  refine ⟨⟨NamedSet.byInclusion_perm _, NamedSet.byInclusion_pairwise _⟩, ts, rest.spans.toList, hparts, ht.sublist,
    ht.nodup_letters, rest.normal, fun n hn => includes_iff.2 (ht.fits n hn), s.unions_codes_parts, ?_, ?_, ?_⟩
  · intro n hn r hr c hc
    exact ((ht.mem_rest c).1 ⟨r, hr, hc⟩).2 n hn
  · intro n hn hfits r hr c hc hcn
    exact ht.exhausts n ((NamedSet.byInclusion_perm _).mem_iff.2 hn) (includes_iff.1 hfits) c hcn ⟨r, hr, hc⟩
  · exact partsFrom_eq s NamedSet.ordered s []

/-- **No part is redundant.**  Without any single one of its parts, name or span, the parts of a set hold strictly less
    than the set. -/
theorem parts_irredundant (s : CodeSet) (i : Fin s.parts.length) :
    (∀ c ∈ unions ((s.parts.eraseIdx i).map Part.codes), c ∈ s) ∧
      ∃ c ∈ s, c ∉ unions ((s.parts.eraseIdx i).map Part.codes) := by
  obtain ⟨c, hc, hown⟩ := exists_own_mem_of_mem_parts (List.getElem_mem i.isLt)
  refine ⟨fun d hd => ?_, c, mem_iff_mem_parts.2 ⟨_, List.getElem_mem i.isLt, hc⟩, fun hothers => ?_⟩
  · obtain ⟨q, hq, hd⟩ := mem_unions_codes.1 hd
    exact mem_iff_mem_parts.2 ⟨q, List.mem_of_mem_eraseIdx hq, hd⟩
  · -- the code point that part `i` alone holds would have to be in another part
    obtain ⟨q, hq, hcq⟩ := mem_unions_codes.1 hothers
    obtain ⟨j, hj, hne, rfl⟩ := List.mem_eraseIdx_iff_getElem.1 hq
    exact hne (s.nodup_parts.getElem_inj_iff.1 (hown _ (List.getElem_mem hj) hcq))

end CodeSet

end RegexNotation
