/-
  The normal form is never lost.

  * `Spans.Made` are the lists that the operations on sets make, beginning with any spans: bounds are any 32-bit
    words, and spans may be unsorted, overlapping or reversed.  Each operation keeps the normal form
    (`Made.normal`);
  * `Regex.madeInRange_codes`: the set that an expression stands for is made by these operations, from the sets of its
    items one after the other, and holds only Unicode code points;
  * `Session.made_of_stored_mem_runFrom`: so is every set that a sequence of commands ever stores.
-/
import RegexNotation.Proofs.Meanings
import RegexNotation.Proofs.SetAlgebra
import RegexNotation.Session

namespace RegexNotation

/-! ## Lists that the operations make -/

namespace Spans

/-- The lists of spans that the operations on sets make. -/
inductive Made : List Span → Prop
  | normalize (l : List Span) : Made (Spans.normalize l)
  | single (c : UInt32) : Made [.single c]
  | empty : Made []
  | all : Made [⟨0, maxCodePoint⟩]
  | union {l m : List Span} : Made l → Made m → Made (Spans.union l m)
  | inter {l m : List Span} : Made l → Made m → Made (Spans.inter l m)
  | diff {l m : List Span} : Made l → Made m → Made (Spans.diff l m)

variable {l : List Span} {c : UInt32}

theorem Made.compl (h : Made l) : Made (Spans.diff [⟨0, maxCodePoint⟩] l) := .diff .all h

theorem Made.normal (h : Made l) : Normal l := by
  induction h with
  | normalize l => exact normal_normalize l
  | single c => exact (CodeSet.single c).normal
  | empty => exact normal_nil
  | all => decide
  | union _ _ ihl ihm => exact normal_union ihl ihm
  | inter _ _ ihl ihm => exact normal_inter ihl ihm
  | diff _ _ ihl ihm => exact normal_diff ihl ihm

/-- Between two neighbours of a normal list there is a gap. -/
theorem Normal.apart (h : Normal l) (i : Nat) (hi : i + 1 < l.length) : Apart l[i] l[i + 1] :=
  List.isChain_iff_getElem.1 h.2.isChain i hi

/-- Whatever is taken away from the Unicode range, nothing beyond it is left. -/
theorem le_maxCodePoint_of_holds_diff (h : Holds (diff [⟨0, maxCodePoint⟩] l) c) : c ≤ maxCodePoint := by
  obtain ⟨s, hs, hc⟩ := h
  obtain ⟨a, ha, -, hle⟩ := exists_mem_of_mem_diff hs
  rw [List.mem_singleton.1 ha] at hle
  exact UInt32.le_trans hc.2 hle

end Spans

open Spans (Made)

/-- Sets that are joined one after the other. -/
theorem CodeSet.made_foldl_union {ss : List CodeSet} (h : ∀ s ∈ ss, Made s.spans.toList) {s : CodeSet}
    (hs : Made s.spans.toList) : Made (ss.foldl union s).spans.toList := by
  induction ss generalizing s with
  | nil => exact hs
  | cons t ss ih =>
    obtain ⟨ht, hss⟩ := List.forall_mem_cons.1 h
    exact ih hss (.union hs ht)

/-! ## The sets of expressions -/

theorem NamedSet.made_of_mem {n : NamedSet} (h : n ∈ registry) : Made n.codes.spans.toList := by
  simp only [registry, List.mem_cons, List.not_mem_nil, or_false] at h
  rcases h with rfl | rfl | rfl | rfl | rfl | rfl
  · exact .normalize _
  · exact (Made.normalize _).compl
  · exact .normalize _
  · exact (Made.normalize _).compl
  · exact .normalize _
  · exact (Made.normalize _).compl

/-- The set is one that the operations make, and lies in the Unicode range. -/
def CodeSet.MadeInRange (s : CodeSet) : Prop := Made s.spans.toList ∧ ∀ c ∈ s, c ≤ maxCodePoint

namespace CodeSet

variable {a : Literal} {c : UInt32} {letter : Char} {s : CodeSet}

theorem madeInRange_single (h : a.codePoint = .ok c) : (single c).MadeInRange := by
  refine ⟨.single c, ?_⟩
  intro d hd
  rw [mem_single.1 hd]
  exact a.le_maxCodePoint h

theorem madeInRange_named (h : NamedSet.find? letter = some s) : s.MadeInRange := by
  obtain ⟨n, hn, -, rfl⟩ := NamedSet.find?_eq_some_iff.1 h
  exact ⟨NamedSet.made_of_mem hn, fun c => NamedSet.le_maxCodePoint_of_mem hn⟩

theorem madeInRange_unions {ss : List CodeSet} (h : ∀ s ∈ ss, s.MadeInRange) : (unions ss).MadeInRange := by
  constructor
  · rw [← foldl_union]
    exact made_foldl_union (fun s hs => (h s hs).1) .empty
  · intro c hc
    obtain ⟨s, hs, hc⟩ := mem_unions.1 hc
    exact (h s hs).2 c hc

theorem madeInRange_compl (h : s.MadeInRange) : s.compl.MadeInRange :=
  ⟨h.1.compl, fun _ hc => (mem_compl.1 hc).1⟩

end CodeSet

theorem SetItem.madeInRange_codes {i : SetItem} {s : CodeSet} (h : i.codes = .ok s) : s.MadeInRange := by
  cases i with
  | named letter => exact CodeSet.madeInRange_named (codesOfName_eq_ok_iff.1 h)
  | single a =>
    obtain ⟨c, hc, rfl⟩ := codes_single_eq_ok_iff.1 h
    exact CodeSet.madeInRange_single hc
  | range a b =>
    obtain ⟨first, last, -, hl, -, rfl⟩ := codes_range_eq_ok_iff.1 h
    refine ⟨.normalize _, fun c => CodeSet.le_of_mem_ofSpans ?_⟩
    simpa using b.le_maxCodePoint hl

/-- The set of an expression is made by the operations, and lies in the Unicode range. -/
theorem Regex.madeInRange_codes {e : Regex} {s : CodeSet} (h : e.codes = .ok s) : s.MadeInRange := by
  cases e with
  | any =>
    cases h
    exact ⟨.all, fun c => CodeSet.mem_all.1⟩
  | literal a =>
    obtain ⟨c, hc, ⟨⟩⟩ := bind_eq_ok_iff.1 h
    exact CodeSet.madeInRange_single hc
  | named letter => exact CodeSet.madeInRange_named (codesOfName_eq_ok_iff.1 h)
  | set negated items =>
    obtain ⟨u, hu, h⟩ := bind_eq_ok_iff.1 h
    obtain ⟨ss, hss, ⟨⟩⟩ := bind_eq_ok_iff.1 hu
    have hm : (CodeSet.unions ss).MadeInRange := by
      refine CodeSet.madeInRange_unions fun t ht => ?_
      obtain ⟨i, -, hi⟩ := (mem_of_mapM_eq_ok hss).2 t ht
      exact SetItem.madeInRange_codes hi
    cases negated with
    | false =>
      cases h
      exact hm
    | true =>
      cases h
      exact CodeSet.madeInRange_compl hm
  | empty | blank | never | alt | cat | quantified | group => cases h

theorem CodeSet.madeInRange_ofPattern {text : String} {s : CodeSet} (h : ofPattern text = .ok s) :
    s.MadeInRange := by
  rw [ofPattern] at h
  split at h
  · cases h
  · exact Regex.madeInRange_codes (mapError_eq_ok.1 h)

/-! ## The sets of a session -/

namespace Session

variable {r : Registers} {name : String} {s : CodeSet}

/-- Every register holds a set that the operations make. -/
def Registers.Made (r : Registers) : Prop := ∀ p ∈ r, Spans.Made p.2.spans.toList

theorem Registers.Made.get (h : r.Made) (name : String) : Spans.Made (r.get name).spans.toList := by
  rw [Registers.get]
  cases hl : r.lookup name with
  | none => exact .empty
  | some s =>
    obtain ⟨u, v, rfl, -⟩ := List.lookup_eq_some_iff.1 hl
    exact h (name, s) (by simp)

theorem Registers.Made.put (h : r.Made) (hs : Spans.Made s.spans.toList) : (r.put name s).Made := by
  refine List.forall_mem_cons.2 ⟨hs, ?_⟩
  intro p hp
  exact h p (List.mem_filter.1 hp).1

/-- A source makes a set of those in the registers. -/
theorem made_of_value (h : r.Made) {source : Source} (hs : source.value r = .ok s) :
    Spans.Made s.spans.toList := by
  cases source with
  | spans l =>
    cases hs
    exact .normalize l
  | char c =>
    cases hs
    exact .single c.val
  | all =>
    cases hs
    exact .all
  | empty =>
    cases hs
    exact .empty
  | named letter =>
    rw [Source.value] at hs
    split at hs
    · next t ht =>
      cases hs
      exact (CodeSet.madeInRange_named ht).1
    · cases hs
  | pattern | reload => exact (CodeSet.madeInRange_ofPattern (mapError_eq_ok.1 hs)).1
  | union a b =>
    cases hs
    exact .union (h.get a) (h.get b)
  | inter a b =>
    cases hs
    exact .inter (h.get a) (h.get b)
  | diff a b =>
    cases hs
    exact .diff (h.get a) (h.get b)
  | compl a =>
    cases hs
    exact (h.get a).compl

theorem value_ne_error_stored {source : Source} : source.value r ≠ .error (.stored s) := by
  cases source with
  | pattern | reload =>
    intro h
    obtain ⟨_, -, ⟨⟩⟩ := mapError_eq_error.1 h
  | named letter =>
    rw [Source.value]
    split <;> rintro ⟨⟩
  | spans | char | all | empty | union | inter | diff | compl => rintro ⟨⟩

/-- One command stores at most a set that the operations make. -/
theorem made_step (h : r.Made) (c : Command) :
    (step r c).1.Made ∧ ∀ s, (step r c).2 = .stored s → Spans.Made s.spans.toList := by
  cases c with
  | ask q =>
    refine ⟨h, ?_⟩
    intro s hs
    cases q <;> cases hs
  | store source target =>
    rw [step]
    cases hv : source.value r with
    | ok t =>
      have ht := made_of_value h hv
      refine ⟨h.put ht, ?_⟩
      rintro s ⟨⟩
      exact ht
    | error reply =>
      refine ⟨h, ?_⟩
      rintro s rfl
      exact absurd hv value_ne_error_stored

/-- Whatever commands store, the operations make it. -/
theorem made_of_stored_mem_runFrom (h : r.Made) {cs : List Command} (hs : .stored s ∈ runFrom r cs) :
    Spans.Made s.spans.toList := by
  induction cs generalizing r with
  | nil => cases hs
  | cons c cs ih =>
    obtain ⟨hr, hstored⟩ := made_step h c
    rcases List.mem_cons.1 hs with hs | hs
    · exact hstored s hs.symm
    · exact ih hr hs

end Session

/-- **The normal form is never lost.**  In a list that the operations make, no span is reversed and there is a gap
    between neighbours.  The sets of names and expressions are made by these operations, and so is every set that
    commands store; complements and the sets of expressions lie in the Unicode range. -/
theorem Spans.normal_form_of_made :
    (∀ l, Made l → (∀ s ∈ l, s.first ≤ s.last) ∧
      ∀ i (hi : i + 1 < l.length), l[i].last.toNat + 1 < l[i + 1].first.toNat) ∧
    (∀ letter s, NamedSet.find? letter = some s → Made s.spans.toList) ∧
    (∀ e s, Regex.codes e = .ok s → Made s.spans.toList ∧ ∀ c ∈ s, c ≤ maxCodePoint) ∧
    (∀ l, Made l → Made (diff [⟨0, maxCodePoint⟩] l) ∧ ∀ c, Holds (diff [⟨0, maxCodePoint⟩] l) c → c ≤ maxCodePoint) ∧
    (∀ s : CodeSet, (Made s.spans.toList → Made s.compl.spans.toList) ∧ ∀ c ∈ s.compl, c ≤ maxCodePoint) ∧
    ∀ cs s, .stored s ∈ Session.run cs → Made s.spans.toList := by
  refine ⟨fun l hl => ⟨hl.normal.1, hl.normal.apart⟩, fun letter s h => ?_, fun e s => Regex.madeInRange_codes,
    fun l hl => ⟨hl.compl, fun c => le_maxCodePoint_of_holds_diff⟩,
    fun s => ⟨Made.compl, fun c hc => (CodeSet.mem_compl.1 hc).1⟩, fun cs s => ?_⟩
  · exact (CodeSet.madeInRange_named h).1
  · exact Session.made_of_stored_mem_runFrom (r := []) (by rintro p ⟨⟩)

theorem Spans.normal_form_of_made_at :
    let l := diff (normalize [⟨0xFFFFFFF0, 0xFFFFFFFF⟩, ⟨9, 3⟩, ⟨0, 9⟩]) [.single 4]
    let cs := [.store (.char 'a') "x", .store (.compl "x") "y"]
    Made l ∧ (∀ s ∈ l, s.first ≤ s.last) ∧
      (∀ i (hi : i + 1 < l.length), l[i].last.toNat + 1 < l[i + 1].first.toNat) ∧
      (∀ c, Holds (diff [⟨0, maxCodePoint⟩] l) c → c ≤ maxCodePoint) ∧
      NamedSet.find? 'd' = some NamedSet.digit ∧ Made NamedSet.digit.spans.toList ∧
      Regex.any.codes = .ok .all ∧ Made CodeSet.all.spans.toList ∧
      .stored (CodeSet.single 0x61).compl ∈ Session.run cs ∧ Made (CodeSet.single 0x61).compl.spans.toList ∧
      ∀ c ∈ (CodeSet.single 0x61).compl, c ≤ maxCodePoint := by
  intro l cs
  have hl : Made l := .diff (.normalize _) (.single 4)
  have hd : NamedSet.find? 'd' = some NamedSet.digit := rfl
  have hcs : .stored (CodeSet.single 0x61).compl ∈ Session.run cs := .tail _ (.head _)
  obtain ⟨hform, hname, hcodes, hcompl, hsets, hrun⟩ := normal_form_of_made
  exact ⟨hl, (hform l hl).1, (hform l hl).2, (hcompl l hl).2, hd, hname 'd' _ hd, rfl, (hcodes .any _ rfl).1,
    hcs, hrun cs _ hcs, (hsets _).2⟩

end RegexNotation
