/-
  The order of texts is the order of their bytes.

  Texts are compared character by character.  In UTF-8 a character that is less has bytes that are less
  (`utf8EncodeChar_append_lt`), so comparing the bytes of texts one by one comes to the same (`bytes_lt`).
-/
import Mathlib.Data.List.Lex

namespace RegexNotation.Text

/-- The bytes of a text in UTF-8. -/
def bytes (s : String) : List UInt8 := s.toUTF8.data.toList

variable {a b : Char} {l l' : List Char}

theorem bytes_eq (s : String) : bytes s = s.toList.flatMap String.utf8EncodeChar := by
  have h : s.toUTF8 = (s.toList.flatMap String.utf8EncodeChar).toByteArray := String.utf8Encode_toList.symm
  rw [bytes, h]
  simp

theorem ofNat_lt_ofNat {m n : Nat} (hm : m < 256) (hn : n < 256) : UInt8.ofNat m < UInt8.ofNat n ↔ m < n := by
  rw [UInt8.lt_iff_toNat_lt, UInt8.toNat_ofNat_of_lt' hm, UInt8.toNat_ofNat_of_lt' hn]

theorem ofNat_eq_ofNat {m n : Nat} (hm : m < 256) (hn : n < 256) : UInt8.ofNat m = UInt8.ofNat n ↔ m = n := by
  rw [← UInt8.toNat_inj, UInt8.toNat_ofNat_of_lt' hm, UInt8.toNat_ofNat_of_lt' hn]

/-- The number that is less is less in the quotients by `k`, or else in the remainders. -/
theorem div_lt_div_or {m n : Nat} (h : m < n) (k : Nat) : m / k < n / k ∨ m / k = n / k ∧ m % k < n % k := by
  rcases Nat.lt_or_eq_of_le (Nat.div_le_div_right (c := k) (Nat.le_of_lt h)) with hlt | heq
  · exact .inl hlt
  · refine .inr ⟨heq, ?_⟩
    have hm := Nat.div_add_mod m k
    have hn := Nat.div_add_mod n k
    rw [heq] at hm
    omega

/-- The first byte that differs is less. -/
theorem utf8EncodeChar_append_lt (h : a < b) (r s : List UInt8) :
    String.utf8EncodeChar a ++ r < String.utf8EncodeChar b ++ s := by
  have hb : b.val.toNat < 0x110000 := by
    rcases b.valid with hv | hv
    · exact Nat.lt_trans hv (by decide)
    · exact hv.2
  have hlt : a.val.toNat < b.val.toNat := h
  simp only [String.utf8EncodeChar]
  generalize a.val.toNat = m at hlt
  generalize b.val.toNat = n at hb hlt
  -- the digits to the base 64, from the last one on
  have h1 := div_lt_div_or hlt 64
  have h2 : m / 64 < n / 64 → _ := fun h => div_lt_div_or h 64
  have h3 : m / 64 / 64 < n / 64 / 64 → _ := fun h => div_lt_div_or h 64
  simp only [Nat.div_div_eq_div_mul] at h2 h3
  have hm : m / 262144 % 8 = m / 262144 := Nat.mod_eq_of_lt (by omega)
  have hn : n / 262144 % 8 = n / 262144 := Nat.mod_eq_of_lt (by omega)
  -- characters of different lengths differ in the first byte
  split_ifs <;>
    simp (disch := omega) only [List.cons_append, List.nil_append, List.cons_lt_cons_iff, ofNat_lt_ofNat,
      ofNat_eq_ofNat, hm, hn] <;>
    omega

theorem flatMap_utf8EncodeChar_lt (h : l < l') :
    l.flatMap String.utf8EncodeChar < l'.flatMap String.utf8EncodeChar := by
  induction l generalizing l' with
  | nil =>
    rcases l' with _ | ⟨b, l'⟩
    · exact absurd h (List.lt_irrefl _)
    · obtain ⟨x, r, hx⟩ := List.exists_cons_of_ne_nil (String.utf8EncodeChar_ne_nil (c := b))
      rw [List.flatMap_cons, hx]
      exact List.nil_lt_cons ..
  | cons a l ih =>
    rcases l' with _ | ⟨b, l'⟩
    · exact absurd h (List.not_lt_nil _)
    · rw [List.flatMap_cons, List.flatMap_cons]
      rcases List.cons_lt_cons_iff.1 h with hab | ⟨rfl, hl⟩
      · exact utf8EncodeChar_append_lt hab _ _
      · exact List.append_left_lt (ih hl)

/-- **Texts are in the order of their bytes.** -/
theorem bytes_lt {s t : String} (h : s < t) : bytes s < bytes t := by
  rw [bytes_eq, bytes_eq]
  exact flatMap_utf8EncodeChar_lt (String.lt_iff.1 h)

end RegexNotation.Text
