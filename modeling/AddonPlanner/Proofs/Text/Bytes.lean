import Mathlib.Tactic.SplitIfs

/-!
# Texts in the order of their bytes

Texts are compared by their characters. Comparing the bytes that encode them comes to the same (`utf8Bytes_lt_iff`): of two
encodings of one length the greater character has the first greater digit, and a longer encoding opens with a greater byte.
-/

namespace AddonPlanner

/-- The bytes of a text in UTF-8. -/
def utf8Bytes (text : String) : List UInt8 :=
  text.toByteArray.data.toList

theorem utf8Bytes_eq (text : String) : utf8Bytes text = text.toList.flatMap String.utf8EncodeChar := by
  have h := @String.toByteArray_ofList text.toList
  rw [String.ofList_toList] at h
  rw [utf8Bytes, h, List.utf8Encode]
  simp

theorem ofNat_cons_lt_ofNat_cons {m n : Nat} (hm : m < 256) (hn : n < 256) {s t : List UInt8} :
    UInt8.ofNat m :: s < UInt8.ofNat n :: t ↔ m < n ∨ m = n ∧ s < t := by
  have heq : UInt8.ofNat m = UInt8.ofNat n ↔ m = n := by
    rw [← UInt8.toNat_inj, UInt8.toNat_ofNat_of_lt' hm, UInt8.toNat_ofNat_of_lt' hn]
  rw [List.cons_lt_cons_iff, UInt8.ofNat_lt_iff_lt hm hn, heq]

/-- Whatever follows, the bytes of the lesser character come first. -/
theorem encode_append_lt {c d : Char} (h : c < d) (s t : List UInt8) :
    String.utf8EncodeChar c ++ s < String.utf8EncodeChar d ++ t := by
  have hlt : c.val.toNat < d.val.toNat := h
  have hmost : d.val.toNat < 1114112 := d.valid.elim (fun h => Nat.lt_trans h (by decide)) And.right
  -- The digits to the base 64 are those of the quotients taken one after the other.
  have hdiv₂ : ∀ n, n / 4096 = n / 64 / 64 := fun n => (Nat.div_div_eq_div_mul n 64 64).symm
  have hdiv₃ : ∀ n, n / 262144 = n / 64 / 64 / 64 := fun n => by rw [← hdiv₂, Nat.div_div_eq_div_mul]
  simp only [String.utf8EncodeChar, hdiv₂, hdiv₃]
  generalize c.val.toNat = v at hlt
  generalize d.val.toNat = w at hlt hmost
  split_ifs <;> simp (disch := omega) only [List.cons_append, List.nil_append, ofNat_cons_lt_ofNat_cons] <;> omega

theorem flatMap_encode_lt {l m : List Char} (h : l < m) :
    l.flatMap String.utf8EncodeChar < m.flatMap String.utf8EncodeChar := by
  induction l generalizing m with
  | nil =>
    cases m with
    | nil => exact absurd h (List.lt_irrefl _)
    | cons d m =>
      obtain ⟨byte, rest, hd⟩ := List.exists_cons_of_ne_nil (@String.utf8EncodeChar_ne_nil d)
      rw [List.flatMap_nil, List.flatMap_cons, hd]
      exact List.nil_lt_cons byte _
  | cons c l ih =>
    cases m with
    | nil => exact absurd h (List.not_lt_nil _)
    | cons d m =>
      rw [List.flatMap_cons, List.flatMap_cons]
      rcases List.cons_lt_cons_iff.mp h with hcd | ⟨rfl, hlm⟩
      · exact encode_append_lt hcd _ _
      · exact List.append_left_lt (ih hlm)

/-- The order of texts is the order of their bytes. -/
theorem utf8Bytes_lt_iff {s t : String} : utf8Bytes s < utf8Bytes t ↔ s < t := by
  have hmono : ∀ {s t : String}, s < t → utf8Bytes s < utf8Bytes t := by
    intro s t h
    rw [utf8Bytes_eq, utf8Bytes_eq]
    exact flatMap_encode_lt h
  rcases Std.lt_trichotomy s t with hst | rfl | hts
  · exact iff_of_true (hmono hst) hst
  · exact iff_of_false (List.lt_irrefl _) (String.lt_irrefl _)
  · exact iff_of_false (List.lt_asymm (hmono hts)) (String.lt_asymm hts)

end AddonPlanner
