import AddonPlanner.Text.Blank
import AddonPlanner.Text.Decimal

/-!
# Reading texts

What the readers of versions share: where a run of characters ends, which texts stand for a number (`Decimal.word?_eq_some_iff`),
and what is left of a text without the blank characters around it.
-/

namespace AddonPlanner

/-! ## Runs of characters -/

/-- A run ends where something stands that does not belong to it. -/
theorem takeWhile_dropWhile_append {p : Char → Bool} {run rest : List Char} (hrun : ∀ c ∈ run, p c)
    (hrest : ∀ c, rest.head? = some c → p c = false) :
    (run ++ rest).takeWhile p = run ∧ (run ++ rest).dropWhile p = rest := by
  have hstop : rest.takeWhile p = [] ∧ rest.dropWhile p = rest := by
    cases rest with
    | nil => exact ⟨rfl, rfl⟩
    | cons c rest => simp [hrest c rfl]
  constructor
  · rw [List.takeWhile_append_of_pos hrun, hstop.1, List.append_nil]
  · rw [List.dropWhile_append_of_pos hrun, hstop.2]

/-- Where no run starts, none is dropped. -/
theorem dropWhile_eq_self {p : Char → Bool} {text : List Char} (h : ∀ c, text.head? = some c → p c = false) :
    text.dropWhile p = text :=
  (@takeWhile_dropWhile_append p [] text nofun h).2

theorem getLast?_of_suffix {text whole : List Char} (h : text <:+ whole) {c : Char} (hc : text.getLast? = some c) :
    whole.getLast? = some c := by
  obtain ⟨front, rfl⟩ := h
  rw [List.getLast?_append, hc, Option.some_or]

/-! ## Numbers -/

namespace Decimal

/-- A text stands for a number: one or more digits with that value, which one plus sign may precede. -/
def Denotes (text : List Char) (n : Nat) : Prop :=
  ∃ sign digits, text = sign ++ digits ∧ (sign = [] ∨ sign = ['+']) ∧ digits ≠ [] ∧ (∀ c ∈ digits, c.isDigit) ∧
    Nat.ofDigitChars 10 digits 0 = n

theorem not_denotes_nil {n : Nat} : ¬ Denotes [] n := by
  rintro ⟨sign, digits, hnil, -, hdigits, -⟩
  exact hdigits (List.append_eq_nil_iff.mp hnil.symm).2

/-- A text that stands for a number holds nothing but a plus sign and digits. -/
theorem Denotes.eq_plus_or_isDigit {text : List Char} {n : Nat} (h : Denotes text n) {c : Char} (hc : c ∈ text) :
    c = '+' ∨ c.isDigit := by
  obtain ⟨sign, digits, rfl, hsign, -, hdigits, -⟩ := h
  rcases List.mem_append.mp hc with hc | hc
  · rcases hsign with rfl | rfl
    · exact absurd hc List.not_mem_nil
    · exact Or.inl (List.mem_singleton.mp hc)
  · exact Or.inr (hdigits c hc)

theorem digits?_eq_some_iff {text : List Char} {n : Nat} :
    digits? text = some n ↔ text ≠ [] ∧ (∀ c ∈ text, c.isDigit) ∧ Nat.ofDigitChars 10 text 0 = n := by
  unfold digits?
  split
  · next h =>
    rw [Option.some.injEq]
    exact ⟨fun heq => ⟨h.1, List.all_eq_true.mp h.2, heq⟩, fun hall => hall.2.2⟩
  · next h =>
    exact ⟨nofun, fun hall => absurd ⟨hall.1, List.all_eq_true.mpr hall.2.1⟩ h⟩

/-- Without a sign the digits decide. -/
theorem unsigned?_of_isDigit {text : List Char} (h : ∀ c ∈ text, c.isDigit) : unsigned? text = digits? text := by
  unfold unsigned?
  split
  · next rest =>
    have hplus : '+'.isDigit := h '+' List.mem_cons_self
    cases hplus
  · rfl

theorem unsigned?_eq_some_iff {text : List Char} {n : Nat} : unsigned? text = some n ↔ Denotes text n := by
  constructor
  · intro h
    unfold unsigned? at h
    split at h
    · next digits => exact ⟨['+'], digits, rfl, Or.inr rfl, digits?_eq_some_iff.mp h⟩
    · exact ⟨[], text, rfl, Or.inl rfl, digits?_eq_some_iff.mp h⟩
  · rintro ⟨sign, digits, rfl, rfl | rfl, h⟩
    · rw [List.nil_append, unsigned?_of_isDigit h.2.1]
      exact digits?_eq_some_iff.mpr h
    · exact digits?_eq_some_iff.mpr h

/-- A text is read as a 32-bit number exactly when it stands for that number. -/
theorem word?_eq_some_iff {text : List Char} {n : UInt32} : word? text = some n ↔ Denotes text n.toNat := by
  rw [← unsigned?_eq_some_iff, word?]
  cases unsigned? text with
  | none => exact ⟨nofun, nofun⟩
  | some m =>
    dsimp only
    rw [Option.some.injEq]
    split
    · next hm => rw [Option.some.injEq, ← UInt32.toNat_inj, UInt32.toNat_ofNatLT]
    · next hm =>
      refine ⟨nofun, fun heq => absurd ?_ hm⟩
      rw [heq]
      exact n.toNat_lt_size

/-- A text is read as some 32-bit number exactly when it stands for a number that is not too large. -/
theorem exists_word?_iff {text : List Char} : (∃ n, word? text = some n) ↔ ∃ n ≤ 4294967295, Denotes text n := by
  constructor
  · rintro ⟨n, hn⟩
    exact ⟨n.toNat, Nat.le_of_lt_succ n.toNat_lt_size, word?_eq_some_iff.mp hn⟩
  · rintro ⟨n, hle, hn⟩
    have hsize : n < UInt32.size := Nat.lt_succ_of_le hle
    exact ⟨UInt32.ofNatLT n hsize, word?_eq_some_iff.mpr (by rwa [UInt32.toNat_ofNatLT])⟩

theorem toList_written (n : UInt32) : (written n).toList = Nat.toDigits 10 n.toNat :=
  Nat.toList_repr

theorem toList_written_ne_nil {n : UInt32} : (written n).toList ≠ [] := by
  rw [toList_written]
  exact Nat.toDigits_ne_nil

theorem isDigit_of_mem_written {n : UInt32} : ∀ c ∈ (written n).toList, c.isDigit := by
  intro c hc
  rw [toList_written] at hc
  exact Nat.isDigit_of_mem_toDigits (by decide) (by decide) hc

/-- A written number is read as that number. -/
theorem word?_written (n : UInt32) : word? (written n).toList = some n := by
  refine word?_eq_some_iff.mpr ⟨[], (written n).toList, rfl, Or.inl rfl, toList_written_ne_nil, isDigit_of_mem_written, ?_⟩
  rw [toList_written, Nat.ofDigitChars_toDigits (by decide) (by decide)]

end Decimal

/-! ## Blank characters -/

theorem isBlank_of_isDigit {c : Char} (h : c.isDigit) : isBlank c = false := by
  have houtside : ∀ n ∈ blankCodes, ¬('0'.toNat ≤ n ∧ n ≤ '9'.toNat) := by decide
  refine Bool.eq_false_iff.mpr fun hblank => ?_
  exact houtside c.toNat (List.contains_iff_mem.mp hblank) (Char.isDigit_iff_toNat.mp h)

/-- A text that does not end with a blank character loses those at its start alone. -/
theorem trim_eq_dropWhile {text : List Char} (h : ∀ c, text.getLast? = some c → isBlank c = false) :
    trim text = text.dropWhile isBlank := by
  have hstart : ∀ c, (text.dropWhile isBlank).reverse.head? = some c → isBlank c = false := by
    intro c hc
    rw [List.head?_reverse] at hc
    exact h c (getLast?_of_suffix (List.dropWhile_suffix isBlank) hc)
  rw [trim, dropWhile_eq_self hstart, List.reverse_reverse]

/-- Nothing is taken off a text without blank characters at its ends. -/
theorem trim_eq_self {text : List Char} (hfirst : ∀ c, text.head? = some c → isBlank c = false)
    (hlast : ∀ c, text.getLast? = some c → isBlank c = false) : trim text = text := by
  rw [trim_eq_dropWhile hlast, dropWhile_eq_self hfirst]

/-- What is left of a text does not end with a blank character. -/
theorem isBlank_of_getLast?_trim {text : List Char} {c : Char} (h : (trim text).getLast? = some c) : isBlank c = false := by
  rw [trim, List.getLast?_reverse] at h
  have hhead := List.head?_dropWhile_not isBlank (text.dropWhile isBlank).reverse
  rw [h] at hhead
  exact hhead

end AddonPlanner
