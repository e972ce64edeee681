import AddonPlanner.Proofs.Text
import AddonPlanner.Proofs.Version.Tokens

/-!
# The reference order of versions

The order of versions as it is documented, said without the comparison. A text divides into tokens in one way, each run going as far
as it can (`Tokenizes`, `tokenizes_iff`). Names are compared character by character, letters before other characters
(`compareChars`), and numbers as numbers. A comparison never divides a text; it takes runs off two texts at once, and comes to the
same order (`compare_eq_reference`).
-/

namespace AddonPlanner.Version

open Std

/-! ## The tokens of a text -/

/-- How a text divides into tokens. A token is a run of characters other than digits, its name, and the number that the run of digits
behind it stands for, zero when there is none. Runs go as far as they can, so only the first name can be empty, and digits are
wanting at the end of the text alone. -/
inductive Tokenizes : List Char → List (List Char × Nat) → Prop
  /-- The text ends with the digits, or with the name. -/
  | last {name digits : List Char} (hname : ∀ c ∈ name, c.isDigit = false) (hdigits : ∀ c ∈ digits, c.isDigit) :
    Tokenizes (name ++ digits) [(name, Nat.ofDigitChars 10 digits 0)]
  /-- The digits end at another character, with which the next name begins. -/
  | more {name digits rest : List Char} {c : Char} {later : List (List Char × Nat)} (hname : ∀ c ∈ name, c.isDigit = false)
    (hdigits : ∀ c ∈ digits, c.isDigit) (hne : digits ≠ []) (hc : c.isDigit = false) :
    Tokenizes (c :: rest) later →
      Tokenizes (name ++ digits ++ c :: rest) ((name, Nat.ofDigitChars 10 digits 0) :: later)

/-- A text is its first name, the digits behind it and what follows them. -/
theorem runs_append (text : List Char) : text.takeWhile (!·.isDigit) ++ digitRun text ++ afterRuns text = text := by
  rw [List.append_assoc, digitRun, afterRuns, List.takeWhile_append_dropWhile, List.takeWhile_append_dropWhile]

/-- Runs that go as far as they can are the ones that are taken off. -/
theorem runs_eq {name digits rest : List Char} (hname : ∀ c ∈ name, c.isDigit = false) (hdigits : ∀ c ∈ digits, c.isDigit)
    (hrest : ∀ c, rest.head? = some c → c.isDigit = false) (hend : digits = [] → rest = []) :
    (name ++ digits ++ rest).takeWhile (!·.isDigit) = name ∧ digitRun (name ++ digits ++ rest) = digits ∧
      afterRuns (name ++ digits ++ rest) = rest := by
  have hbehind : ∀ c, (digits ++ rest).head? = some c → (!c.isDigit) = false := by
    intro c hc
    cases digits with
    | nil => simp [hend rfl] at hc
    | cons d digits =>
      obtain rfl : d = c := by simpa using hc
      simp [hdigits d List.mem_cons_self]
  obtain ⟨htake, hdrop⟩ := takeWhile_dropWhile_append (p := (!·.isDigit)) (by simpa using hname) hbehind
  obtain ⟨hrun, hafter⟩ := takeWhile_dropWhile_append (p := (·.isDigit)) hdigits hrest
  rw [digitRun, afterRuns, List.append_assoc, hdrop]
  exact ⟨htake, hrun, hafter⟩

theorem Tokenizes.eq_tokens {text : List Char} {l : List (List Char × Nat)} (h : Tokenizes text l) : l = tokens text := by
  induction h with
  | @last name digits hname hdigits =>
    obtain ⟨htake, hrun, hafter⟩ := @runs_eq name digits [] hname hdigits nofun fun _ => rfl
    rw [List.append_nil] at htake hrun hafter
    rw [tokens_eq, htake, hrun, restTokens, if_pos hafter]
  | @more name digits rest c later hname hdigits hne hc h ih =>
    obtain ⟨htake, hrun, hafter⟩ := @runs_eq name digits (c :: rest) hname hdigits (by simp [hc]) fun hnil => absurd hnil hne
    rw [tokens_eq, htake, hrun, restTokens, hafter, if_neg (List.cons_ne_nil c rest), ih]

theorem isDigit_of_mem_takeWhile {text : List Char} : ∀ c ∈ text.takeWhile (!·.isDigit), c.isDigit = false :=
  fun _ hc => by simpa using List.all_eq_true.mp List.all_takeWhile _ hc

/-- Where no digits are taken off, nothing follows them. -/
theorem digitRun_ne_nil {text : List Char} (h : afterRuns text ≠ []) : digitRun text ≠ [] := by
  have hhead := List.head?_dropWhile_not (!·.isDigit) text
  unfold afterRuns at h
  unfold digitRun
  cases hdrop : text.dropWhile (!·.isDigit) with
  | nil => simp [hdrop] at h
  | cons d digits => simp_all

theorem tokenizes_tokens (text : List Char) : Tokenizes text (tokens text) := by
  induction text using tokens.induct with
  | case1 text ih =>
    have htext := runs_append text
    rw [tokens_eq, restTokens]
    cases hafter : afterRuns text with
    | nil =>
      rw [hafter, List.append_nil] at htext
      have hlast := Tokenizes.last (@isDigit_of_mem_takeWhile text) (@isDigit_of_mem_digitRun text)
      rwa [htext] at hlast
    | cons c rest =>
      have hne : afterRuns text ≠ [] := by simp [hafter]
      have hc : c.isDigit = false := by
        have hname := takeWhile_afterRuns_ne_nil hne
        rw [hafter] at hname
        simpa [List.takeWhile_cons] using hname
      have hmore := ih hne
      rw [hafter] at hmore htext
      have htokens := hmore.more (@isDigit_of_mem_takeWhile text) (@isDigit_of_mem_digitRun text) (digitRun_ne_nil hne) hc
      rwa [htext] at htokens

/-- A text divides into tokens in one way. -/
theorem tokenizes_iff {text : List Char} {l : List (List Char × Nat)} : Tokenizes text l ↔ l = tokens text := by
  constructor
  · exact Tokenizes.eq_tokens
  · rintro rfl
    exact tokenizes_tokens text

example : tokens "1.02rc3".toList = [([], 1), (['.'], 2), (['r', 'c'], 3)] := by decide +kernel

theorem filter_name_digits {name digits : List Char} (hname : ∀ c ∈ name, c.isDigit = false)
    (hdigits : ∀ c ∈ digits, c.isDigit) : (name ++ digits).filter (!·.isDigit) = name := by
  have hall : name.filter (!·.isDigit) = name := List.filter_eq_self.mpr (by simpa using hname)
  have hnone : digits.filter (!·.isDigit) = [] := List.filter_eq_nil_iff.mpr (by simpa using hdigits)
  rw [List.filter_append, hall, hnone, List.append_nil]

/-- The names of the tokens are the characters of the text other than digits. -/
theorem Tokenizes.flatMap_name {text : List Char} {l : List (List Char × Nat)} (h : Tokenizes text l) :
    l.flatMap Prod.fst = text.filter (!·.isDigit) := by
  induction h with
  | last hname hdigits =>
    rw [filter_name_digits hname hdigits, List.flatMap_singleton]
  | more hname hdigits hne hc h ih =>
    rw [List.filter_append, filter_name_digits hname hdigits, List.flatMap_cons, ih]

/-! ## The order of tokens -/

/-- Letters come before other characters, and characters of either kind in the order of their code points. -/
def compareChars : Char → Char → Ordering :=
  compareLex (compareOn (!·.isAlpha)) (compareOn Char.toNat)

theorem compare_rank (c d : Char) : compare (rank c) (rank d) = compareChars c d := by
  have hadd : ∀ m n k : Nat, compare (m + k) (n + k) = compare m n := by
    intro m n k
    have h := @compare_sub (m + k) (n + k) k (Nat.le_add_left _ _) (Nat.le_add_left _ _)
    rw [← h, Nat.add_sub_cancel, Nat.add_sub_cancel]
  show compare (if c.isAlpha then c.toNat else c.toNat + 0x10000) (if d.isAlpha then d.toNat else d.toNat + 0x10000) =
    (compare (!c.isAlpha) (!d.isAlpha)).then (compare c.toNat d.toNat)
  cases hc : c.isAlpha <;> cases hd : d.isAlpha <;> simp only [Bool.false_eq_true, if_false, if_true]
  · exact hadd _ _ _
  · have := toNat_lt_of_isAlpha hd
    exact Nat.compare_eq_gt.mpr (by omega)
  · have := toNat_lt_of_isAlpha hc
    exact Nat.compare_eq_lt.mpr (by omega)
  · rfl

/-- Names are compared character by character, and the end of a name comes before any character. -/
theorem compareNames_eq (left right : List Char) : compareNames left right = List.compareLex compareChars left right := by
  unfold compareNames
  induction left generalizing right with
  | nil => cases right <;> rfl
  | cons c left ih =>
    cases right with
    | nil => rfl
    | cons d right =>
      rw [List.map_cons, List.map_cons, List.compare_cons_cons, List.compareLex_cons_cons, compare_rank, ih]

/-- Tokens are compared by their names, character by character, and then by their numbers. -/
def referenceOrder : List Char × Nat → List Char × Nat → Ordering :=
  compareLex (fun s t => List.compareLex compareChars s.1 t.1) (compareOn Prod.snd)

theorem compareTokens_eq : compareTokens = referenceOrder := by
  unfold compareTokens referenceOrder
  simp only [compareNames_eq]

/-- Comparing versions follows the reference order. Each text divides into one list of tokens. Versions are compared by their epochs
first and then by these lists, in which tokens are compared one after the other and a list comes before its extensions; and they are
equal when their epochs and their lists are. -/
theorem compare_eq_reference :
    (∀ text l, Tokenizes text l ↔ l = tokens text) ∧
      ∀ v w : Version,
        compare v w = (compare v.epoch w.epoch).then
            (List.compareLex referenceOrder (tokens v.text.toList) (tokens w.text.toList)) ∧
          ((v == w) = true ↔ v.epoch = w.epoch ∧ tokens v.text.toList = tokens w.text.toList) := by
  refine ⟨fun _ _ => tokenizes_iff, fun v w => ⟨?_, ?_⟩⟩
  · rw [compare_eq, compareTokens_eq]
    rfl
  · rw [← LawfulBEqOrd.compare_eq_iff_beq, compare_eq_eq_iff]

end AddonPlanner.Version
