import AddonPlanner.Version

/-!
# The order of package versions

Epochs are compared first. The texts are then compared from left to right, by turns a run of other characters and a run of
digits: letters come before other characters, the end of a run before both, and digits count as the number they stand for.
Versions are equal when neither comes before the other, so `1.02` equals `1.2`.
-/

namespace AddonPlanner.Version

/-- The rank of a character outside the digits: letters come before everything else. -/
def rank (c : Char) : Nat :=
  if c.isAlpha then c.toNat else c.toNat + 0x10000

/-- Compares two runs without digits, character by character; a run comes before its extensions. -/
def compareNames (left right : List Char) : Ordering :=
  compare (left.map rank) (right.map rank)

/-- Compares two runs of digits as numbers without computing them: of two runs without leading zeros the shorter is the
smaller number, and runs of one length compare digit by digit. -/
def compareDigits (left right : List Char) : Ordering :=
  let left := left.dropWhile (· == '0')
  let right := right.dropWhile (· == '0')
  (compare left.length right.length).then (compare left right)

/-- The text after its first run of other characters and the run of digits behind it. -/
def afterRuns (text : List Char) : List Char :=
  (text.dropWhile (!·.isDigit)).dropWhile (·.isDigit)

/-- The run of digits behind the first run of other characters. -/
def digitRun (text : List Char) : List Char :=
  (text.dropWhile (!·.isDigit)).takeWhile (·.isDigit)

theorem length_afterRuns_le (text : List Char) : (afterRuns text).length ≤ text.length :=
  ((List.dropWhile_sublist _).trans (List.dropWhile_sublist _)).length_le

/-- A text that is not empty has a first run, so what follows it is shorter. -/
theorem length_afterRuns_lt {text : List Char} (h : text ≠ []) : (afterRuns text).length < text.length := by
  cases text with
  | nil => exact absurd rfl h
  | cons c rest =>
    cases hc : c.isDigit with
    | true =>
      have : afterRuns (c :: rest) = rest.dropWhile (·.isDigit) := by simp [afterRuns, hc]
      rw [this]
      exact Nat.lt_succ_of_le (List.dropWhile_sublist _).length_le
    | false =>
      have : afterRuns (c :: rest) = afterRuns rest := by simp [afterRuns, hc]
      rw [this]
      exact Nat.lt_succ_of_le (length_afterRuns_le rest)

/-- Compares two texts run by run until one run decides or both texts have ended. -/
def compareText (left right : List Char) : Ordering :=
  if left = [] ∧ right = [] then .eq
  else
    match compareNames (left.takeWhile (!·.isDigit)) (right.takeWhile (!·.isDigit)) with
    | .eq =>
      match compareDigits (digitRun left) (digitRun right) with
      | .eq => compareText (afterRuns left) (afterRuns right)
      | order => order
    | order => order
termination_by left.length + right.length
decreasing_by
  have hl := length_afterRuns_le left
  have hr := length_afterRuns_le right
  by_cases h : left = []
  · have : right ≠ [] := by simp_all
    have := length_afterRuns_lt this
    omega
  · have := length_afterRuns_lt h
    omega

instance : Ord Version where
  compare v w := (compare v.epoch w.epoch).then (compareText v.text.toList w.text.toList)

/-- Versions are equal when neither comes before the other. -/
instance : BEq Version where
  beq v w := (compare v w).isEq

end AddonPlanner.Version
