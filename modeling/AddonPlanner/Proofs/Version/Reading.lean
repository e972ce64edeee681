import Mathlib.Data.List.Basic
import AddonPlanner.Proofs.Text
import AddonPlanner.Proofs.Version.Reference

/-!
# Reading a written version

The written form of a version leaves out an epoch of zero. What then comes first is taken for something else when it is a blank
character or a number with a colon behind it; in every other case the written form is read as the version
(`survives_reading_iff`). A version that is read amiss is never read as an equal one: its text has lost a character that is no digit,
and such characters are part of the tokens (`beq_eq_false_of_countP_lt`).
-/

namespace AddonPlanner.Version

open Std

/-! ## Epochs in front of texts -/

/-- What stands before the first colon and what begins with it. -/
theorem takeWhile_dropWhile_colon {front rest : List Char} (hfront : ':' ∉ front) (hrest : ∀ c, rest.head? = some c → c = ':') :
    (front ++ rest).takeWhile (· != ':') = front ∧ (front ++ rest).dropWhile (· != ':') = rest := by
  refine takeWhile_dropWhile_append (fun c hc => ?_) fun c hc => ?_
  · rw [bne_iff_ne]
    rintro rfl
    exact hfront hc
  · rw [hrest c hc, bne_self_eq_false]

theorem splitEpoch_of_not_mem {text : List Char} (h : ':' ∉ text) : splitEpoch text = (0, text) := by
  obtain ⟨-, hdrop⟩ := @takeWhile_dropWhile_colon text [] h nofun
  rw [List.append_nil] at hdrop
  rw [splitEpoch, hdrop]

theorem splitEpoch_of_word? {front rest : List Char} (h : ':' ∉ front) {epoch : UInt32} (hword : Decimal.word? front = some epoch) :
    splitEpoch (front ++ ':' :: rest) = (epoch, rest) := by
  obtain ⟨htake, hdrop⟩ := @takeWhile_dropWhile_colon front (':' :: rest) h (by simp)
  simp only [splitEpoch, htake, hdrop, hword]

theorem splitEpoch_of_word?_eq_none {text : List Char} (h : Decimal.word? (text.takeWhile (· != ':')) = none) :
    splitEpoch text = (0, text) := by
  rw [splitEpoch, h]
  split <;> rfl

theorem splitEpoch_suffix (text : List Char) : (splitEpoch text).2 <:+ text := by
  unfold splitEpoch
  split
  · exact List.suffix_rfl
  · next c rest hdrop =>
    have hrest : rest <:+ text := (List.suffix_cons c rest).trans (hdrop ▸ List.dropWhile_suffix _)
    split
    · exact hrest
    · exact List.suffix_rfl

/-- A version is read when epoch and text are what the trimmed text is split into. -/
theorem read_eq_ok_iff {written : String} {v : Version} :
    read written = .ok v ↔ splitEpoch (trim written.toList) = (v.epoch, v.text.toList) := by
  obtain ⟨epoch, text, hne⟩ := v
  unfold read
  rcases splitEpoch (trim written.toList) with ⟨e, t⟩
  dsimp only
  split
  · next h =>
    simp only [Except.ok.injEq, mk.injEq, Prod.mk.injEq]
    refine and_congr_right fun _ => ?_
    constructor
    · rintro rfl
      exact String.toList_ofList.symm
    · rintro rfl
      exact String.ofList_toList
  · next h =>
    refine ⟨nofun, fun heq => ?_⟩
    obtain ⟨-, rfl⟩ := Prod.mk.inj heq
    exact absurd (by rwa [String.ofList_toList]) h

/-! ## Written versions -/

theorem toList_display_of_epoch_ne_zero {v : Version} (h : v.epoch ≠ 0) :
    v.display.toList = (Decimal.written v.epoch).toList ++ ':' :: v.text.toList := by
  rw [display, if_neg h, String.toList_append, String.toList_append, List.append_assoc]
  rfl

theorem display_of_epoch_eq_zero {v : Version} (h : v.epoch = 0) : v.display = v.text :=
  if_pos h

theorem text_toList_ne_nil (v : Version) : v.text.toList ≠ [] :=
  fun h => v.nonempty (String.toList_eq_nil_iff.mp h)

/-- The text of a version that was read does not end with a blank character. -/
theorem isBlank_of_getLast?_text {written : String} {v : Version} (h : read written = .ok v) {c : Char}
    (hc : v.text.toList.getLast? = some c) : isBlank c = false := by
  have hsuffix := splitEpoch_suffix (trim written.toList)
  rw [read_eq_ok_iff.mp h] at hsuffix
  exact isBlank_of_getLast?_trim (getLast?_of_suffix hsuffix hc)

/-- A version whose written form cannot be mistaken for that of another one. Either the epoch is written, or the text begins neither
with a blank character nor with a number of 32 bits and a colon. -/
def Unmistakable (v : Version) : Prop :=
  v.epoch ≠ 0 ∨
    (∀ c, v.text.toList.head? = some c → isBlank c = false) ∧
      (':' ∉ v.text.toList ∨ ¬ ∃ n ≤ 4294967295, Decimal.Denotes (v.text.toList.takeWhile (· != ':')) n)

/-- A written epoch is read as the epoch, whatever the text begins with. -/
theorem read_display_of_epoch_ne_zero {v : Version} (hlast : ∀ c, v.text.toList.getLast? = some c → isBlank c = false)
    (h : v.epoch ≠ 0) : read v.display = .ok v := by
  have hfirst : ∀ c, v.display.toList.head? = some c → isBlank c = false := by
    intro c hc
    rw [toList_display_of_epoch_ne_zero h, List.head?_append_of_ne_nil _ Decimal.toList_written_ne_nil] at hc
    exact isBlank_of_isDigit (Decimal.isDigit_of_mem_written c (List.mem_of_head? hc))
  have hend : ∀ c, v.display.toList.getLast? = some c → isBlank c = false := by
    intro c hc
    rw [toList_display_of_epoch_ne_zero h, List.append_cons,
      List.getLast?_append_of_ne_nil _ v.text_toList_ne_nil] at hc
    exact hlast c hc
  have hcolon : ':' ∉ (Decimal.written v.epoch).toList := fun hmem => absurd (Decimal.isDigit_of_mem_written ':' hmem) (by decide)
  rw [read_eq_ok_iff, trim_eq_self hfirst hend, toList_display_of_epoch_ne_zero h,
    splitEpoch_of_word? hcolon (Decimal.word?_written v.epoch)]

/-- A text that cannot be mistaken is read as it stands. -/
theorem read_display_of_epoch_eq_zero {v : Version} (hlast : ∀ c, v.text.toList.getLast? = some c → isBlank c = false)
    (h : v.epoch = 0) (hfirst : ∀ c, v.text.toList.head? = some c → isBlank c = false)
    (hfront : ':' ∉ v.text.toList ∨ ¬ ∃ n ≤ 4294967295, Decimal.Denotes (v.text.toList.takeWhile (· != ':')) n) :
    read v.display = .ok v := by
  rw [read_eq_ok_iff, display_of_epoch_eq_zero h, trim_eq_self hfirst hlast, h]
  rcases hfront with hcolon | hfront
  · exact splitEpoch_of_not_mem hcolon
  · refine splitEpoch_of_word?_eq_none (Option.eq_none_iff_forall_ne_some.mpr fun n hn => hfront ?_)
    exact Decimal.exists_word?_iff.mp ⟨n, hn⟩

/-! ## What is read amiss -/

/-- The characters other than digits are part of the tokens, so a version with fewer of them is no equal one. -/
theorem beq_eq_false_of_countP_lt {v w : Version}
    (h : w.text.toList.countP (!·.isDigit) < v.text.toList.countP (!·.isDigit)) : (w == v) = false := by
  rw [Bool.eq_false_iff]
  intro heq
  have htokens := (compare_eq_eq_iff.mp (LawfulBEqOrd.compare_eq_iff_beq.mpr heq)).2
  have hnames : w.text.toList.filter (!·.isDigit) = v.text.toList.filter (!·.isDigit) := by
    rw [← (tokenizes_tokens w.text.toList).flatMap_name, htokens, (tokenizes_tokens v.text.toList).flatMap_name]
  rw [List.countP_eq_length_filter, List.countP_eq_length_filter, hnames] at h
  exact Nat.lt_irrefl _ h

theorem countP_lt_of_suffix {c : Char} {text rest : List Char} (h : text <:+ rest) (hc : c.isDigit = false) :
    text.countP (!·.isDigit) < (c :: rest).countP (!·.isDigit) := by
  rw [List.countP_cons_of_pos (by simp [hc])]
  exact Nat.lt_succ_of_le h.countP_le

/-- A blank character at the start is dropped, and what is read stands behind it. -/
theorem countP_lt_of_isBlank {c : Char} (hc : isBlank c) (rest : List Char) :
    (splitEpoch ((c :: rest).dropWhile isBlank)).2.countP (!·.isDigit) < (c :: rest).countP (!·.isDigit) := by
  rw [List.dropWhile_cons_of_pos hc]
  have hsuffix := (splitEpoch_suffix (rest.dropWhile isBlank)).trans (List.dropWhile_suffix isBlank)
  refine countP_lt_of_suffix hsuffix (Bool.eq_false_iff.mpr fun hdigit => ?_)
  rw [isBlank_of_isDigit hdigit] at hc
  cases hc

/-- A number before the first colon is taken for an epoch, and what is read stands behind the colon. -/
theorem countP_lt_of_denotes {text : List Char} (hcolon : ':' ∈ text)
    (hnumber : ∃ n ≤ 4294967295, Decimal.Denotes (text.takeWhile (· != ':')) n) :
    (splitEpoch text).2.countP (!·.isDigit) < text.countP (!·.isDigit) := by
  obtain ⟨front, tail, rfl, hfront⟩ := List.eq_append_cons_of_mem hcolon
  rw [(takeWhile_dropWhile_colon hfront (by simp)).1] at hnumber
  obtain ⟨epoch, hword⟩ := Decimal.exists_word?_iff.mpr hnumber
  rw [splitEpoch_of_word? hfront hword]
  calc tail.countP (!·.isDigit)
    _ < (':' :: tail).countP (!·.isDigit) := countP_lt_of_suffix List.suffix_rfl rfl
    _ ≤ (front ++ ':' :: tail).countP (!·.isDigit) := (List.suffix_append front (':' :: tail)).countP_le

/-- What is read in place of a version that can be mistaken lacks the blank character or the colon. -/
theorem countP_lt_of_read_display {v w : Version} (hlast : ∀ c, v.text.toList.getLast? = some c → isBlank c = false)
    (h : ¬ v.Unmistakable) (hw : read v.display = .ok w) :
    w.text.toList.countP (!·.isDigit) < v.text.toList.countP (!·.isDigit) := by
  obtain ⟨hepoch, hmistaken⟩ := not_or.mp h
  have hzero : v.epoch = 0 := Decidable.not_not.mp hepoch
  rw [read_eq_ok_iff, display_of_epoch_eq_zero hzero, trim_eq_dropWhile hlast] at hw
  have htext : (splitEpoch (v.text.toList.dropWhile isBlank)).2 = w.text.toList := congrArg Prod.snd hw
  rw [← htext]
  by_cases hfirst : ∀ c, v.text.toList.head? = some c → isBlank c = false
  · obtain ⟨hcolon, hnumber⟩ := not_or.mp fun hfront => hmistaken ⟨hfirst, hfront⟩
    rw [dropWhile_eq_self hfirst]
    exact countP_lt_of_denotes (Decidable.not_not.mp hcolon) (Classical.not_not.mp hnumber)
  · cases hchars : v.text.toList with
    | nil => exact absurd hchars v.text_toList_ne_nil
    | cons c rest =>
      have hblank : isBlank c := by simpa [hchars] using hfirst
      exact countP_lt_of_isBlank hblank rest

/-- The written form of a version that was read is read as that version exactly when it cannot be mistaken. In every other case
reading it fails or gives a version that is not equal. -/
theorem survives_reading_iff (written : String) (v : Version) (h : read written = .ok v) :
    ((∃ w, read v.display = .ok w ∧ w.epoch = v.epoch ∧ w.text = v.text) ↔ v.Unmistakable) ∧
      (¬ v.Unmistakable → (∃ fault, read v.display = .error fault) ∨ ∃ w, read v.display = .ok w ∧ (w == v) = false) := by
  have hlast : ∀ c, v.text.toList.getLast? = some c → isBlank c = false := fun _ => isBlank_of_getLast?_text h
  have hamiss : ¬ v.Unmistakable → ∀ w, read v.display = .ok w → (w == v) = false :=
    fun hmistaken w hw => beq_eq_false_of_countP_lt (countP_lt_of_read_display hlast hmistaken hw)
  refine ⟨⟨?_, ?_⟩, fun hmistaken => ?_⟩
  · rintro ⟨⟨epoch, text, hne⟩, hw, rfl, rfl⟩
    refine Classical.byContradiction fun hmistaken => ?_
    have hdiffers := hamiss hmistaken _ hw
    rw [BEq.refl] at hdiffers
    cases hdiffers
  · intro hclear
    by_cases hzero : v.epoch = 0
    · obtain ⟨hfirst, hfront⟩ := hclear.resolve_left (not_not_intro hzero)
      exact ⟨v, read_display_of_epoch_eq_zero hlast hzero hfirst hfront, rfl, rfl⟩
    · exact ⟨v, read_display_of_epoch_ne_zero hlast hzero, rfl, rfl⟩
  · cases hw : read v.display with
    | error fault => exact Or.inl ⟨fault, rfl⟩
    | ok w => exact Or.inr ⟨w, rfl, hamiss hmistaken w hw⟩

/-- What `0:5:3` is read as; written without its epoch, the text looks like one with the epoch 5. -/
def hidden : Version :=
  ⟨0, "5:3", by decide⟩

/-- `0:5:3` and its written form are read as two versions that are not equal. -/
theorem hidden_epoch_misread :
    read "0:5:3" = .ok hidden ∧ ¬ hidden.Unmistakable ∧
      ((∃ fault, read hidden.display = .error fault) ∨ ∃ w, read hidden.display = .ok w ∧ (w == hidden) = false) := by
  have hread : read "0:5:3" = .ok hidden := rfl
  have hfive : Decimal.Denotes ['5'] 5 := ⟨[], ['5'], rfl, Or.inl rfl, List.cons_ne_nil _ _, by simp, rfl⟩
  have hmistaken : ¬ hidden.Unmistakable := by
    rintro (hepoch | ⟨-, hcolon | hnumber⟩)
    · exact hepoch rfl
    · exact hcolon (by decide)
    · exact hnumber ⟨5, by decide, hfive⟩
  exact ⟨hread, hmistaken, (survives_reading_iff "0:5:3" hidden hread).2 hmistaken⟩

end AddonPlanner.Version
