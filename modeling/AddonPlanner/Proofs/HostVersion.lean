import Mathlib.Data.List.Forall2
import AddonPlanner.HostVersion
import AddonPlanner.Proofs.Text

/-!
# Reading a written host version

A host version is one to three numbers with dots between them, and a text is read exactly when it is of that form
(`HostVersion.read_follows_grammar`). The reader cuts the text at every dot; what stands between dots is a number or the text is
refused (`HostVersion.read_eq_ok_iff`). So the written form of a host version is read as that version, with the numbers that were
given and no others (`HostVersion.read_display`).
-/

namespace AddonPlanner

/-! ## Components -/

namespace HostVersion

theorem components_of_not_mem {text : List Char} (h : '.' ∉ text) : components text = [text] := by
  induction text with
  | nil => rfl
  | cons c rest ih =>
    obtain ⟨hc, hrest⟩ := not_or.mp fun hmem => h (List.mem_cons.mpr hmem)
    rw [components, if_neg (Ne.symm hc), ih hrest]

theorem components_append_dot {text : List Char} (h : '.' ∉ text) (rest : List Char) :
    components (text ++ '.' :: rest) = text :: components rest := by
  induction text with
  | nil => rw [List.nil_append, components, if_pos rfl]
  | cons c text ih =>
    obtain ⟨hc, htext⟩ := not_or.mp fun hmem => h (List.mem_cons.mpr hmem)
    rw [List.cons_append, components, if_neg (Ne.symm hc), ih htext]

/-- Texts without dots are the components of what they make with dots between them. -/
theorem components_intercalate {texts : List (List Char)} (hne : texts ≠ []) (h : ∀ t ∈ texts, '.' ∉ t) :
    components (['.'].intercalate texts) = texts := by
  induction texts with
  | nil => exact absurd rfl hne
  | cons text rest ih =>
    obtain ⟨htext, hrest⟩ := List.forall_mem_cons.mp h
    cases rest with
    | nil =>
      rw [List.intercalate_singleton]
      exact components_of_not_mem htext
    | cons next rest =>
      rw [List.intercalate_cons_cons, List.append_assoc, List.singleton_append, components_append_dot htext,
        ih (List.cons_ne_nil _ _) hrest]

theorem components_ne_nil (text : List Char) : components text ≠ [] := by
  cases text with
  | nil => exact List.cons_ne_nil _ _
  | cons c rest =>
    rw [components]
    split
    · exact List.cons_ne_nil _ _
    · split <;> exact List.cons_ne_nil _ _

/-- The components of a text make it again with dots between them. -/
theorem intercalate_components (text : List Char) : ['.'].intercalate (components text) = text := by
  induction text with
  | nil => rfl
  | cons c rest ih =>
    obtain ⟨first, others, hrest⟩ := List.exists_cons_of_ne_nil (components_ne_nil rest)
    rw [hrest] at ih
    rw [components, hrest]
    by_cases hc : c = '.'
    · rw [if_pos hc, List.intercalate_cons_cons, ih, hc]
      rfl
    · rw [if_neg hc]
      cases others with
      | nil =>
        rw [List.intercalate_singleton] at ih ⊢
        rw [ih]
      | cons second others =>
        rw [List.intercalate_cons_cons] at ih ⊢
        rw [← ih]
        rfl

/-- What is put between texts, and what they hold, is all there is. -/
theorem mem_intercalate {c : Char} {texts : List (List Char)} (h : c ∈ ['.'].intercalate texts) :
    c = '.' ∨ ∃ text ∈ texts, c ∈ text := by
  induction texts with
  | nil => exact absurd h List.not_mem_nil
  | cons text rest ih =>
    cases rest with
    | nil =>
      rw [List.intercalate_singleton] at h
      exact Or.inr ⟨text, List.mem_cons_self, h⟩
    | cons next rest =>
      rw [List.intercalate_cons_cons, List.append_assoc, List.singleton_append, List.mem_append, List.mem_cons] at h
      rcases h with h | h | h
      · exact Or.inr ⟨text, List.mem_cons_self, h⟩
      · exact Or.inl h
      · exact (ih h).imp_right fun ⟨t, ht, hc⟩ => ⟨t, List.mem_cons_of_mem _ ht, hc⟩

/-! ## Numbers -/

/-- The numbers of a host version that were given. -/
def numbers (v : HostVersion) : List UInt32 :=
  v.major :: v.minor?.toList ++ v.patch?.toList

/-- A host version has one, two or three numbers. -/
theorem forms (v : HostVersion) :
    (∃ a, v = ⟨a, none, none, nofun⟩) ∨ (∃ a b, v = ⟨a, some b, none, nofun⟩) ∨
      ∃ a b c, v = ⟨a, some b, some c, fun _ => rfl⟩ := by
  obtain ⟨a, b?, c?, h⟩ := v
  cases b? with
  | none =>
    cases c? with
    | none => exact Or.inl ⟨a, rfl⟩
    | some c => exact absurd (h rfl) (by decide)
  | some b =>
    cases c? with
    | none => exact Or.inr (Or.inl ⟨a, b, rfl⟩)
    | some c => exact Or.inr (Or.inr ⟨a, b, c, rfl⟩)

/-- The numbers that were given tell host versions apart. -/
theorem numbers_inj {v w : HostVersion} (h : v.numbers = w.numbers) : v = w := by
  rcases v.forms with ⟨a, rfl⟩ | ⟨a, b, rfl⟩ | ⟨a, b, c, rfl⟩ <;>
    rcases w.forms with ⟨d, rfl⟩ | ⟨d, e, rfl⟩ | ⟨d, e, f, rfl⟩ <;>
    simp_all [numbers]

theorem length_numbers (v : HostVersion) : 1 ≤ v.numbers.length ∧ v.numbers.length ≤ 3 := by
  rcases v.forms with ⟨a, rfl⟩ | ⟨a, b, rfl⟩ | ⟨a, b, c, rfl⟩ <;> simp [numbers]

/-- One to three numbers are those of a host version. -/
theorem exists_numbers_eq {l : List UInt32} (hleast : 1 ≤ l.length) (hmost : l.length ≤ 3) : ∃ v : HostVersion, v.numbers = l := by
  match l with
  | [a] => exact ⟨⟨a, none, none, nofun⟩, rfl⟩
  | [a, b] => exact ⟨⟨a, some b, none, nofun⟩, rfl⟩
  | [a, b, c] => exact ⟨⟨a, some b, some c, fun _ => rfl⟩, rfl⟩

/-! ## What is read -/

theorem component_eq_ok_iff {text : List Char} {fault : Fault} {n : UInt32} :
    component text fault = .ok n ↔ Decimal.Denotes text n.toNat := by
  rw [← Decimal.word?_eq_some_iff, component]
  cases Decimal.word? text with
  | none => exact ⟨nofun, nofun⟩
  | some m => rw [Except.ok.injEq, Option.some.injEq]

theorem bind_component_eq_ok_iff {α : Type} {text : List Char} {fault : Fault} {f : UInt32 → Except Fault α} {a : α} :
    component text fault >>= f = .ok a ↔ ∃ n, Decimal.Denotes text n.toNat ∧ f n = .ok a := by
  cases hc : component text fault with
  | error e =>
    refine ⟨nofun, ?_⟩
    rintro ⟨n, hn, -⟩
    rw [component_eq_ok_iff.mpr hn] at hc
    cases hc
  | ok m =>
    constructor
    · exact fun h => ⟨m, component_eq_ok_iff.mp hc, h⟩
    · rintro ⟨n, hn, h⟩
      rw [component_eq_ok_iff.mpr hn] at hc
      rwa [← Except.ok.inj hc]

/-- A host version is read exactly when each component stands for the number of the version at its place. -/
theorem read_eq_ok_iff {written : String} {v : HostVersion} :
    read written = .ok v ↔
      List.Forall₂ (fun part n => Decimal.Denotes part n.toNat) (components (trim written.toList)) v.numbers := by
  unfold read
  dsimp only
  split
  · next hnil =>
    rw [hnil]
    refine ⟨nofun, fun hall => ?_⟩
    obtain ⟨n, -, hn, -⟩ := List.forall₂_cons_left_iff.mp hall
    exact absurd hn Decimal.not_denotes_nil
  · split
    · next major hparts =>
      rw [hparts]
      simp only [bind_component_eq_ok_iff, List.forall₂_cons_left_iff, List.forall₂_nil_left_iff]
      constructor
      · rintro ⟨a, ha, heq⟩
        exact ⟨a, [], ha, rfl, congrArg numbers (Except.ok.inj heq).symm⟩
      · rintro ⟨a, _, ha, rfl, hnumbers⟩
        exact ⟨a, ha, congrArg Except.ok (numbers_inj hnumbers.symm)⟩
    · next major minor hparts =>
      rw [hparts]
      simp only [bind_component_eq_ok_iff, List.forall₂_cons_left_iff, List.forall₂_nil_left_iff]
      constructor
      · rintro ⟨a, ha, b, hb, heq⟩
        exact ⟨a, [b], ha, ⟨b, [], hb, rfl, rfl⟩, congrArg numbers (Except.ok.inj heq).symm⟩
      · rintro ⟨a, _, ha, ⟨b, _, hb, rfl, rfl⟩, hnumbers⟩
        exact ⟨a, ha, b, hb, congrArg Except.ok (numbers_inj hnumbers.symm)⟩
    · next major minor patch hparts =>
      rw [hparts]
      simp only [bind_component_eq_ok_iff, List.forall₂_cons_left_iff, List.forall₂_nil_left_iff]
      constructor
      · rintro ⟨a, ha, b, hb, c, hc, heq⟩
        exact ⟨a, [b, c], ha, ⟨b, [c], hb, ⟨c, [], hc, rfl, rfl⟩, rfl⟩, congrArg numbers (Except.ok.inj heq).symm⟩
      · rintro ⟨a, _, ha, ⟨b, _, hb, ⟨c, _, hc, rfl, rfl⟩, rfl⟩, hnumbers⟩
        exact ⟨a, ha, b, hb, c, hc, congrArg Except.ok (numbers_inj hnumbers.symm)⟩
    · next hone htwo hthree =>
      -- no host version has the four or more numbers that are left
      refine ⟨nofun, fun hall => ?_⟩
      have hlength := hall.length_eq
      obtain ⟨hleast, hmost⟩ := v.length_numbers
      have hparts : (components (trim written.toList)).length = 1 ∨ (components (trim written.toList)).length = 2 ∨
          (components (trim written.toList)).length = 3 := by omega
      rcases hparts with h | h | h
      · obtain ⟨major, h⟩ := List.length_eq_one_iff.mp h
        exact (hone major h).elim
      · obtain ⟨major, minor, h⟩ := List.length_eq_two.mp h
        exact (htwo major minor h).elim
      · obtain ⟨major, minor, patch, h⟩ := List.length_eq_three.mp h
        exact (hthree major minor patch h).elim

/-! ## Written host versions -/

theorem toList_display (v : HostVersion) :
    v.display.toList = ['.'].intercalate (v.numbers.map fun n => (Decimal.written n).toList) := by
  rw [display, String.toList_intercalate, List.map_map]
  rfl

theorem not_mem_written (n : UInt32) : '.' ∉ (Decimal.written n).toList :=
  fun hdot => absurd (Decimal.isDigit_of_mem_written '.' hdot) (by decide)

/-- The numbers that were given are the components of the written form. -/
theorem components_display (v : HostVersion) :
    components v.display.toList = v.numbers.map fun n => (Decimal.written n).toList := by
  rw [toList_display]
  refine components_intercalate (List.cons_ne_nil _ _) fun t ht => ?_
  obtain ⟨n, -, rfl⟩ := List.mem_map.mp ht
  exact not_mem_written n

theorem isBlank_of_mem_display {v : HostVersion} : ∀ c ∈ v.display.toList, isBlank c = false := by
  intro c hc
  rw [toList_display] at hc
  rcases mem_intercalate hc with rfl | ⟨t, ht, hc⟩
  · rfl
  · obtain ⟨n, -, rfl⟩ := List.mem_map.mp ht
    exact isBlank_of_isDigit (Decimal.isDigit_of_mem_written c hc)

theorem trim_display (v : HostVersion) : trim v.display.toList = v.display.toList :=
  trim_eq_self (fun c hc => isBlank_of_mem_display c (List.mem_of_head? hc))
    fun c hc => isBlank_of_mem_display c (List.mem_of_getLast? hc)

/-- The written form of a host version is read as that version. -/
theorem read_display (v : HostVersion) : read v.display = .ok v := by
  rw [read_eq_ok_iff, trim_display, components_display, List.forall₂_map_left_iff, List.forall₂_same]
  exact fun n _ => Decimal.word?_eq_some_iff.mp (Decimal.word?_written n)

/-! ## The grammar -/

/-- Texts that stand for numbers are the components of what they make with dots between them. -/
theorem components_of_denotes {text : List Char} {parts : List (List Char)} (htext : text = ['.'].intercalate parts)
    (hne : parts ≠ []) (hparts : ∀ part ∈ parts, ∃ n, Decimal.Denotes part n) : components text = parts := by
  rw [htext]
  refine components_intercalate hne fun part hpart hdot => ?_
  obtain ⟨n, hn⟩ := hparts part hpart
  exact absurd (hn.eq_plus_or_isDigit hdot) (by decide)

/-- Several texts stand for numbers of 32 bits when each of them does. -/
theorem exists_forall₂_denotes_iff {parts : List (List Char)} :
    (∃ numbers : List UInt32, List.Forall₂ (fun part n => Decimal.Denotes part n.toNat) parts numbers) ↔
      ∀ part ∈ parts, ∃ n ≤ 4294967295, Decimal.Denotes part n := by
  induction parts with
  | nil => exact ⟨fun _ => nofun, fun _ => ⟨[], .nil⟩⟩
  | cons part parts ih =>
    rw [List.forall_mem_cons, ← ih, ← Decimal.exists_word?_iff]
    simp only [List.forall₂_cons_left_iff, Decimal.word?_eq_some_iff]
    constructor
    · rintro ⟨_, n, numbers, hn, hnumbers, rfl⟩
      exact ⟨⟨n, hn⟩, numbers, hnumbers⟩
    · rintro ⟨⟨n, hn⟩, numbers, hnumbers⟩
      exact ⟨n :: numbers, n, numbers, hn, hnumbers, rfl⟩

/-- A host version is read from the texts that stand for its numbers, with dots between them. -/
theorem read_eq_ok_iff_exists_parts {written : String} {v : HostVersion} :
    read written = .ok v ↔ ∃ parts, trim written.toList = ['.'].intercalate parts ∧
      List.Forall₂ (fun part n => Decimal.Denotes part n.toNat) parts v.numbers := by
  rw [read_eq_ok_iff]
  constructor
  · exact fun hall => ⟨_, (intercalate_components _).symm, hall⟩
  · rintro ⟨parts, htext, hall⟩
    have hne : parts ≠ [] := List.ne_nil_of_length_pos (hall.length_eq ▸ v.length_numbers.1)
    have hparts := exists_forall₂_denotes_iff.mp ⟨_, hall⟩
    rwa [components_of_denotes htext hne fun part hpart => (hparts part hpart).imp fun n hn => hn.2]

/-- A text is read as a host version exactly when it consists, but for blank characters at its ends, of one to three numbers of 32
bits with dots between them, each of which may have a plus sign. These are the numbers of the version, and its written form is read
as the same numbers again, with the same ones given. -/
theorem read_follows_grammar (written : String) :
    ((∃ v, read written = .ok v) ↔
      ∃ parts, trim written.toList = ['.'].intercalate parts ∧ 1 ≤ parts.length ∧ parts.length ≤ 3 ∧
        ∀ part ∈ parts, ∃ n ≤ 4294967295, Decimal.Denotes part n) ∧
    (∀ v, read written = .ok v ↔
      ∃ parts, trim written.toList = ['.'].intercalate parts ∧
        List.Forall₂ (fun part n => Decimal.Denotes part n.toNat) parts v.numbers) ∧
    ∀ v, read written = .ok v →
      ∃ w, read v.display = .ok w ∧ w.major = v.major ∧ w.minor? = v.minor? ∧ w.patch? = v.patch? := by
  refine ⟨?_, fun v => read_eq_ok_iff_exists_parts, fun v _ => ⟨v, read_display v, rfl, rfl, rfl⟩⟩
  simp only [read_eq_ok_iff_exists_parts]
  constructor
  · rintro ⟨v, parts, htext, hall⟩
    obtain ⟨hleast, hmost⟩ := v.length_numbers
    rw [← hall.length_eq] at hleast hmost
    exact ⟨parts, htext, hleast, hmost, exists_forall₂_denotes_iff.mp ⟨_, hall⟩⟩
  · rintro ⟨parts, htext, hleast, hmost, hparts⟩
    obtain ⟨numbers, hall⟩ := exists_forall₂_denotes_iff.mpr hparts
    rw [hall.length_eq] at hleast hmost
    obtain ⟨v, rfl⟩ := exists_numbers_eq hleast hmost
    exact ⟨v, parts, htext, hall⟩

/-- What a padded text with a sign and leading zeros is read as. -/
def padded : HostVersion :=
  ⟨17, some 0, none, nofun⟩

/-- The padded text is no written form, but that of what it is read as is read as the same. -/
theorem padded_reads_as_plain :
    read "\t+017.00 " = .ok padded ∧ padded.display = "17.0" ∧
      ∃ w, read padded.display = .ok w ∧ w.major = 17 ∧ w.minor? = some 0 ∧ w.patch? = none := by
  have hread : read "\t+017.00 " = .ok padded := rfl
  exact ⟨hread, rfl, (read_follows_grammar "\t+017.00 ").2.2 padded hread⟩

end HostVersion

end AddonPlanner
