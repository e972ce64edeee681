import AddonPlanner.Version.Order

/-!
# Versions as lists of tokens

A version text is a list of tokens: a run of other characters and the number that the digits behind it stand for. The order
of versions is the lexicographic order of these lists below the order of epochs (`compareText_eq`), so it is a total order, and
versions are equal when their epochs and tokens are (`compare_eq_eq_iff`).
-/

namespace AddonPlanner.Version

open Std

/-! ## Runs of digits are compared by the number they stand for -/

theorem toNat_of_isDigit {c : Char} (h : c.isDigit) : '0'.toNat ≤ c.toNat ∧ c.toNat - '0'.toNat < 10 := by
  have h := Char.isDigit_iff_toNat.mp h
  exact ⟨h.1, Nat.lt_of_le_of_lt (Nat.sub_le_sub_right h.2 '0'.toNat) (by decide)⟩

/-- Characters are ordered by their code points. -/
theorem compare_char_eq (c d : Char) : compare c d = compare c.toNat d.toNat := by
  have hlt : c < d ↔ c.toNat < d.toNat := by
    rw [Char.lt_def, UInt32.lt_iff_toNat_lt]
    rfl
  have heq : c = d ↔ c.toNat = d.toNat := Char.toNat_inj.symm
  show compareOfLessAndEq c d = compareOfLessAndEq c.toNat d.toNat
  simp only [compareOfLessAndEq, hlt, heq]

/-- Putting a digit behind each of two numbers: the numbers decide, then the digits. -/
theorem compare_mul_ten_add {a b c d : Nat} (hc : c < 10) (hd : d < 10) :
    compare (10 * a + c) (10 * b + d) = (compare a b).then (compare c d) := by
  rcases Nat.lt_trichotomy a b with h | h | h
  · rw [Nat.compare_eq_lt.mpr h, Nat.compare_eq_lt.mpr (by omega)]
    rfl
  · subst h
    rw [Nat.compare_eq_eq.mpr rfl, Ordering.then]
    rcases Nat.lt_trichotomy c d with h | h | h
    · rw [Nat.compare_eq_lt.mpr h, Nat.compare_eq_lt.mpr (by omega)]
    · rw [Nat.compare_eq_eq.mpr h, Nat.compare_eq_eq.mpr (by omega)]
    · rw [Nat.compare_eq_gt.mpr h, Nat.compare_eq_gt.mpr (by omega)]
  · rw [Nat.compare_eq_gt.mpr h, Nat.compare_eq_gt.mpr (by omega)]
    rfl

theorem compare_sub {a b k : Nat} (ha : k ≤ a) (hb : k ≤ b) : compare (a - k) (b - k) = compare a b := by
  rcases Nat.lt_trichotomy a b with h | h | h
  · rw [Nat.compare_eq_lt.mpr h, Nat.compare_eq_lt.mpr (by omega)]
  · rw [Nat.compare_eq_eq.mpr h, Nat.compare_eq_eq.mpr (by omega)]
  · rw [Nat.compare_eq_gt.mpr h, Nat.compare_eq_gt.mpr (by omega)]

/-- Runs of digits of one length, behind two numbers: the numbers decide, then the runs, digit by digit. -/
theorem compare_ofDigitChars {left right : List Char} (hlen : left.length = right.length)
    (hl : ∀ c ∈ left, c.isDigit) (hr : ∀ c ∈ right, c.isDigit) (a b : Nat) :
    compare (Nat.ofDigitChars 10 left a) (Nat.ofDigitChars 10 right b) = (compare a b).then (compare left right) := by
  induction left generalizing right a b with
  | nil =>
    obtain rfl : right = [] := List.eq_nil_of_length_eq_zero hlen.symm
    simp
  | cons c left ih =>
    cases right with
    | nil => simp at hlen
    | cons d right =>
      have hc := toNat_of_isDigit (hl c (by simp))
      have hd := toNat_of_isDigit (hr d (by simp))
      have hcd : compare (c.toNat - '0'.toNat) (d.toNat - '0'.toNat) = compare c d := by
        rw [compare_char_eq]
        exact compare_sub hc.1 hd.1
      rw [Nat.ofDigitChars_cons, Nat.ofDigitChars_cons,
        ih (by simpa using hlen) (fun x hx => hl x (by simp [hx])) (fun x hx => hr x (by simp [hx])),
        List.compare_cons_cons, compare_mul_ten_add hc.2 hd.2, hcd, Ordering.then_assoc]

theorem ofDigitChars_dropWhile_zero (text : List Char) :
    Nat.ofDigitChars 10 (text.dropWhile (· == '0')) 0 = Nat.ofDigitChars 10 text 0 := by
  induction text with
  | nil => rfl
  | cons c rest ih =>
    rw [List.dropWhile_cons]
    split
    · next h =>
      obtain rfl : c = '0' := by simpa using h
      rw [ih, Nat.ofDigitChars_cons, Nat.sub_self]
    · rfl

/-- Of two runs of digits the shorter stands for the smaller number, when the longer one has no leading zero. -/
theorem ofDigitChars_lt {left right : List Char} (hlen : left.length < right.length) (hl : ∀ c ∈ left, c.isDigit)
    (hr : ∀ c ∈ right, c.isDigit) (hhead : ∀ c rest, right = c :: rest → c ≠ '0') :
    Nat.ofDigitChars 10 left 0 < Nat.ofDigitChars 10 right 0 := by
  cases right with
  | nil => simp at hlen
  | cons d rest =>
    -- with zeros in front the shorter run gets the length of the longer one and keeps its number
    obtain ⟨n, hn⟩ : ∃ n, (d :: rest).length = n + 1 + left.length :=
      ⟨rest.length - left.length, by simp at hlen ⊢; omega⟩
    have hd : '0'.toNat < d.toNat := by
      have hd := toNat_of_isDigit (hr d (by simp))
      have hne : d.toNat ≠ '0'.toNat := fun h => hhead d rest rfl (Char.toNat_inj.mp h)
      exact Nat.lt_of_le_of_ne hd.1 hne.symm
    have hpad : ∀ c ∈ List.replicate (n + 1) '0' ++ left, c.isDigit := by
      intro c hc
      rcases List.mem_append.mp hc with hc | hc
      · rw [(List.mem_replicate.mp hc).2]
        rfl
      · exact hl c hc
    have h := compare_ofDigitChars (by simp; simp at hn; omega) hpad hr 0 0
    rw [Nat.ofDigitChars_append, Nat.ofDigitChars_replicate_zero, Nat.mul_zero, Nat.compare_eq_eq.mpr rfl,
      List.replicate_succ, List.cons_append, List.compare_cons_cons, compare_char_eq, Nat.compare_eq_lt.mpr hd] at h
    exact Nat.compare_eq_lt.mp h

theorem isDigit_of_mem_dropWhile {text : List Char} (h : ∀ c ∈ text, c.isDigit) :
    ∀ c ∈ text.dropWhile (· == '0'), c.isDigit :=
  fun c hc => h c ((List.dropWhile_sublist _).subset hc)

theorem ne_zero_of_dropWhile_eq {text : List Char} (c : Char) (rest : List Char)
    (h : text.dropWhile (· == '0') = c :: rest) : c ≠ '0' := by
  have := List.head?_dropWhile_not (· == '0') text
  rw [h] at this
  simpa using this

/-- Runs of digits are compared as the numbers they stand for. -/
theorem compareDigits_eq {left right : List Char} (hl : ∀ c ∈ left, c.isDigit) (hr : ∀ c ∈ right, c.isDigit) :
    compareDigits left right = compare (Nat.ofDigitChars 10 left 0) (Nat.ofDigitChars 10 right 0) := by
  rw [← ofDigitChars_dropWhile_zero left, ← ofDigitChars_dropWhile_zero right]
  have hl := isDigit_of_mem_dropWhile hl
  have hr := isDigit_of_mem_dropWhile hr
  show (compare (left.dropWhile (· == '0')).length (right.dropWhile (· == '0')).length).then
    (compare (left.dropWhile (· == '0')) (right.dropWhile (· == '0'))) = _
  rcases Nat.lt_trichotomy (left.dropWhile (· == '0')).length (right.dropWhile (· == '0')).length with h | h | h
  · rw [Nat.compare_eq_lt.mpr h, Nat.compare_eq_lt.mpr (ofDigitChars_lt h hl hr ne_zero_of_dropWhile_eq)]
    rfl
  · rw [Nat.compare_eq_eq.mpr h, compare_ofDigitChars h hl hr, Nat.compare_eq_eq.mpr rfl]
  · rw [Nat.compare_eq_gt.mpr h, Nat.compare_eq_gt.mpr (ofDigitChars_lt h hr hl ne_zero_of_dropWhile_eq)]
    rfl

/-! ## Texts are compared token by token -/

/-- The tokens of a text: its first run of other characters, which may be empty, with the number behind it (zero when there
is none), and then the tokens of the rest. -/
def tokens (text : List Char) : List (List Char × Nat) :=
  (text.takeWhile (!·.isDigit), Nat.ofDigitChars 10 (digitRun text) 0) ::
    if _ : afterRuns text = [] then [] else tokens (afterRuns text)
termination_by text.length
decreasing_by
  rename_i h
  refine length_afterRuns_lt fun ht => h ?_
  rw [ht]
  rfl

/-- The tokens behind the first one. -/
def restTokens (text : List Char) : List (List Char × Nat) :=
  if afterRuns text = [] then [] else tokens (afterRuns text)

theorem tokens_eq (text : List Char) :
    tokens text = (text.takeWhile (!·.isDigit), Nat.ofDigitChars 10 (digitRun text) 0) :: restTokens text := by
  rw [tokens]
  rfl

/-- Tokens are compared by their runs first, and then by their numbers. -/
def compareTokens : List Char × Nat → List Char × Nat → Ordering :=
  compareLex (fun s t => compareNames s.1 t.1) (compareOn Prod.snd)

theorem isDigit_of_mem_digitRun {text : List Char} : ∀ c ∈ digitRun text, c.isDigit :=
  fun _ hc => List.all_eq_true.mp List.all_takeWhile _ hc

/-- The rest behind the digits does not start with a digit. -/
theorem takeWhile_afterRuns_ne_nil {text : List Char} (h : afterRuns text ≠ []) :
    (afterRuns text).takeWhile (!·.isDigit) ≠ [] := by
  have hhead := List.head?_dropWhile_not (·.isDigit) (text.dropWhile (!·.isDigit))
  cases hrest : afterRuns text with
  | nil => exact absurd hrest h
  | cons c rest =>
    rw [show (text.dropWhile (!·.isDigit)).dropWhile (·.isDigit) = c :: rest from hrest] at hhead
    simp_all

theorem compareNames_nil_left {right : List Char} (h : right ≠ []) : compareNames [] right = .lt := by
  cases right with
  | nil => exact absurd rfl h
  | cons c rest => rfl

theorem compareNames_nil_right {left : List Char} (h : left ≠ []) : compareNames left [] = .gt := by
  cases left with
  | nil => exact absurd rfl h
  | cons c rest => rfl

theorem compareLex_tokens (left right : List Char) :
    List.compareLex compareTokens (tokens left) (tokens right) =
      ((compareNames (left.takeWhile (!·.isDigit)) (right.takeWhile (!·.isDigit))).then
        (compareDigits (digitRun left) (digitRun right))).then
      (List.compareLex compareTokens (restTokens left) (restTokens right)) := by
  rw [tokens_eq, tokens_eq, List.compareLex_cons_cons, compareDigits_eq isDigit_of_mem_digitRun isDigit_of_mem_digitRun]
  rfl

/-- The rests behind the first tokens compare as their texts do. -/
theorem compareLex_restTokens {left right : List Char}
    (h : compareText (afterRuns left) (afterRuns right) =
      List.compareLex compareTokens (tokens (afterRuns left)) (tokens (afterRuns right))) :
    List.compareLex compareTokens (restTokens left) (restTokens right) = compareText (afterRuns left) (afterRuns right) := by
  by_cases hl : afterRuns left = [] <;> by_cases hr : afterRuns right = []
  · rw [restTokens, restTokens, if_pos hl, if_pos hr, hl, hr, compareText]
    rfl
  · have hlt := compareNames_nil_left (takeWhile_afterRuns_ne_nil hr)
    rw [restTokens, restTokens, if_pos hl, if_neg hr, hl, compareText, if_neg (fun hn => hr hn.2), List.takeWhile_nil, hlt,
      tokens_eq]
    rfl
  · have hgt := compareNames_nil_right (takeWhile_afterRuns_ne_nil hl)
    rw [restTokens, restTokens, if_neg hl, if_pos hr, hr, compareText, if_neg (fun hn => hl hn.1), List.takeWhile_nil, hgt,
      tokens_eq]
    rfl
  · rw [restTokens, restTokens, if_neg hl, if_neg hr, h]

/-- Texts are compared as their lists of tokens, a list coming before its extensions. -/
theorem compareText_eq (left right : List Char) :
    compareText left right = List.compareLex compareTokens (tokens left) (tokens right) := by
  fun_induction compareText left right with
  | case1 left right h =>
    obtain ⟨rfl, rfl⟩ := h
    rw [compareLex_tokens]
    rfl
  | case2 left right h hnames hdigits ih =>
    rw [compareLex_tokens, hnames, hdigits, compareLex_restTokens ih]
    rfl
  | case3 left right h hnames hne =>
    rw [compareLex_tokens, hnames]
    cases hdigits : compareDigits (digitRun left) (digitRun right) with
    | eq => exact absurd hdigits hne
    | lt | gt => rfl
  | case4 left right h hne =>
    rw [compareLex_tokens]
    cases hnames : compareNames (left.takeWhile (!·.isDigit)) (right.takeWhile (!·.isDigit)) with
    | eq => exact absurd hnames hne
    | lt | gt => rfl

/-! ## The order is total -/

/-- A total order of what values stand for is one of the values. -/
theorem transCmp_comap {α β : Type} (f : α → β) (cmp : β → β → Ordering) [TransCmp cmp] :
    TransCmp fun a b => cmp (f a) (f b) where
  eq_swap := OrientedCmp.eq_swap
  isLE_trans := TransCmp.isLE_trans

instance : TransCmp compareNames :=
  transCmp_comap (List.map rank) compare

instance : TransCmp compareTokens :=
  have := transCmp_comap (Prod.fst : List Char × Nat → List Char) compareNames
  inferInstanceAs (TransCmp (compareLex (fun s t : List Char × Nat => compareNames s.1 t.1) (compareOn Prod.snd)))

/-- Versions are compared by their epochs first, and then by the tokens of their texts. -/
theorem compare_eq (v w : Version) :
    compare v w = compareLex (compareOn epoch)
      (fun v w => List.compareLex compareTokens (tokens v.text.toList) (tokens w.text.toList)) v w := by
  rw [compareLex, ← compareText_eq]
  rfl

instance : TransOrd Version := by
  have htokens := transCmp_comap (fun v : Version => tokens v.text.toList) (List.compareLex compareTokens)
  have heq : (compare : Version → Version → Ordering) = _ := funext fun v => funext fun w => compare_eq v w
  rw [TransOrd, heq]
  infer_instance

/-! ## Equal versions -/

theorem toNat_lt_of_isAlpha {c : Char} (h : c.isAlpha) : c.toNat < 0x10000 := by
  rcases (Bool.or_eq_true _ _).mp h with h | h
  · have hle : c.toNat ≤ 'Z'.toNat := UInt32.le_iff_toNat_le.mp (of_decide_eq_true h).2
    exact Nat.lt_of_le_of_lt hle (by decide)
  · have hle : c.toNat ≤ 'z'.toNat := UInt32.le_iff_toNat_le.mp (of_decide_eq_true ((Bool.and_eq_true _ _).mp h).2)
    exact Nat.lt_of_le_of_lt hle (by decide)

/-- Letters rank below the other characters, so no two characters share a rank. -/
theorem eq_of_rank_eq {c d : Char} (h : rank c = rank d) : c = d := by
  refine Char.toNat_inj.mp ?_
  unfold rank at h
  split at h
  · next hc =>
    have := toNat_lt_of_isAlpha hc
    split at h
    · exact h
    · omega
  · split at h
    · next hd =>
      have := toNat_lt_of_isAlpha hd
      omega
    · omega

instance : LawfulEqCmp compareNames where
  compare_self := ReflCmp.compare_self
  eq_of_compare h := (List.map_inj_right fun _ _ => eq_of_rank_eq).mp (LawfulEqCmp.eq_of_compare h)

instance : LawfulEqCmp compareTokens where
  compare_self := ReflCmp.compare_self
  eq_of_compare h := by
    obtain ⟨hname, hnumber⟩ := compareLex_eq_eq.mp h
    exact Prod.ext (LawfulEqCmp.eq_of_compare hname) (LawfulEqCmp.eq_of_compare hnumber)

/-- Versions are equal when they have one epoch and their texts the same tokens, whatever the leading zeros. -/
theorem compare_eq_eq_iff {v w : Version} :
    compare v w = .eq ↔ v.epoch = w.epoch ∧ tokens v.text.toList = tokens w.text.toList := by
  rw [compare_eq, compareLex_eq_eq]
  exact and_congr LawfulEqOrd.compare_eq_iff_eq LawfulEqCmp.compare_eq_iff_eq

instance : LawfulBEqOrd Version where
  compare_eq_iff_beq := Ordering.isEq_iff_eq_eq.symm

/-- The order of versions is total, and `==` is the equivalence that it induces: it relates the versions with one epoch and the
same tokens, and what it relates compares alike with every version. -/
theorem comparison_laws :
    (∀ v : Version, compare v v = .eq) ∧
      (∀ v w : Version, compare w v = (compare v w).swap) ∧
      (∀ u v w : Version, (compare u v).isLE → (compare v w).isLE → (compare u w).isLE) ∧
      (∀ v w : Version, (v == w) = true ↔ compare v w = .eq) ∧
      (∀ v w : Version, (v == w) = true ↔ v.epoch = w.epoch ∧ tokens v.text.toList = tokens w.text.toList) ∧
      Equivalence (fun v w : Version => (v == w) = true) ∧
      (∀ u v w : Version, (v == w) = true → compare v u = compare w u ∧ compare u v = compare u w) := by
  refine ⟨fun _ => ReflOrd.compare_self, fun _ _ => OrientedOrd.eq_swap, fun _ _ _ => TransOrd.isLE_trans,
    fun _ _ => LawfulBEqOrd.compare_eq_iff_beq.symm, ?_, ?_, ?_⟩
  · intro v w
    rw [← LawfulBEqOrd.compare_eq_iff_beq, compare_eq_eq_iff]
  · exact ⟨fun v => BEq.refl v, BEq.symm, BEq.trans⟩
  · intro u v w h
    have heq : compare v w = .eq := LawfulBEqOrd.compare_eq_iff_beq.mpr h
    exact ⟨TransCmp.congr_left heq, TransCmp.congr_right heq⟩

/-- The version `1.2`. -/
def plain : Version := ⟨0, "1.2", by decide⟩

/-- The version `1.02`, which is the same as `1.2`. -/
def padded : Version := ⟨0, "1.02", by decide⟩

/-- The version `1.2b.0`, whose text goes on with a letter where `1.2` ends. -/
def lettered : Version := ⟨0, "1.2b.0", by decide⟩

/-- The version `1:0`, which its epoch puts after the others. -/
def raised : Version := ⟨1, "0", by decide⟩

/-- A leading zero makes no difference to any comparison, and what goes on with a letter lies between `1.2` and the next epoch. -/
theorem padded_compares_as_plain :
    (compare padded lettered).isLE ∧ (compare lettered raised).isLE ∧ (compare padded raised).isLE ∧
      (padded == plain) = true ∧ compare padded lettered = compare plain lettered := by
  obtain ⟨-, -, htrans, -, -, -, hcongr⟩ := comparison_laws
  have hlettered : (compare padded lettered).isLE := by decide +kernel
  have hraised : (compare lettered raised).isLE := by decide +kernel
  have hplain : (padded == plain) = true := by decide +kernel
  exact ⟨hlettered, hraised, htrans _ _ _ hlettered hraised, hplain, (hcongr lettered _ _ hplain).1⟩

end AddonPlanner.Version
