import AddonPlanner.Json.Printer
import AddonPlanner.Json.Token

/-!
# The tokens of a printed document

A complete document is printed with its own tokens: whatever stands before and behind the text of the document, the scan finds
them there (`Document.Complete.scans_chars`). Words, numbers and strings are scanned up to their ends; the marks of lists and
objects keep them apart.
-/

namespace AddonPlanner.Json

/-! ## Escapes -/

/-- A character is written as a short escape, as a numbered escape when it is a control character, or as itself. -/
theorem escaped_cases (c : Char) :
    (∃ letter, shortEscape? letter = some c ∧ letter ≠ 'u' ∧ escaped c = ['\\', letter]) ∨
      (c.toNat < 0x20 ∧ escaped c = ['\\', 'u', '0', '0', hexDigit (c.toNat / 16), hexDigit (c.toNat % 16)]) ∨
      (0x20 ≤ c.toNat ∧ c ≠ '"' ∧ c ≠ '\\' ∧ escaped c = [c]) := by
  unfold escaped
  split
  · next letter hletter =>
    left
    unfold escapeLetter? at hletter
    split at hletter <;> cases hletter <;> exact ⟨_, rfl, by decide, rfl⟩
  · next hnone =>
    right
    have hquote : c ≠ '"' := by
      rintro rfl
      cases hnone
    have hbackslash : c ≠ '\\' := by
      rintro rfl
      cases hnone
    split
    · next hcontrol => exact Or.inl ⟨hcontrol, rfl⟩
    · next hcontrol => exact Or.inr ⟨Nat.le_of_not_lt hcontrol, hquote, hbackslash, rfl⟩

theorem hexUnit?_hexDigit : ∀ n < 0x20, hexUnit? '0' '0' (hexDigit (n / 16)) (hexDigit (n % 16)) = some n := by
  decide

theorem hexDigit_plain : ∀ n < 0x10, hexDigit n ≠ '"' ∧ hexDigit n ≠ '\\' := by
  decide

/-- An escaped character is read as that character. -/
theorem pieces?_escaped (c : Char) (rest : List Symbol) :
    pieces? ((escaped c).map some ++ rest) = (pieces? rest).map (.char c :: ·) := by
  rcases escaped_cases c with ⟨letter, hletter, hu, hc⟩ | ⟨hcontrol, hc⟩ | ⟨hcontrol, -, hbackslash, hc⟩
  · rw [hc]
    show pieces? (some '\\' :: some letter :: rest) = _
    rw [pieces?, hletter]
    intro _ _ _ _ _ _ hletter
    exact hu hletter
  · rw [hc]
    show pieces? (some '\\' :: some 'u' :: some '0' :: some '0' :: _ :: _ :: rest) = _
    rw [pieces?, hexUnit?_hexDigit _ hcontrol]
    have hchar : Piece.ofUnit c.toNat = .char c := by
      rw [Piece.ofUnit, if_neg (by omega), if_neg (by omega), Char.ofNat_toNat]
    rw [← hchar]
  · rw [hc]
    show pieces? (some c :: rest) = _
    rw [pieces?]
    · rw [if_neg]
      rintro (h | h)
      · exact hbackslash h
      · omega
    · intro _ _ _ _ _ _ h
      exact hbackslash h
    · intro _ _ _ h
      exact hbackslash h

/-- Escaped text is read as that text. -/
theorem pieces?_flatMap_escaped (text : List Char) :
    pieces? ((text.flatMap escaped).map some) = some (text.map .char) := by
  induction text with
  | nil => rfl
  | cons c rest ih => rw [List.flatMap_cons, List.map_append, pieces?_escaped, ih, List.map_cons, Option.map_some]

theorem textOf?_map_char (text : List Char) : textOf? (text.map .char) = some text := by
  induction text with
  | nil => rfl
  | cons c rest ih => rw [List.map_cons, textOf?, ih, Option.map_some]

/-- The contents of a printed string make the token of that string. -/
theorem ofContents_escaped (content : String) :
    Token.ofContents ((content.toList.flatMap escaped).map some) = .string (some content) := by
  rw [Token.ofContents, pieces?_flatMap_escaped]
  show Token.string ((textOf? _).map String.ofList) = _
  rw [textOf?_map_char, Option.map_some, String.ofList_toList]

/-! ## Scanning -/

/-- The tokens that a scan comes to when it takes the rest of a text. -/
def Scan.complete (s : Scan) (rest : List Symbol) : List Token :=
  (rest.foldl Scan.step s).finish

/-- A text makes the given tokens, whatever stands before it and after it, as long as no word goes on behind it. -/
def Scans (text : List Char) (found : List Token) : Prop :=
  ∀ before rest, (∀ c, rest.head? = some (some c) → isWordChar c = false) →
    Scan.complete ⟨before, .nothing⟩ (text.map some ++ rest) = Scan.complete ⟨found.reverse ++ before, .nothing⟩ rest

/-- A mark makes its token. -/
theorem step_mark {c : Char} {t : Token} (h : Token.ofMark? c = some t) (before : List Token) :
    Scan.step ⟨before, .nothing⟩ (some c) = ⟨t :: before, .nothing⟩ := by
  unfold Token.ofMark? at h
  split at h <;> cases h <;> rfl

theorem isWordChar_of_mark {c : Char} {t : Token} (h : Token.ofMark? c = some t) : isWordChar c = false := by
  unfold Token.ofMark? at h
  split at h <;> cases h <;> rfl

theorem Scans.nil : Scans [] [] :=
  fun _ _ _ => rfl

theorem Scans.cons_mark {c : Char} {t : Token} {text : List Char} {found : List Token} (h : Token.ofMark? c = some t)
    (hs : Scans text found) : Scans (c :: text) (t :: found) := by
  intro before rest hrest
  have hstep : Scan.complete ⟨before, .nothing⟩ ((c :: text).map some ++ rest) =
      Scan.complete ⟨t :: before, .nothing⟩ (text.map some ++ rest) := by
    simp only [Scan.complete, List.map_cons, List.cons_append, List.foldl_cons, step_mark h]
  rw [hstep, hs _ rest hrest, List.reverse_cons, List.append_assoc]
  rfl

/-- A mark ends what stands before it. -/
theorem Scans.append_mark {c : Char} {t : Token} {text text' : List Char} {found found' : List Token} (hs : Scans text found)
    (h : Token.ofMark? c = some t) (hs' : Scans text' found') : Scans (text ++ c :: text') (found ++ t :: found') := by
  intro before rest hrest
  have hend : ∀ d, ((c :: text').map some ++ rest).head? = some (some d) → isWordChar d = false := by
    intro d hd
    obtain rfl : c = d := by simpa using hd
    exact isWordChar_of_mark h
  rw [List.map_append, List.append_assoc, hs before _ hend, hs'.cons_mark h _ rest hrest, List.reverse_append, List.append_assoc]

/-! ### Words -/

theorem begin_of_isWordChar {c : Char} (h : isWordChar c) (before : List Token) :
    Scan.step ⟨before, .nothing⟩ (some c) = ⟨before, .word [c]⟩ := by
  have hspace : isSpace c = false := by
    refine Bool.eq_false_iff.mpr fun hspace => ?_
    simp only [isSpace, Bool.or_eq_true, beq_iff_eq] at hspace
    rcases hspace with ((rfl | rfl) | rfl) | rfl <;> exact absurd h (by decide)
  have hquote : c ≠ '"' := by
    rintro rfl
    exact absurd h (by decide)
  simp only [Scan.step, Scan.begin, hspace, hquote, h, Bool.false_eq_true, if_true, if_false]

theorem foldl_step_word (before : List Token) {word : List Char} (h : ∀ c ∈ word, isWordChar c) (taken : List Char) :
    (word.map some).foldl Scan.step ⟨before, .word taken⟩ = ⟨before, .word (word.reverse ++ taken)⟩ := by
  induction word generalizing taken with
  | nil => rfl
  | cons c rest ih =>
    obtain ⟨hc, hrest⟩ := List.forall_mem_cons.mp h
    have hstep : Scan.step ⟨before, .word taken⟩ (some c) = ⟨before, .word (c :: taken)⟩ := by
      simp only [Scan.step, hc, if_true]
    rw [List.map_cons, List.foldl_cons, hstep, ih hrest, List.reverse_cons, List.append_assoc]
    rfl

/-- A word ends where no word goes on. -/
theorem complete_word (before : List Token) (taken : List Char) {rest : List Symbol}
    (hrest : ∀ c, rest.head? = some (some c) → isWordChar c = false) :
    Scan.complete ⟨before, .word taken⟩ rest = Scan.complete ⟨.ofWord taken.reverse :: before, .nothing⟩ rest := by
  cases rest with
  | nil => rfl
  | cons symbol rest =>
    have hstep : Scan.step ⟨before, .word taken⟩ symbol = Scan.step ⟨.ofWord taken.reverse :: before, .nothing⟩ symbol := by
      cases symbol with
      | none => rfl
      | some c => simp only [Scan.step, hrest c rfl, Bool.false_eq_true, if_false]
    simp only [Scan.complete, List.foldl_cons, hstep]

theorem scans_word {word : List Char} (hne : word ≠ []) (h : ∀ c ∈ word, isWordChar c) : Scans word [.ofWord word] := by
  cases word with
  | nil => exact absurd rfl hne
  | cons c word =>
    intro before rest hrest
    obtain ⟨hc, hword⟩ := List.forall_mem_cons.mp h
    have hscan : Scan.complete ⟨before, .nothing⟩ ((c :: word).map some ++ rest) =
        Scan.complete ⟨before, .word (word.reverse ++ [c])⟩ rest := by
      simp only [Scan.complete, List.map_cons, List.cons_append, List.foldl_cons, List.foldl_append, begin_of_isWordChar hc,
        foldl_step_word before hword]
    rw [hscan, complete_word before _ hrest, List.reverse_append, List.reverse_reverse]
    rfl

/-! ### Numbers -/

/-- What a part of a number takes off a text is made of characters that stand in words. -/
def TakesWord (part : List Char → Option (List Char)) : Prop :=
  ∀ text rest, part text = some rest → (∀ c ∈ rest, isWordChar c) → ∀ c ∈ text, isWordChar c

theorem isWordChar_of_isDigit {c : Char} (h : c.isDigit) : isWordChar c := by
  show (c.isAlpha || c.isDigit || c == '+' || c == '-' || c == '.') = true
  rw [h, Bool.or_true]
  rfl

theorem takesWord_digitsRest? : TakesWord digitsRest? := by
  intro text rest h hrest
  cases text with
  | nil => cases h
  | cons d text =>
    rw [digitsRest?] at h
    split at h
    · next hd =>
      obtain rfl := Option.some.inj h
      refine List.forall_mem_cons.mpr ⟨isWordChar_of_isDigit hd, fun c hc => ?_⟩
      rw [← List.takeWhile_append_dropWhile (p := Char.isDigit) (l := text)] at hc
      rcases List.mem_append.mp hc with hc | hc
      · exact isWordChar_of_isDigit (List.all_eq_true.mp List.all_takeWhile c hc)
      · exact hrest c hc
    · cases h

theorem takesWord_wholeRest? : TakesWord wholeRest? := by
  intro text rest h hrest
  unfold wholeRest? at h
  split at h
  · obtain rfl := Option.some.inj h
    exact List.forall_mem_cons.mpr ⟨rfl, hrest⟩
  · exact takesWord_digitsRest? _ _ h hrest

theorem takesWord_fractionRest? : TakesWord fractionRest? := by
  intro text rest h hrest
  unfold fractionRest? at h
  split at h
  · exact List.forall_mem_cons.mpr ⟨rfl, takesWord_digitsRest? _ _ h hrest⟩
  · obtain rfl := Option.some.inj h
    exact hrest

theorem takesWord_exponentRest? : TakesWord exponentRest? := by
  intro text rest h hrest
  unfold exponentRest? at h
  split at h
  -- an exponent with a sign, in either case of the letter
  iterate 4 exact List.forall_mem_cons.mpr ⟨rfl, List.forall_mem_cons.mpr ⟨rfl, takesWord_digitsRest? _ _ h hrest⟩⟩
  -- an exponent without one
  iterate 2 exact List.forall_mem_cons.mpr ⟨rfl, takesWord_digitsRest? _ _ h hrest⟩
  · obtain rfl := Option.some.inj h
    exact hrest

/-- A number is a single word. -/
theorem forall_isWordChar_of_isNumber {text : List Char} (h : isNumber text) : ∀ c ∈ text, isWordChar c := by
  simp only [isNumber, beq_iff_eq, Option.bind_eq_bind, Option.bind_eq_some_iff] at h
  obtain ⟨whole, hwhole, fraction, hfraction, hexponent⟩ := h
  have hunsigned : ∀ c ∈ unsignedRest text, isWordChar c :=
    takesWord_wholeRest? _ _ hwhole (takesWord_fractionRest? _ _ hfraction
      (takesWord_exponentRest? _ _ hexponent fun _ hc => absurd hc List.not_mem_nil))
  unfold unsignedRest at hunsigned
  split at hunsigned
  · exact List.forall_mem_cons.mpr ⟨rfl, hunsigned⟩
  · exact hunsigned

theorem ofWord_of_isNumber {literal : String} (h : isNumber literal.toList) :
    Token.ofWord literal.toList = .number literal := by
  have hne (word : String) (hword : isNumber word.toList = false) : literal.toList ≠ word.toList := by
    intro heq
    rw [heq, hword] at h
    cases h
  rw [Token.ofWord, if_neg (hne _ (by decide)), if_neg (hne _ (by decide)), if_neg (hne _ (by decide)), if_pos h,
    String.ofList_toList]

/-! ### Strings -/

/-- A symbol of a string that is no quote and no backslash is taken as it is. -/
theorem step_quoted_plain (found : List Token) (taken : List Symbol) {c : Char} (h : c ≠ '"' ∧ c ≠ '\\') :
    Scan.step ⟨found, .quoted taken false⟩ (some c) = ⟨found, .quoted (some c :: taken) false⟩ := by
  simp [Scan.step, h]

/-- An escaped character does not end a string. -/
theorem foldl_step_escaped (found : List Token) (taken : List Symbol) (c : Char) :
    ((escaped c).map some).foldl Scan.step ⟨found, .quoted taken false⟩ =
      ⟨found, .quoted (((escaped c).map some).reverse ++ taken) false⟩ := by
  rcases escaped_cases c with ⟨letter, -, -, hc⟩ | ⟨hcontrol, hc⟩ | ⟨-, hquote, hbackslash, hc⟩
  · rw [hc]
    rfl
  · have hhigh := hexDigit_plain (c.toNat / 16) (by omega)
    have hlow := hexDigit_plain (c.toNat % 16) (by omega)
    rw [hc]
    simp [Scan.step, hhigh, hlow]
  · rw [hc]
    exact step_quoted_plain found taken ⟨hquote, hbackslash⟩

theorem foldl_step_flatMap_escaped (found : List Token) (text : List Char) (taken : List Symbol) :
    ((text.flatMap escaped).map some).foldl Scan.step ⟨found, .quoted taken false⟩ =
      ⟨found, .quoted (((text.flatMap escaped).map some).reverse ++ taken) false⟩ := by
  induction text generalizing taken with
  | nil => rfl
  | cons c rest ih =>
    rw [List.flatMap_cons, List.map_append, List.foldl_append, foldl_step_escaped, ih, List.reverse_append, List.append_assoc]

theorem scans_quoted (content : String) : Scans (quoted content.toList) [.string (some content)] := by
  intro before rest _
  have hscan : Scan.complete ⟨before, .nothing⟩ ((quoted content.toList).map some ++ rest) =
      Scan.complete ⟨.ofContents ((content.toList.flatMap escaped).map some) :: before, .nothing⟩ rest := by
    have hopen : Scan.step ⟨before, .nothing⟩ (some '"') = ⟨before, .quoted [] false⟩ := rfl
    have hclose (taken : List Symbol) : Scan.step ⟨before, .quoted taken false⟩ (some '"') =
        ⟨.ofContents taken.reverse :: before, .nothing⟩ := rfl
    simp only [Scan.complete, quoted, List.cons_append, List.map_cons, List.map_append, List.foldl_cons, List.foldl_append,
      hopen, foldl_step_flatMap_escaped, hclose, List.append_nil, List.reverse_reverse, List.map_nil, List.foldl_nil]
  rw [hscan, ofContents_escaped]
  rfl

/-! ## Tokens of documents -/

namespace Document

mutual

/-- The tokens that a document is written with. -/
def tokens : Document → List Token
  | null => [.null]
  | bool value => [.bool value]
  | number literal => [.number literal]
  | string content? => [.string content?]
  | array items closed => .openArray :: itemTokens items ++ (if closed then [.closeArray] else [])
  | object members closed => .openObject :: memberTokens members ++ (if closed then [.closeObject] else [])
  | broken => []

/-- The tokens of the items of a list, with commas between them. -/
def itemTokens : List Document → List Token
  | [] => []
  | [item] => item.tokens
  | item :: rest => item.tokens ++ .comma :: itemTokens rest

/-- The tokens of the members of an object, with commas between them. -/
def memberTokens : List (Option String × Document) → List Token
  | [] => []
  | [(name?, value)] => .string name? :: .colon :: value.tokens
  | (name?, value) :: rest => .string name? :: .colon :: value.tokens ++ .comma :: memberTokens rest

end

/-- A document that lacks nothing: its lists and objects are closed, its numbers are numbers, its names and strings stand for
texts. -/
inductive Complete : Document → Prop
  | null : Complete null
  | bool (value : Bool) : Complete (bool value)
  | number {literal : String} : isNumber literal.toList → Complete (number literal)
  | text (content : String) : Complete (text content)
  | list {items : List Document} : (∀ item ∈ items, item.Complete) → Complete (list items)
  | record {fields : List (String × Document)} : (∀ field ∈ fields, field.2.Complete) → Complete (record fields)

theorem scans_itemChars {items : List Document} (h : ∀ item ∈ items, Scans item.chars item.tokens) :
    Scans (itemChars items) (itemTokens items) := by
  induction items with
  | nil => exact .nil
  | cons item rest ih =>
    obtain ⟨hitem, hrest⟩ := List.forall_mem_cons.mp h
    cases rest with
    | nil => exact hitem
    | cons next rest => exact hitem.append_mark rfl (ih hrest)

theorem scans_member {name : String} {value : Document} (h : Scans value.chars value.tokens) :
    Scans (printedString (some name) ++ ':' :: value.chars) (.string (some name) :: .colon :: value.tokens) :=
  (scans_quoted name).append_mark rfl h

theorem scans_memberChars {fields : List (String × Document)} (h : ∀ field ∈ fields, Scans field.2.chars field.2.tokens) :
    Scans (memberChars (fields.map fun (name, value) => (some name, value)))
      (memberTokens (fields.map fun (name, value) => (some name, value))) := by
  induction fields with
  | nil => exact .nil
  | cons field rest ih =>
    obtain ⟨hfield, hrest⟩ := List.forall_mem_cons.mp h
    cases rest with
    | nil => exact scans_member hfield
    | cons next rest => exact (scans_member hfield).append_mark rfl (ih hrest)

/-- A complete document is printed with its tokens. -/
theorem Complete.scans_chars {d : Document} (h : d.Complete) : Scans d.chars d.tokens := by
  induction h with
  | null => exact (scans_word (by decide) (List.all_eq_true.mp rfl) : Scans "null".toList _)
  | bool value =>
    cases value with
    | false => exact (scans_word (by decide) (List.all_eq_true.mp rfl) : Scans "false".toList _)
    | true => exact (scans_word (by decide) (List.all_eq_true.mp rfl) : Scans "true".toList _)
  | @number literal hnumber =>
    show Scans literal.toList [.number literal]
    rw [← ofWord_of_isNumber hnumber]
    refine scans_word ?_ (forall_isWordChar_of_isNumber hnumber)
    intro hnil
    rw [hnil] at hnumber
    cases hnumber
  | text content => exact scans_quoted content
  -- the closing mark ends the last item, which may be a word
  | list _ ih => exact Scans.cons_mark rfl ((scans_itemChars ih).append_mark rfl .nil)
  | record _ ih => exact Scans.cons_mark rfl ((scans_memberChars ih).append_mark rfl .nil)

/-- A complete document is printed as a text with its tokens. -/
theorem Complete.tokens_print {d : Document} (h : d.Complete) : Json.tokens (symbolsOfText d.print) = d.tokens := by
  have hscan := h.scans_chars [] [] (by simp)
  rw [List.append_nil, List.append_nil] at hscan
  show Scan.complete {} ((String.ofList d.chars).toList.map some) = _
  rw [String.toList_ofList, hscan]
  exact List.reverse_reverse _

end Document

end AddonPlanner.Json
