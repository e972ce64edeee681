import AddonPlanner.Form.Text
import AddonPlanner.Proofs.Json.RoundTrip

/-!
# Faithful forms

A value is written faithfully when its form is complete and read as that value (`Form.Faithful`); then it is also read from the
text of its form (`Form.Faithful.ofText_print`). What is written with fields is faithful when its fields are read one after the
other (`Form.faithful_record`), a list is when its items are, and a choice among names when these are different.
-/

namespace AddonPlanner.Form

open Json (Document)

/-- A value whose form is complete and is read as that value. -/
structure Faithful {α : Type} (write : α → Document) (read : Document → Except FormError α) (value : α) : Prop where
  /-- The form lacks nothing. -/
  complete : (write value).Complete
  /-- The form is read as the value. -/
  read_write : read (write value) = .ok value

variable {α σ : Type} {write : α → Document} {read : Document → Except FormError α}

/-- A value that is written faithfully is read from the text of its form. -/
theorem Faithful.ofText_print {value : α} (h : Faithful write read value) : ofText read (write value).print = .ok value := by
  rw [ofText, ofSymbols, h.complete.read_print]
  simp only [h.read_write]
  rfl

/-! ## Names -/

/-- Among things with different names each is found by its name. -/
theorem find?_name {β : Type} {name : β → String} {l : List β} (h : (l.map name).Nodup) {x : β} (hx : x ∈ l) :
    l.find? (fun y => name y == name x) = some x := by
  induction l with
  | nil => cases hx
  | cons y rest ih =>
    rw [List.map_cons, List.nodup_cons] at h
    rcases List.mem_cons.mp hx with rfl | hx
    · exact List.find?_cons_of_pos (by simp)
    · rw [List.find?_cons_of_neg, ih h.2 hx]
      intro hname
      exact h.1 (beq_iff_eq.mp hname ▸ List.mem_map_of_mem hx)

/-! ## Records -/

/-- Members that are fields, in their order, are read like the items of a list. -/
theorem readMembers_of_readItems {fields after : List (RecordField σ)}
    (hfind : ∀ f ∈ after, fields.find? (·.name == f.name) = some f) (hnames : (after.map (·.name)).Nodup) {seen : List String}
    (hseen : ∀ f ∈ after, f.name ∉ seen) {s s' : σ} {values : List Document} (h : readItems after s values = .ok s') :
    readMembers fields seen s (((after.map (·.name)).zip values).map fun (name, value) => (some name, value)) = .ok s' := by
  induction after generalizing seen s values with
  | nil =>
    cases values with
    | nil => exact h
    | cons value rest => cases h
  | cons field after ih =>
    cases values with
    | nil => exact h
    | cons value rest =>
      obtain ⟨hfield, hafter⟩ := List.forall_mem_cons.mp hfind
      obtain ⟨hfresh, hseen⟩ := List.forall_mem_cons.mp hseen
      rw [List.map_cons, List.nodup_cons] at hnames
      rw [List.map_cons, List.zip_cons_cons, List.map_cons, readMembers, hfield]
      rw [readItems] at h
      cases hread : field.read s value with
      | error cause => rw [hread] at h; cases h
      | ok next =>
        rw [hread] at h
        simp only [List.contains_eq_mem, hfresh, hread, decide_false, Bool.false_eq_true, if_false]
        show readMembers fields (field.name :: seen) next _ = _
        refine ih hafter hnames.2 (fun f hf hmem => ?_) h
        rcases List.mem_cons.mp hmem with hname | hmem
        · exact hnames.1 (hname ▸ List.mem_map_of_mem hf)
        · exact hseen f hf hmem

/-- A record of complete values is faithful when its values are read one after the other. -/
theorem faithful_record {fields : List (RecordField σ)} {start s : σ} {finish : σ → Except String α} {value : α}
    (values : List Document) (hwrite : write value = .record ((fields.map (·.name)).zip values))
    (hnames : (fields.map (·.name)).Nodup) (hcomplete : ∀ d ∈ values, d.Complete)
    (hread : readItems fields start values = .ok s) (hfinish : finish s = .ok value) :
    Faithful write (readRecord fields start finish) value := by
  constructor
  · rw [hwrite]
    exact .record fun field hfield => hcomplete field.2 (List.of_mem_zip hfield).2
  · rw [hwrite]
    have hmembers := readMembers_of_readItems (fun _ hf => find?_name hnames hf) hnames
      (fun _ _ => List.not_mem_nil) hread
    simp only [readRecord, Document.record, hmembers, bind, Except.bind, pure, Except.pure, Bool.not_true, Bool.false_eq_true,
      if_false, hfinish]

/-! ## Choices -/

/-- A choice among values with different names is faithful. -/
theorem faithful_choice {name : α → String} {all : List α} (hnames : (all.map name).Nodup) {value : α} (hvalue : value ∈ all) :
    Faithful (fun value => .text (name value)) (readChoice (all.map fun value => ⟨name value, .inl value⟩)) value := by
  refine ⟨.text _, ?_⟩
  have hfind : (all.map fun value => (⟨name value, .inl value⟩ : Variant α)).find? (·.name == name value) =
      some ⟨name value, .inl value⟩ := by
    rw [List.find?_map]
    show (all.find? fun y => name y == name value).map _ = _
    rw [find?_name hnames hvalue]
    rfl
  simp only [Document.text, readChoice, findVariant, hfind]
  rfl

/-- A variant that comes with a complete value is faithful when the variants have different names and that value is read. -/
theorem faithful_variant {variants : List (Variant α)} (hnames : (variants.map (·.name)).Nodup) {name : String}
    {parse : Document → Except FormError α} (hvariant : ⟨name, .inr parse⟩ ∈ variants) {held : Document} {value : α}
    (hwrite : write value = .record [(name, held)]) (hcomplete : held.Complete) (hread : parse held = .ok value) :
    Faithful write (readChoice variants) value := by
  constructor
  · rw [hwrite]
    exact .record (by simp [hcomplete])
  · rw [hwrite]
    simp only [Document.record, List.map_cons, List.map_nil, readChoice, findVariant, find?_name hnames hvariant]
    show (parse held >>= fun value => pure value) = _
    rw [hread]
    rfl

/-! ## Lists and optional values -/

theorem readEach_map {l : List α} (h : ∀ x ∈ l, Faithful write read x) : readEach read (l.map write) = .ok l := by
  induction l with
  | nil => rfl
  | cons x rest ih =>
    obtain ⟨hx, hrest⟩ := List.forall_mem_cons.mp h
    rw [List.map_cons, readEach, hx.read_write, ih hrest]
    rfl

/-- A list of values that are written faithfully is faithful. -/
theorem faithful_list {l : List α} (h : ∀ x ∈ l, Faithful write read x) :
    Faithful (fun l => .list (l.map write)) (readList read) l := by
  constructor
  · refine .list fun d hd => ?_
    obtain ⟨x, hx, rfl⟩ := List.mem_map.mp hd
    exact (h x hx).complete
  · simp only [Document.list, readList, readEach_map h]
    rfl

/-- A text that is read as its value is faithful. -/
theorem faithful_written {display : α → String} {parse : String → Except Fault α} {value : α}
    (h : parse (display value) = .ok value) : Faithful (fun value => .text (display value)) (readWritten parse) value := by
  refine ⟨.text _, ?_⟩
  simp only [Document.text, readWritten, readText, bind, Except.bind, pure, Except.pure, h]

/-- An optional value is faithful when the value is, unless it is written as nothing. -/
theorem faithful_optional {value? : Option α} (h : ∀ value ∈ value?, Faithful write read value ∧ write value ≠ .null) :
    Faithful (writeOptional write) (readOptional read) value? := by
  cases value? with
  | none => exact ⟨.null, rfl⟩
  | some value =>
    obtain ⟨hfaithful, hnull⟩ := h value rfl
    refine ⟨hfaithful.complete, ?_⟩
    show readOptional read (write value) = _
    rw [readOptional, hfaithful.read_write]
    · rfl
    · exact hnull

end AddonPlanner.Form
