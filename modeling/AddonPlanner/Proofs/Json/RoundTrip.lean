import AddonPlanner.Json.Reader
import AddonPlanner.Proofs.Json.Scan

/-!
# Reading what was printed

The tokens of a complete document build that document, whatever it stands in (`Document.Complete.builds`). Together with what the
scan finds in a printed text, a complete document is read again as it was printed (`Document.Complete.read_print`).
-/

namespace AddonPlanner.Json

/-- The tokens of a document build it, whatever it stands in. -/
def Builds (d : Document) (found : List Token) : Prop :=
  ∀ frames, found.foldl Build.step (.partway .value frames) = Build.accept d frames

/-- The first item of a list is read like the others, as long as the list does not end. -/
theorem step_firstItem {t : Token} (h : t ≠ .closeArray) (frames : List Frame) :
    Build.step (.partway .firstItem frames) t = Build.step (.partway .value frames) t := by
  rw [Build.step, Build.step]
  intro _ ht _
  exact h ht

namespace Document

/-- The first token of a complete document opens it. -/
theorem Complete.exists_tokens_eq_cons {d : Document} (h : d.Complete) : ∃ t rest, d.tokens = t :: rest ∧ t ≠ .closeArray := by
  cases h with
  | null => exact ⟨_, _, rfl, by simp⟩
  | bool value => exact ⟨_, _, rfl, by simp⟩
  | number hnumber => exact ⟨_, _, rfl, by simp⟩
  | text content => exact ⟨_, _, rfl, by simp⟩
  | list hitems => exact ⟨_, _, rfl, by simp⟩
  | record hfields => exact ⟨_, _, rfl, by simp⟩

theorem foldl_step_itemTokens {item : Document} {rest : List Document}
    (h : ∀ d ∈ item :: rest, Builds d d.tokens) (done : List Document) (frames : List Frame) :
    (itemTokens (item :: rest)).foldl Build.step (.partway .value (.items done :: frames)) =
      .partway .next (.items ((item :: rest).reverse ++ done) :: frames) := by
  induction rest generalizing item done with
  | nil => exact h item List.mem_cons_self _
  | cons next rest ih =>
    obtain ⟨hitem, hrest⟩ := List.forall_mem_cons.mp h
    show (item.tokens ++ .comma :: itemTokens (next :: rest)).foldl Build.step _ = _
    rw [List.foldl_append, hitem, List.foldl_cons]
    show (itemTokens (next :: rest)).foldl Build.step (.partway .value (.items (item :: done) :: frames)) = _
    rw [ih hrest, List.reverse_cons (a := item), List.append_assoc]
    rfl

theorem exists_itemTokens_eq_cons {item : Document} (h : item.Complete) (rest : List Document) :
    ∃ t others, itemTokens (item :: rest) = t :: others ∧ t ≠ .closeArray := by
  obtain ⟨t, more, htokens, ht⟩ := h.exists_tokens_eq_cons
  cases rest with
  | nil => exact ⟨t, more, htokens, ht⟩
  | cons next rest =>
    refine ⟨t, more ++ .comma :: itemTokens (next :: rest), ?_, ht⟩
    show item.tokens ++ .comma :: itemTokens (next :: rest) = _
    rw [htokens]
    rfl

theorem builds_list {items : List Document} (hcomplete : ∀ d ∈ items, d.Complete) (h : ∀ d ∈ items, Builds d d.tokens) :
    Builds (list items) (list items).tokens := by
  intro frames
  show (itemTokens items ++ [Token.closeArray]).foldl Build.step (.partway .firstItem (.items [] :: frames)) = _
  cases items with
  | nil => rfl
  | cons item rest =>
    obtain ⟨t, others, htokens, ht⟩ := exists_itemTokens_eq_cons (hcomplete item List.mem_cons_self) rest
    have hfirst : (itemTokens (item :: rest)).foldl Build.step (.partway .firstItem (.items [] :: frames)) =
        (itemTokens (item :: rest)).foldl Build.step (.partway .value (.items [] :: frames)) := by
      rw [htokens, List.foldl_cons, List.foldl_cons, step_firstItem ht]
    rw [List.foldl_append, hfirst, foldl_step_itemTokens h, List.append_nil]
    show Build.accept (.array (item :: rest).reverse.reverse true) frames = _
    rw [List.reverse_reverse]
    rfl

theorem foldl_step_memberTokens {field : String × Document} {rest : List (String × Document)}
    (h : ∀ f ∈ field :: rest, Builds f.2 f.2.tokens) (done : List (Option String × Document)) (frames : List Frame) :
    (memberTokens ((field :: rest).map fun (name, value) => (some name, value))).foldl Build.step
        (.partway .name (.members done :: frames)) =
      .partway .next
        (.members (((field :: rest).map fun (name, value) => (some name, value)).reverse ++ done) :: frames) := by
  induction rest generalizing field done with
  | nil => exact h field List.mem_cons_self (.member done (some field.1) :: frames)
  | cons next rest ih =>
    obtain ⟨hfield, hrest⟩ := List.forall_mem_cons.mp h
    show (field.2.tokens ++ .comma :: memberTokens ((next :: rest).map fun (name, value) => (some name, value))).foldl
      Build.step (.partway .value (.member done (some field.1) :: frames)) = _
    rw [List.foldl_append, hfield, List.foldl_cons]
    show (memberTokens ((next :: rest).map fun (name, value) => (some name, value))).foldl Build.step
      (.partway .name (.members ((some field.1, field.2) :: done) :: frames)) = _
    rw [ih hrest, List.map_cons (a := field), List.reverse_cons (a := (some field.1, field.2)), List.append_assoc]
    rfl

theorem builds_record {fields : List (String × Document)} (h : ∀ field ∈ fields, Builds field.2 field.2.tokens) :
    Builds (record fields) (record fields).tokens := by
  intro frames
  cases fields with
  | nil => rfl
  | cons field rest =>
    have hfold := foldl_step_memberTokens h [] frames
    have hname : (record (field :: rest)).tokens.foldl Build.step (.partway .value frames) =
        (memberTokens ((field :: rest).map fun (name, value) => (some name, value)) ++ [Token.closeObject]).foldl Build.step
          (.partway .name (.members [] :: frames)) := by
      cases rest with
      | nil => rfl
      | cons next rest => rfl
    rw [hname, List.foldl_append, hfold, List.append_nil]
    show Build.accept (.object (List.reverse (List.reverse _)) true) frames = _
    rw [List.reverse_reverse]
    rfl

/-- A complete document is built from its tokens. -/
theorem Complete.builds {d : Document} (h : d.Complete) : Builds d d.tokens := by
  induction h with
  | null => exact fun _ => rfl
  | bool value => exact fun _ => rfl
  | number hnumber => exact fun _ => rfl
  | text content => exact fun _ => rfl
  | list hitems ih => exact builds_list hitems ih
  | record _ ih => exact builds_record ih

/-- A complete document is read again as it was printed, and nothing is left over. -/
theorem Complete.read_print {d : Document} (h : d.Complete) : Json.read (symbolsOfText d.print) = (d, true) := by
  rw [Json.read, h.tokens_print, h.builds]
  rfl

end Document

end AddonPlanner.Json
