import AddonPlanner.Error
import AddonPlanner.Json.Document
import AddonPlanner.Text.Decimal

/-!
# Records and choices

How values with fields and values with variants are written in documents, and how they are read. Reading goes from left to
right and reports the first problem it meets: a bad value where it stands, a repeated field at its name, a missing field at
the end of its record.
-/

namespace AddonPlanner.Form

open Json (Document)

/-! ## Records -/

/-- One field of a record: its name, and how its value adds to what has been read of the record. -/
structure RecordField (σ : Type) where
  /-- The name of the field. -/
  name : String
  /-- Adds the value of the field. -/
  read : σ → Document → Except FormError σ

/-- Reads the members of an object. Members that are no fields are passed over, if only they are whole. -/
def readMembers {σ : Type} (fields : List (RecordField σ)) (seen : List String) (s : σ) :
    List (Option String × Document) → Except FormError σ
  | [] => .ok s
  | (none, _) :: _ => .error .malformed
  | (some name, value) :: rest =>
    match fields.find? (·.name == name) with
    | some field =>
      if seen.contains name then .error (.duplicateField name)
      else do readMembers fields (name :: seen) (← field.read s value) rest
    | none => if value.isWhole then readMembers fields seen s rest else .error .malformed

/-- Reads the items of a list as the first fields of a record, in their order. -/
def readItems {σ : Type} : List (RecordField σ) → σ → List Document → Except FormError σ
  | _, s, [] => .ok s
  | [], _, _ :: _ => .error .malformed
  | field :: fields, s, item :: rest => do readItems fields (← field.read s item) rest

/-- Reads a record from an object, or from a list of its fields in order. `finish` makes the value once everything is
read, or names the first field that is missing. -/
def readRecord {σ α : Type} (fields : List (RecordField σ)) (start : σ) (finish : σ → Except String α) :
    Document → Except FormError α
  | .object members closed => do
    let s ← readMembers fields [] start members
    if !closed then throw .malformed
    match finish s with
    | .ok value => return value
    | .error name => throw (.missingField name)
  | .array items closed => do
    let s ← readItems fields start items
    if !closed then throw .malformed
    match finish s with
    | .ok value => return value
    | .error _ => throw .malformed
  | _ => .error .malformed

/-- The value of a field that must be there. -/
def needed {α : Type} (name : String) : Option α → Except String α
  | some value => .ok value
  | none => .error name

/-! ## Choices -/

/-- One variant of a choice: its name, and the value it stands for or how to read what it holds. -/
structure Variant (α : Type) where
  /-- The name of the variant. -/
  name : String
  /-- The value that the name alone stands for, or a reader for what comes with the name. -/
  content : α ⊕ (Document → Except FormError α)

/-- The variant of a name. -/
def findVariant {α : Type} (variants : List (Variant α)) (name : String) : Except FormError (Variant α) :=
  match variants.find? (·.name == name) with
  | some variant => .ok variant
  | none => .error (.unknownVariant name (variants.map (·.name)))

/-- Reads a choice: a name alone, or an object whose one member has that name. A variant that holds nothing may come with
`null`. -/
def readChoice {α : Type} (variants : List (Variant α)) : Document → Except FormError α
  | .string (some name) => do
    match (← findVariant variants name).content with
    | .inl value => return value
    | .inr _ => throw .malformed
  | .object ((some name, held) :: rest) closed => do
    let value ← match (← findVariant variants name).content, held with
      | .inl value, .null => .ok value
      | .inl _, _ => .error .malformed
      | .inr read, held => read held
    if rest.isEmpty && closed then return value else throw .malformed
  | _ => .error .malformed

/-! ## Plain values -/

/-- Reads a text. -/
def readText : Document → Except FormError String
  | .string (some content) => .ok content
  | _ => .error .malformed

/-- Reads a truth value. -/
def readBool : Document → Except FormError Bool
  | .bool value => .ok value
  | _ => .error .malformed

/-- The whole number that a JSON number is, unless it has a fraction or an exponent or is a zero with a sign. -/
def wholeNumber? (literal : List Char) : Option Int :=
  match literal with
  | '-' :: digits => (Decimal.digits? digits).bind fun n => if n = 0 then none else some (-n)
  | digits => (Decimal.digits? digits).map Int.ofNat

/-- Reads a whole number of 64 bits. -/
def readWholeNumber : Document → Except FormError Int
  | .number literal =>
    match wholeNumber? literal.toList with
    | some n => if Int64.minValue.toInt ≤ n ∧ n ≤ Int64.maxValue.toInt then .ok n else .error .malformed
    | none => .error .malformed
  | _ => .error .malformed

/-- Reads the items of a list one after the other. -/
def readEach {α : Type} (read : Document → Except FormError α) : List Document → Except FormError (List α)
  | [] => .ok []
  | item :: rest => do
    let value ← read item
    return value :: (← readEach read rest)

/-- Reads a list. -/
def readList {α : Type} (read : Document → Except FormError α) : Document → Except FormError (List α)
  | .array items closed => do
    let values ← readEach read items
    if closed then return values else throw .malformed
  | _ => .error .malformed

/-- Reads a list of exactly two values. -/
def readPair {α : Type} (read : Document → Except FormError α) : Document → Except FormError (α × α)
  | .array (first :: second :: rest) closed => do
    let first ← read first
    let second ← read second
    if rest.isEmpty && closed then return (first, second) else throw .malformed
  | .array [first] _ => do
    discard (read first)
    throw .malformed
  | _ => .error .malformed

/-- Reads a value that may be `null`. -/
def readOptional {α : Type} (read : Document → Except FormError α) : Document → Except FormError (Option α)
  | .null => .ok none
  | document => do return some (← read document)

/-- Reads a text that stands for a value, or for none. -/
def readWritten {α : Type} (read : String → Except Fault α) (document : Document) : Except FormError α := do
  match read (← readText document) with
  | .ok value => return value
  | .error cause => throw (.fault cause)

/-- Writes a value that may be absent. -/
def writeOptional {α : Type} (write : α → Document) : Option α → Document
  | some value => write value
  | none => .null

end AddonPlanner.Form
