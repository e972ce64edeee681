/-!
# JSON documents

A document as far as it could be read. Reading stops at the first fault in the text; what is open there stays open, and the
value that should stand there is broken. So a value taken from a document is known to stand before the fault, and the first
problem met from left to right can be told.
-/

namespace AddonPlanner.Json

/-- A JSON value, as far as it could be read. -/
inductive Document
  /-- The value `null`. -/
  | null
  /-- A truth value. -/
  | bool (value : Bool)
  /-- A number, as it is written. -/
  | number (literal : String)
  /-- A string; without content when what is written stands for no text. -/
  | string (content? : Option String)
  /-- A list of values, and whether its end was reached. -/
  | array (items : List Document) (closed : Bool)
  /-- Values by name, and whether the end was reached; a name without content is written but stands for no text. -/
  | object (members : List (Option String × Document)) (closed : Bool)
  /-- The place where the text stops making sense. -/
  | broken

namespace Document

instance : Inhabited Document := ⟨broken⟩

/-- A string with a text. -/
def text (content : String) : Document :=
  string (some content)

/-- A list that is whole. -/
def list (items : List Document) : Document :=
  array items true

/-- Values by name, whole. -/
def record (fields : List (String × Document)) : Document :=
  object (fields.map fun (name, value) => (some name, value)) true

/-- A number written in decimal digits. -/
def integer (n : Int) : Document :=
  number (toString n)

/-- The value of a name in an object, the first where the name is repeated. -/
def get? (document : Document) (name : String) : Option Document :=
  match document with
  | object members _ => (members.find? (·.1 == some name)).map Prod.snd
  | _ => none

/-- Whether the value was read to its end. Reading stops at a fault, so a value that was closed holds none. -/
def isWhole : Document → Bool
  | broken => false
  | array _ closed => closed
  | object _ closed => closed
  | _ => true

end Document

end AddonPlanner.Json
