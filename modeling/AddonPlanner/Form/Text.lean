import AddonPlanner.Form.Plan
import AddonPlanner.Json.Printer
import AddonPlanner.Json.Reader

/-!
# Values as JSON text

Reading a value from the text of a document, and the catalog that a text describes. Something after the value is a fault, and
so is met last.
-/

namespace AddonPlanner

open Json (Document)

namespace Form

/-- Reads a value from symbols that hold one document. -/
def ofSymbols {α : Type} (read : Document → Except FormError α) (text : List Symbol) : Except FormError α := do
  let (document, alone) := Json.read text
  let value ← read document
  if alone then return value else throw .malformed

/-- Reads a value from the text of one document. -/
def ofText {α : Type} (read : Document → Except FormError α) (text : String) : Except FormError α :=
  ofSymbols read (symbolsOfText text)

end Form

namespace Catalog

/-- The catalog of the listing that symbols describe. -/
def ofSymbols (text : List Symbol) : Except Error Catalog :=
  match Form.ofSymbols Listing.ofForm text with
  | .ok listing => ofListing listing
  | .error cause => .error (.form cause)

/-- The catalog of the listing that a text describes. -/
def ofText (text : String) : Except Error Catalog :=
  ofSymbols (symbolsOfText text)

/-- The catalog of the listing that UTF-8 bytes describe. Bytes that are no part of a character do no harm where the reader
has no use for the text that they are in. -/
def ofBytes (bytes : ByteArray) : Except Error Catalog :=
  ofSymbols (symbolsOfBytes bytes)

/-- The text of a catalog: its listing as a document. -/
def toText (c : Catalog) : String :=
  c.toListing.toForm.print

end Catalog

end AddonPlanner
