import AddonPlanner.Json.Document
import AddonPlanner.Json.Quoted

/-!
# Printing JSON

The compact written form of a document, without space between tokens. A document is printed as far as it was read: what is
open stays open.
-/

namespace AddonPlanner.Json

/-- A string that stands for no text: a surrogate on its own. -/
def unreadable : List Char :=
  "\"\\ud800\"".toList

namespace Document

/-- A string as it is printed. -/
def printedString : Option String → List Char
  | some content => quoted content.toList
  | none => unreadable

mutual

/-- The characters of a document. -/
def chars : Document → List Char
  | null => "null".toList
  | bool true => "true".toList
  | bool false => "false".toList
  | number literal => literal.toList
  | string content? => printedString content?
  | array items closed => '[' :: itemChars items ++ (if closed then [']'] else [])
  | object members closed => '\x7b' :: memberChars members ++ (if closed then ['\x7d'] else [])
  | broken => []

/-- The characters of the items of a list, with commas between them. -/
def itemChars : List Document → List Char
  | [] => []
  | [item] => item.chars
  | item :: rest => item.chars ++ ',' :: itemChars rest

/-- The characters of the members of an object, with commas between them. -/
def memberChars : List (Option String × Document) → List Char
  | [] => []
  | [(name?, value)] => printedString name? ++ ':' :: value.chars
  | (name?, value) :: rest => printedString name? ++ ':' :: value.chars ++ ',' :: memberChars rest

end

/-- The written form of a document. -/
def print (document : Document) : String :=
  String.ofList document.chars

end Document

end AddonPlanner.Json
