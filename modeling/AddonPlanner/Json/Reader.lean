import AddonPlanner.Json.Document
import AddonPlanner.Json.Token

/-!
# Reading JSON

A document is built from tokens with a stack of the lists and objects that are open. The first token that does not fit ends
the building: whatever is open then stays open.
-/

namespace AddonPlanner.Json

/-- A list or object that is open. -/
inductive Frame
  /-- A list, with its items so far, last one first. -/
  | items (items : List Document)
  /-- An object between two members, with its members so far, last one first. -/
  | members (members : List (Option String × Document))
  /-- An object whose next value is being read, with the name of that value. -/
  | member (members : List (Option String × Document)) (name? : Option String)

/-- What the next token may be. -/
inductive Place
  /-- A value. -/
  | value
  /-- The first item of a list, or its end. -/
  | firstItem
  /-- The first name of an object, or its end. -/
  | firstName
  /-- A name. -/
  | name
  /-- The colon after a name. -/
  | colon
  /-- The comma after a value, or the end of what holds it. -/
  | next

/-- A document under way. -/
inductive Build
  /-- Something is missing still: where the next token goes, and what is open, innermost first. -/
  | partway (place : Place) (frames : List Frame)
  /-- The document has ended, and whether nothing but space follows it. -/
  | ended (document : Document) (alone : Bool)

/-- The document in which a value is the last thing read and all that holds it stays open. -/
def abandon (value : Document) : List Frame → Document
  | [] => value
  | .items items :: frames => abandon (.array (value :: items).reverse false) frames
  | .members members :: frames => abandon (.object members.reverse false) frames
  | .member members name? :: frames => abandon (.object ((name?, value) :: members).reverse false) frames

namespace Build

/-- The end of the building at a token that does not fit. -/
def fail (frames : List Frame) : Build :=
  ended (abandon .broken frames) false

/-- Puts a value into what holds it. -/
def accept (value : Document) : List Frame → Build
  | [] => ended value true
  | .items items :: frames => .partway .next (.items (value :: items) :: frames)
  | .member members name? :: frames => .partway .next (.members ((name?, value) :: members) :: frames)
  | frames => fail frames

/-- Takes the first token of a value. -/
def begin (frames : List Frame) : Token → Build
  | .null => accept .null frames
  | .bool value => accept (.bool value) frames
  | .number literal => accept (.number literal) frames
  | .string content? => accept (.string content?) frames
  | .openArray => .partway .firstItem (.items [] :: frames)
  | .openObject => .partway .firstName (.members [] :: frames)
  | _ => fail frames

/-- Takes the next token. -/
def step : Build → Token → Build
  | ended document _, _ => ended document false
  | .partway .firstItem (.items [] :: frames), .closeArray => accept (.array [] true) frames
  | .partway .firstItem frames, token => begin frames token
  | .partway .value frames, token => begin frames token
  | .partway .firstName (.members [] :: frames), .closeObject => accept (.object [] true) frames
  | .partway .firstName (.members members :: frames), .string name? => .partway .colon (.member members name? :: frames)
  | .partway .name (.members members :: frames), .string name? => .partway .colon (.member members name? :: frames)
  | .partway .colon frames, .colon => .partway .value frames
  | .partway .next (.items items :: frames), .comma => .partway .value (.items items :: frames)
  | .partway .next (.items items :: frames), .closeArray => accept (.array items.reverse true) frames
  | .partway .next (.members members :: frames), .comma => .partway .name (.members members :: frames)
  | .partway .next (.members members :: frames), .closeObject => accept (.object members.reverse true) frames
  | .partway _ frames, _ => fail frames

/-- The document once the tokens have ended, and whether it is whole and nothing follows it. -/
def finish : Build → Document × Bool
  | .partway _ frames => (abandon .broken frames, false)
  | ended document alone => (document, alone)

end Build

/-- The document that a text starts with, and whether it is whole and nothing but space follows it. -/
def read (text : List Symbol) : Document × Bool :=
  ((tokens text).foldl Build.step (.partway .value [])).finish

end AddonPlanner.Json
