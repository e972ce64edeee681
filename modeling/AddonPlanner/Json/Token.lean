import AddonPlanner.Json.Quoted

/-!
# JSON tokens

The marks, words and strings that a JSON text is made of. The text is taken symbol by symbol; what makes no token is a fault.
-/

namespace AddonPlanner.Json

/-- A unit of a JSON text. -/
inductive Token
  /-- The mark that opens a list. -/
  | openArray
  /-- The mark that closes a list. -/
  | closeArray
  /-- The mark that opens values by name. -/
  | openObject
  /-- The mark that closes values by name. -/
  | closeObject
  /-- The mark between values. -/
  | comma
  /-- The mark between a name and its value. -/
  | colon
  /-- The word `null`. -/
  | null
  /-- The word `true` or `false`. -/
  | bool (value : Bool)
  /-- A number, as it is written. -/
  | number (literal : String)
  /-- A string, with the text it stands for if there is one. -/
  | string (content? : Option String)
  /-- Anything else. -/
  | fault

/-! ## Words -/

/-- What is left of a text after one or more digits. -/
def digitsRest? : List Char → Option (List Char)
  | c :: rest => if c.isDigit then some (rest.dropWhile Char.isDigit) else none
  | [] => none

/-- What is left after the whole part of a number: a zero, or digits that start with another one. -/
def wholeRest? : List Char → Option (List Char)
  | '0' :: rest => some rest
  | text => digitsRest? text

/-- What is left after the fraction of a number, if it has one. -/
def fractionRest? : List Char → Option (List Char)
  | '.' :: rest => digitsRest? rest
  | text => some text

/-- What is left after the exponent of a number, if it has one. -/
def exponentRest? : List Char → Option (List Char)
  | 'e' :: '+' :: rest | 'e' :: '-' :: rest | 'E' :: '+' :: rest | 'E' :: '-' :: rest => digitsRest? rest
  | 'e' :: rest | 'E' :: rest => digitsRest? rest
  | text => some text

/-- A text without the minus sign before it, if it has one. -/
def unsignedRest : List Char → List Char
  | '-' :: rest => rest
  | text => text

/-- Whether a text is a number in JSON: no leading zeros, no bare point, no plus sign in front. -/
def isNumber (text : List Char) : Bool :=
  (do exponentRest? (← fractionRest? (← wholeRest? (unsignedRest text)))) == some []

/-- The token that a word makes. -/
def Token.ofWord (word : List Char) : Token :=
  if word = "null".toList then .null
  else if word = "true".toList then .bool true
  else if word = "false".toList then .bool false
  else if isNumber word then .number (String.ofList word)
  else .fault

/-- The token that the contents of a string make. -/
def Token.ofContents (contents : List Symbol) : Token :=
  match pieces? contents with
  | some pieces => .string ((textOf? pieces).map String.ofList)
  | none => .fault

/-! ## Scanning -/

/-- A token under way. -/
inductive Lexeme
  /-- No token has been started. -/
  | nothing
  /-- A word, last character first. -/
  | word (taken : List Char)
  /-- A string, last symbol first, and whether a backslash has just been taken. -/
  | quoted (taken : List Symbol) (escape : Bool)

/-- A scan under way: the tokens found, last one first, and the token under way. -/
structure Scan where
  /-- The tokens found, last one first. -/
  tokens : List Token := []
  /-- The token under way. -/
  lexeme : Lexeme := .nothing

/-- Whether a character may stand in a word. -/
def isWordChar (c : Char) : Bool :=
  c.isAlphanum || c == '+' || c == '-' || c == '.'

/-- The token that a single character makes. -/
def Token.ofMark? : Char → Option Token
  | '[' => some .openArray
  | ']' => some .closeArray
  | '\x7b' => some .openObject
  | '\x7d' => some .closeObject
  | ',' => some .comma
  | ':' => some .colon
  | _ => none

/-- Whether a character separates tokens and has no other meaning. -/
def isSpace (c : Char) : Bool :=
  c == ' ' || c == '\t' || c == '\n' || c == '\r'

namespace Scan

/-- Takes a symbol where no token is under way. -/
def begin (tokens : List Token) : Symbol → Scan
  | none => ⟨.fault :: tokens, .nothing⟩
  | some c =>
    if isSpace c then ⟨tokens, .nothing⟩
    else if c = '"' then ⟨tokens, .quoted [] false⟩
    else if isWordChar c then ⟨tokens, .word [c]⟩
    else ⟨(Token.ofMark? c).getD .fault :: tokens, .nothing⟩

/-- Takes the next symbol. -/
def step (s : Scan) (symbol : Symbol) : Scan :=
  match s.lexeme with
  | .nothing => begin s.tokens symbol
  | .word taken =>
    match symbol with
    | some c =>
      if isWordChar c then { s with lexeme := .word (c :: taken) }
      else begin (.ofWord taken.reverse :: s.tokens) symbol
    | none => begin (.ofWord taken.reverse :: s.tokens) symbol
  | .quoted taken true => { s with lexeme := .quoted (symbol :: taken) false }
  | .quoted taken false =>
    if symbol = some '"' then ⟨.ofContents taken.reverse :: s.tokens, .nothing⟩
    else { s with lexeme := .quoted (symbol :: taken) (symbol = some '\\') }

/-- The tokens found once the text has ended, in order. -/
def finish (s : Scan) : List Token :=
  match s.lexeme with
  | .nothing => s.tokens.reverse
  | .word taken => (.ofWord taken.reverse :: s.tokens).reverse
  | .quoted _ _ => (.fault :: s.tokens).reverse

end Scan

/-- The tokens of a text. -/
def tokens (text : List Symbol) : List Token :=
  (text.foldl Scan.step {}).finish

end AddonPlanner.Json
